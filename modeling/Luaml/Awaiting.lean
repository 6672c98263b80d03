import Luaml.Contents
import Luaml.Promises

/-! `promise:await` and `thread.wait_all`, which awaits one promise after the other. -/

namespace Luaml

open Rust Lua

namespace Thread

variable {H : Type}

def blockOn (handle : Task) (w : World H) : Round Joined (World H) :=
  if handle.isFinished w.moment then .ends handle.joined w else .goesOn w.tick

section

variable (vm : Vm H) (texts : Texts)

def Joined.toLua : Joined → LuaM H LuaValue
  | .ok value => fieldValueToLua vm value
  | .err message => LuaM.throw message
  | .joinError text => LuaM.throw ("promise join error: ".toList ++ text)

/-- `await`, as far as it waits a number of moments. -/
def await (moments : Nat) (ud : LuaValue) (w : World H) :
    Option (Except Str LuaValue × World H) :=
  match w.slot ud with
  | none => some (.error (texts.noMethod ud "await".toList), w.tick)
  | some none => some (.error "promise already awaited or resolved".toList, w.tick)
  | some (some handle) =>
    (Round.within (blockOn handle) moments (w.take ud)).map fun (joined, w) =>
      w.onHeap (joined.toLua vm)

def awaitEach (moments : Nat) (out : Ref) (i : Nat) :
    List LuaValue → World H → Option (Except Str Unit × World H)
  | [], w => some (.ok (), w)
  | value :: values, w =>
    match promiseUserdata value "thread.wait_all".toList (i + 1) with
    | .error e => some (.error e, w)
    | .ok ud =>
      match await vm texts moments ud w with
      | none => none
      | some (.error e, w) => some (.error e, w)
      | some (.ok resolved, w) =>
        match w.onHeap (Lua.set vm out (.integer (Int64.ofNat (i + 1))) resolved) with
        | (.error e, w) => some (.error e, w)
        | (.ok (), w) => awaitEach moments out (i + 1) values w

def waitAll (moments : Nat) (promises : List LuaValue) (w : World H) :
    Option (Except Str LuaValue × World H) :=
  match w.onHeap createTable with
  | (.error e, w) => some (.error e, w)
  | (.ok out, w) =>
    match awaitEach vm texts moments out 0 promises w with
    | none => none
    | some (.error e, w) => some (.error e, w)
    | some (.ok (), w) => some (.ok (.table out), w)

def Joined.result : Joined → Except Str FieldValue
  | .ok value => .ok value
  | .err message => .error message
  | .joinError text => .error ("promise join error: ".toList ++ text)

def spend (promises : Ref → Option (Option Task)) (value : LuaValue) :
    Ref → Option (Option Task) := fun q =>
  if value = .userdata q then (promises q).map fun _ => none else promises q

def deliver : Except Str FieldValue → LuaM H LuaValue
  | .ok value => fieldValueToLua vm value
  | .error e => LuaM.throw e

def World.outcome (w : World H) (ud : LuaValue) : Except Str FieldValue :=
  match w.slot ud with
  | none => .error (texts.noMethod ud "await".toList)
  | some none => .error "promise already awaited or resolved".toList
  | some (some handle) => handle.joined.result

def World.awaited (w : World H) (i : Nat) (value : LuaValue) : Except Str FieldValue := do
  let ud ← promiseUserdata value "thread.wait_all".toList (i + 1)
  w.outcome texts ud

/-- What awaiting one after the other comes to, as far as the first that fails. -/
def World.collect (i : Nat) : List LuaValue → World H →
    Except Str (List FieldValue) × (Ref → Option (Option Task))
  | [], w => (.ok [], w.promises)
  | value :: values, w =>
    match w.awaited texts i value with
    | .error e => (.error e, spend w.promises value)
    | .ok f =>
      let rest := collect (i + 1) values { w with promises := spend w.promises value }
      (rest.1.map (f :: ·), rest.2)

/-- What one await does: it resolves the promise, and delivers what the task ends with. -/
structure Awaits (w w' : World H) (ud : LuaValue) (r : Except Str LuaValue) : Prop where
  promises : w'.promises = spend w.promises ud
  moment : w.moment ≤ w'.moment
  finished : ∀ h, w.slot ud = some (some h) → h.isFinished w'.moment = true
  result : (r, w'.heap) = deliver vm (w.outcome texts ud) w.heap

variable {vm texts} {w w' : World H} {ud value : LuaValue} {values : List LuaValue} {i n : Nat}

theorem Joined.toLua_eq (joined : Joined) : joined.toLua vm = deliver vm joined.result := by
  cases joined <;> rfl

theorem take_promises {slot : Option Task} (hslot : w.slot ud = some slot) :
    (w.take ud).promises = spend w.promises ud := by
  cases ud with
  | userdata r =>
    funext q
    change (if q = r then some none else w.promises q) = _
    rw [spend]
    by_cases hq : q = r
    · subst hq
      have hq : w.promises q = some slot := hslot
      rw [if_pos rfl, if_pos rfl, hq]
      rfl
    · rw [if_neg hq, if_neg fun heq => hq (LuaValue.userdata.inj heq).symm]
  | _ => cases hslot

theorem take_heap (w : World H) (ud : LuaValue) : (w.take ud).heap = w.heap := by
  cases ud <;> rfl

theorem take_moment (w : World H) (ud : LuaValue) : (w.take ud).moment = w.moment := by
  cases ud <;> rfl

theorem onHeap_eq {α : Type} {x : LuaM H α} {result : Except Str α} {heap : Heap H}
    (hx : x w.heap = (result, heap)) : w.onHeap x = (result, { w with heap }) := by
  rw [World.onHeap, hx]

theorem spend_of_unspent {promises : Ref → Option (Option Task)}
    (hslot : ∀ q, value = .userdata q → promises q = none ∨ promises q = some none) :
    spend promises value = promises := by
  funext q
  rw [spend]
  split_ifs with hvalue
  · rcases hslot q hvalue with hq | hq <;> rw [hq] <;> rfl
  · rfl

theorem blockOn_within {handle : Task} {joined : Joined}
    (hr : Round.within (blockOn handle) n w = some (joined, w')) :
    joined = handle.joined ∧ w'.promises = w.promises ∧ w'.heap = w.heap ∧
      w.moment ≤ w'.moment ∧ handle.isFinished w'.moment = true := by
  refine Round.within_some
    (P := fun t => t.promises = w.promises ∧ t.heap = w.heap ∧ w.moment ≤ t.moment)
    (Q := fun joined t => joined = handle.joined ∧ t.promises = w.promises ∧
      t.heap = w.heap ∧ w.moment ≤ t.moment ∧ handle.isFinished t.moment = true)
    ?_ ?_ ⟨rfl, rfl, Nat.le_refl _⟩ hr
  · rintro s s' ⟨hpromises, hheap, hmoment⟩ hround
    rw [blockOn] at hround
    split_ifs at hround
    cases hround
    exact ⟨hpromises, hheap, Nat.le_succ_of_le hmoment⟩
  · rintro s joined s' ⟨hpromises, hheap, hmoment⟩ hround
    rw [blockOn] at hround
    split_ifs at hround with hfinished
    cases hround
    exact ⟨rfl, hpromises, hheap, hmoment, hfinished⟩

theorem blockOn_ends {handle : Task} {m : Nat} (hm : handle.isFinished m = true) (w : World H) :
    ∃ n r, Round.within (blockOn handle) n w = some r := by
  refine Round.exists_within (P := fun _ => True) World.moment m ?_ ?_ trivial
  · intro s s' _ hround
    rw [blockOn] at hround
    split_ifs at hround
    cases hround
    exact ⟨trivial, Nat.lt_succ_self _⟩
  · intro s s' _ hdeadline hround
    rw [blockOn, if_pos (handle.stays m _ hdeadline hm)] at hround
    cases hround

theorem await_awaits {r : Except Str LuaValue} (hr : await vm texts n ud w = some (r, w')) :
    Awaits vm texts w w' ud r := by
  rw [await] at hr
  rcases hslot : w.slot ud with _ | _ | h
  all_goals
    rw [hslot] at hr
    dsimp only at hr
  · cases hr
    refine ⟨(spend_of_unspent ?_).symm, Nat.le_succ _, by simp [hslot], ?_⟩
    · rintro q rfl
      exact .inl hslot
    · rw [World.outcome, hslot]
      rfl
  · cases hr
    refine ⟨(spend_of_unspent ?_).symm, Nat.le_succ _, by simp [hslot], ?_⟩
    · rintro q rfl
      exact .inr hslot
    · rw [World.outcome, hslot]
      rfl
  · obtain ⟨⟨joined, t⟩, hblock, heq⟩ := Option.map_eq_some_iff.mp hr
    obtain ⟨rfl, hpromises, hheap, hmoment, hfinished⟩ := blockOn_within hblock
    cases heq
    rw [take_promises hslot] at hpromises
    rw [take_heap] at hheap
    rw [take_moment] at hmoment
    refine ⟨hpromises, hmoment, fun g hg => ?_, ?_⟩
    · cases hslot.symm.trans hg
      exact hfinished
    · rw [World.outcome, hslot, ← Joined.toLua_eq, ← hheap]

theorem promiseUserdata_ok {who : Str} (hok : promiseUserdata value who i = .ok ud) :
    value = ud := by
  cases value <;> cases hok <;> rfl

theorem spend_of_not_promise {who e : Str} (herr : promiseUserdata value who i = .error e)
    (promises : Ref → Option (Option Task)) : spend promises value = promises := by
  refine spend_of_unspent fun q hq => ?_
  subst hq
  cases herr

theorem slot_of_spend {h : Task} (hpromises : w'.promises = spend w.promises value)
    (hslot : w'.slot ud = some (some h)) : w.slot ud = some (some h) := by
  cases ud with
  | userdata q =>
    rw [World.slot, hpromises, spend] at hslot
    split_ifs at hslot
    · obtain ⟨_, _, heq⟩ := Option.map_eq_some_iff.mp hslot
      cases heq
    · exact hslot
  | _ => cases hslot

theorem collect_congr (hpromises : w'.promises = w.promises) :
    w'.collect texts i values = w.collect texts i values := by
  induction values generalizing i w w' with
  | nil => rw [World.collect, World.collect, hpromises]
  | cons value values ih =>
    have hawaited : w'.awaited texts i value = w.awaited texts i value := by
      simp only [World.awaited, World.outcome, slot_congr hpromises]
    rw [World.collect, World.collect, hawaited]
    cases w.awaited texts i value with
    | error e => exact congrArg (fun p => (Except.error e, spend p value)) hpromises
    | ok f =>
      dsimp only
      rw [ih (w := { w with promises := spend w.promises value })
        (congrArg (spend · value) hpromises)]

theorem awaited_of_error {e : Str}
    (herr : promiseUserdata value "thread.wait_all".toList (i + 1) = .error e) :
    w.awaited texts i value = .error e := by
  rw [World.awaited, herr]
  rfl

theorem awaited_of_ok (hok : promiseUserdata value "thread.wait_all".toList (i + 1) = .ok ud) :
    w.awaited texts i value = w.outcome texts ud := by
  rw [World.awaited, hok]
  rfl

theorem collect_of_error {e : Str} (hawaited : w.awaited texts i value = .error e) :
    w.collect texts i (value :: values) = (.error e, spend w.promises value) := by
  rw [World.collect, hawaited]

theorem collect_of_ok {f : FieldValue} (hawaited : w.awaited texts i value = .ok f)
    (hpromises : w'.promises = spend w.promises value) :
    w.collect texts i (value :: values) =
      ((w'.collect texts (i + 1) values).1.map (f :: ·), (w'.collect texts (i + 1) values).2) := by
  have hcongr : w'.collect texts (i + 1) values =
      { w with promises := spend w.promises value }.collect texts (i + 1) values :=
    collect_congr hpromises
  rw [World.collect, hawaited, hcongr]

def World.SoundEach (w : World H) (values : List LuaValue) : Prop :=
  ∀ v ∈ values, ∀ h f, w.slot v = some (some h) → h.joined = .ok f → f.Sound

theorem outcome_sound (hsound : w.SoundEach values) (hud : ud ∈ values) {f : FieldValue}
    (houtcome : w.outcome texts ud = .ok f) : f.Sound := by
  rw [World.outcome] at houtcome
  split at houtcome
  · cases houtcome
  · cases houtcome
  · rename_i h hslot
    rcases hjoined : h.joined with g | _ | _
    all_goals
      rw [hjoined] at houtcome
      cases houtcome
    exact hsound ud hud h f hslot hjoined

theorem awaitEach_collects {out : Ref} {entries : List (LuaValue × LuaValue)}
    {r : Except Str Unit} (hsound : w.SoundEach values)
    (hout : w.heap[out]? = some (.table entries none))
    (hr : awaitEach vm texts n out i values w = some (r, w')) :
    w'.promises = (w.collect texts i values).2 ∧
      match (w.collect texts i values).1 with
      | .ok fs => r = .ok () ∧
        setItems vm out (Int64.ofNat (i + 1)) fs w.heap = (.ok (), w'.heap)
      | .error e => r = .error e := by
  induction values generalizing i w entries with
  | nil =>
    cases hr
    exact ⟨rfl, rfl, rfl⟩
  | cons value values ih =>
    rw [awaitEach] at hr
    cases huserdata : promiseUserdata value "thread.wait_all".toList (i + 1) with
    | error e =>
      rw [huserdata] at hr
      cases hr
      rw [collect_of_error (awaited_of_error huserdata)]
      exact ⟨(spend_of_not_promise huserdata _).symm, rfl⟩
    | ok ud =>
      obtain rfl := promiseUserdata_ok huserdata
      have hawaited : w.awaited texts i value = w.outcome texts value := awaited_of_ok huserdata
      rw [huserdata] at hr
      cases hawait : await vm texts n value w with
      | none =>
        simp only [hawait] at hr
        cases hr
      | some awaited =>
      obtain ⟨result, g⟩ := awaited
      simp only [hawait] at hr
      have hawaits := await_awaits hawait
      have hresult := hawaits.result
      cases houtcome : w.outcome texts value with
      | error e =>
        rw [houtcome] at hresult hawaited
        obtain ⟨rfl, -⟩ := Prod.mk.inj hresult
        cases hr
        rw [collect_of_error hawaited]
        exact ⟨hawaits.promises, rfl⟩
      | ok f =>
        rw [houtcome] at hresult hawaited
        have hf := outcome_sound hsound List.mem_cons_self houtcome
        obtain ⟨v, heap, hv, hmade⟩ := fieldValueToLua_made vm f hf w.heap
        obtain ⟨rfl, rfl⟩ := Prod.mk.inj (hresult.trans hv)
        obtain ⟨hset, hgrown⟩ :=
          set_grown hmade.length_le hmade.old hout (.integer (Int64.ofNat (i + 1))) v
        generalize List.set g.heap out _ = heap at hset hgrown
        obtain ⟨g', hpush, hg', rfl⟩ : ∃ g',
            g.onHeap (Lua.set vm out (.integer (Int64.ofNat (i + 1))) v) = (.ok (), g') ∧
              g'.promises = g.promises ∧ g'.heap = heap := ⟨_, onHeap_eq hset, rfl, rfl⟩
        simp only [hpush] at hr
        have hspend := hg'.trans hawaits.promises
        have hsound' : g'.SoundEach values := fun u hu h f' hslot =>
          hsound u (List.mem_cons_of_mem _ hu) h f' (slot_of_spend hspend hslot)
        obtain ⟨hpromises, hrest⟩ := ih hsound' hgrown.table hr
        rw [collect_of_ok hawaited hspend]
        refine ⟨hpromises, ?_⟩
        revert hrest
        generalize (World.collect texts (i + 1) values _).1 = rest
        intro hrest
        cases rest with
        | error e => exact hrest
        | ok fs =>
          have hnext : Int64.ofNat (i + 1) + 1 = Int64.ofNat (i + 1 + 1) :=
            (Int64.ofNat_add (i + 1) 1).symm
          refine ⟨hrest.1, ?_⟩
          rw [setItems, LuaM.bind_of_ok hv, LuaM.bind_of_ok hset, hnext]
          exact hrest.2

end

end Thread

end Luaml
