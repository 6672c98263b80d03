import Luaml.Awaiting

namespace Luaml

open Rust Lua

namespace Thread

section

variable {H : Type} {vm : Vm H} {texts : Texts} {w w' : World H} {ud value : LuaValue}
  {values : List LuaValue} {i n : Nat}

theorem await_mono {m : Nat} (hle : n ≤ m) {r : Except Str LuaValue × World H}
    (hr : await vm texts n ud w = some r) : await vm texts m ud w = some r := by
  rw [await] at hr ⊢
  split at hr
  · exact hr
  · exact hr
  · obtain ⟨p, hblock, heq⟩ := Option.map_eq_some_iff.mp hr
    rw [Round.within_mono hle hblock]
    exact congrArg some heq

theorem awaitEach_mono {m : Nat} (hle : n ≤ m) {out : Ref} {r : Except Str Unit × World H}
    (hr : awaitEach vm texts n out i values w = some r) :
    awaitEach vm texts m out i values w = some r := by
  induction values generalizing i w with
  | nil => exact hr
  | cons value values ih =>
    rw [awaitEach] at hr ⊢
    split at hr
    · exact hr
    · rename_i ud _
      cases hawait : await vm texts n ud w with
      | none =>
        rw [hawait] at hr
        cases hr
      | some awaited =>
        rw [hawait] at hr
        rw [await_mono hle hawait]
        obtain ⟨_ | v, g⟩ := awaited
        · exact hr
        · dsimp only at hr ⊢
          split at hr
          · exact hr
          · exact ih hr

def World.FinishEach (w : World H) (values : List LuaValue) : Prop :=
  ∀ v ∈ values, ∀ h, w.slot v = some (some h) → ∃ m, h.isFinished m = true

theorem await_ends (hfinish : ∀ h, w.slot ud = some (some h) → ∃ m, h.isFinished m = true) :
    ∃ n r, await vm texts n ud w = some r := by
  rcases hslot : w.slot ud with _ | _ | h
  · exact ⟨0, _, by rw [await, hslot]⟩
  · exact ⟨0, _, by rw [await, hslot]⟩
  · obtain ⟨m, hm⟩ := hfinish h hslot
    obtain ⟨n, r, hr⟩ := blockOn_ends hm (w.take ud)
    refine ⟨n, r.2.onHeap (r.1.toLua vm), ?_⟩
    rw [await, hslot]
    exact congrArg (Option.map _) hr

theorem awaitEach_ends (out : Ref) (i : Nat) (hfinish : w.FinishEach values) :
    ∃ n r, awaitEach vm texts n out i values w = some r := by
  induction values generalizing i w with
  | nil => exact ⟨0, _, rfl⟩
  | cons value values ih =>
    cases huserdata : promiseUserdata value "thread.wait_all".toList (i + 1) with
    | error e => exact ⟨0, _, by rw [awaitEach, huserdata]⟩
    | ok ud =>
      obtain rfl := promiseUserdata_ok huserdata
      obtain ⟨n, ⟨result, g⟩, hawait⟩ : ∃ n r, await vm texts n value w = some r :=
        await_ends (hfinish value List.mem_cons_self)
      have hpromises := (await_awaits hawait).promises
      cases result with
      | error e => exact ⟨n, (.error e, g), by rw [awaitEach, huserdata]; simp only [hawait]⟩
      | ok v =>
        rcases hpush : g.onHeap (Lua.set vm out (.integer (Int64.ofNat (i + 1))) v) with
          ⟨e | _, g'⟩
        · exact ⟨n, (.error e, g'), by rw [awaitEach, huserdata]; simp only [hawait, hpush]⟩
        · have hpromises' : g'.promises = spend w.promises value := by
            rw [← hpromises, ← congrArg (fun p => World.promises p.2) hpush]
            rfl
          obtain ⟨m, r, hr⟩ := ih (i + 1) (w := g') fun u hu h hslot =>
            hfinish u (List.mem_cons_of_mem _ hu) h (slot_of_spend hpromises' hslot)
          refine ⟨max n m, r, ?_⟩
          rw [awaitEach, huserdata]
          simp only [await_mono (Nat.le_max_left n m) hawait, hpush]
          exact awaitEach_mono (Nat.le_max_right n m) hr

theorem slot_spend_iff {h : Task} (hpromises : w'.promises = spend w.promises value) :
    w'.slot ud = some (some h) ↔ ud ≠ value ∧ w.slot ud = some (some h) := by
  refine ⟨fun hslot => ⟨?_, slot_of_spend hpromises hslot⟩, fun ⟨hne, hslot⟩ => ?_⟩
  · rintro rfl
    cases ud with
    | userdata q =>
      rw [World.slot, hpromises, spend, if_pos rfl] at hslot
      obtain ⟨_, _, heq⟩ := Option.map_eq_some_iff.mp hslot
      cases heq
    | _ => cases hslot
  · cases ud with
    | userdata q =>
      rw [World.slot, hpromises, spend, if_neg (Ne.symm hne)]
      exact hslot
    | _ => cases hslot

theorem awaitEach_finishEach {out : Ref}
    (hr : awaitEach vm texts n out i values w = some (.ok (), w')) : w.FinishEach values := by
  induction values generalizing i w with
  | nil => exact fun _ hv => absurd hv List.not_mem_nil
  | cons value values ih =>
    rw [awaitEach] at hr
    split at hr
    · cases hr
    · rename_i ud huserdata
      obtain rfl := promiseUserdata_ok huserdata
      split at hr
      · cases hr
      · cases hr
      · rename_i resolved g hawait
        split at hr
        · cases hr
        · rename_i g' hpush
          have hawaits := await_awaits hawait
          have hspend : g'.promises = spend w.promises value := by
            rw [← hawaits.promises, ← congrArg (fun p => World.promises p.2) hpush]
            rfl
          intro v hv h hslot
          by_cases hvalue : v = value
          · subst hvalue
            exact ⟨_, hawaits.finished h hslot⟩
          · have hmem := (List.mem_cons.mp hv).resolve_left hvalue
            exact ih hr v hmem h ((slot_spend_iff hspend).mpr ⟨hvalue, hslot⟩)

theorem awaited_ok_iff {f : FieldValue} :
    w.awaited texts i value = .ok f ↔ ∃ h, w.slot value = some (some h) ∧ h.joined = .ok f := by
  cases huserdata : promiseUserdata value "thread.wait_all".toList (i + 1) with
  | error e =>
    rw [awaited_of_error huserdata]
    refine ⟨fun heq => (by cases heq), ?_⟩
    rintro ⟨h, hslot, -⟩
    cases value with
    | userdata q => cases huserdata
    | _ => cases hslot
  | ok ud =>
    obtain rfl := promiseUserdata_ok huserdata
    rw [awaited_of_ok huserdata, World.outcome]
    rcases w.slot value with _ | _ | h
    · simp
    · simp
    · cases hjoined : h.joined <;> simp [hjoined, Joined.result]

def World.Yields (w : World H) (value : LuaValue) : Prop :=
  ∃ h f, w.slot value = some (some h) ∧ h.joined = .ok f

theorem yields_spend_iff (hpromises : w'.promises = spend w.promises value) :
    w'.Yields ud ↔ ud ≠ value ∧ w.Yields ud := by
  simp only [World.Yields, slot_spend_iff hpromises]
  constructor
  · rintro ⟨h, f, ⟨hne, hslot⟩, hjoined⟩
    exact ⟨hne, h, f, hslot, hjoined⟩
  · rintro ⟨hne, h, f, hslot, hjoined⟩
    exact ⟨h, f, ⟨hne, hslot⟩, hjoined⟩

theorem collect_cons_ok_iff (hpromises : w'.promises = spend w.promises value) :
    (∃ fs, (w.collect texts i (value :: values)).1 = .ok fs) ↔
      w.Yields value ∧ ∃ fs, (w'.collect texts (i + 1) values).1 = .ok fs := by
  cases hawaited : w.awaited texts i value with
  | error e =>
    rw [collect_of_error hawaited]
    refine ⟨fun ⟨fs, heq⟩ => (by cases heq), ?_⟩
    rintro ⟨⟨h, f, hslot, hjoined⟩, -⟩
    cases hawaited.symm.trans (awaited_ok_iff.mpr ⟨h, hslot, hjoined⟩)
  | ok f =>
    obtain ⟨h, hslot, hjoined⟩ := awaited_ok_iff.mp hawaited
    rw [collect_of_ok hawaited hpromises]
    refine ⟨fun ⟨fs, heq⟩ => ⟨⟨h, f, hslot, hjoined⟩, ?_⟩, fun ⟨_, fs, heq⟩ => ⟨f :: fs, ?_⟩⟩
    · dsimp only at heq
      cases hrest : (w'.collect texts (i + 1) values).1 with
      | error e =>
        rw [hrest] at heq
        cases heq
      | ok rest => exact ⟨rest, rfl⟩
    · rw [heq]
      rfl

theorem collect_ok_iff : (∃ fs, (w.collect texts i values).1 = .ok fs) ↔
    values.Nodup ∧ ∀ v ∈ values, w.Yields v := by
  induction values generalizing i w with
  | nil => exact ⟨fun _ => ⟨List.nodup_nil, by simp⟩, fun _ => ⟨[], rfl⟩⟩
  | cons value values ih =>
    let spent : World H := { w with promises := spend w.promises value }
    have hspent : spent.promises = spend w.promises value := rfl
    rw [collect_cons_ok_iff hspent, ih, List.nodup_cons, List.forall_mem_cons]
    have hyields : ∀ v, spent.Yields v ↔ v ≠ value ∧ w.Yields v := fun v => yields_spend_iff rfl
    simp only [hyields]
    constructor
    · rintro ⟨hvalue, hnodup, hall⟩
      exact ⟨⟨fun hmem => (hall value hmem).1 rfl, hnodup⟩, hvalue, fun v hv => (hall v hv).2⟩
    · rintro ⟨⟨hnew, hnodup⟩, hvalue, hall⟩
      exact ⟨hvalue, hnodup, fun v hv => ⟨ne_of_mem_of_not_mem hv hnew, hall v hv⟩⟩

def World.withTable (w : World H) : World H := { w with heap := w.heap ++ [.table [] none] }

theorem waitAll_eq : waitAll vm texts n values w =
    (awaitEach vm texts n w.heap.length 0 values w.withTable).map fun (r, w') =>
      (r.map fun _ => .table w.heap.length, w') := by
  rw [waitAll]
  have htable : w.onHeap createTable = (.ok w.heap.length, w.withTable) := rfl
  simp only [htable]
  rcases awaitEach vm texts n w.heap.length 0 values w.withTable with _ | ⟨_ | _, _⟩ <;> rfl

theorem waitAll_ends (hfinish : w.FinishEach values) :
    ∃ n r, waitAll vm texts n values w = some r := by
  obtain ⟨n, r, hr⟩ : ∃ n r, awaitEach vm texts n w.heap.length 0 values w.withTable = some r :=
    awaitEach_ends w.heap.length 0 hfinish
  exact ⟨n, _, by rw [waitAll_eq, hr]; rfl⟩

theorem waitAll_result {r : Except Str LuaValue} (hsound : w.SoundEach values)
    (hr : waitAll vm texts n values w = some (r, w')) :
    w'.promises = (w.collect texts 0 values).2 ∧
      match (w.collect texts 0 values).1 with
      | .ok fs => r = .ok (.table w.heap.length) ∧
        fieldValueToLua vm (.list fs) w.heap = (r, w'.heap)
      | .error e => r = .error e := by
  rw [waitAll_eq] at hr
  obtain ⟨⟨result, g⟩, heach, heq⟩ := Option.map_eq_some_iff.mp hr
  cases heq
  have hout : w.withTable.heap[w.heap.length]? = some (.table [] none) := by
    simp [World.withTable]
  obtain ⟨hpromises, hresult⟩ := awaitEach_collects (w := w.withTable) hsound hout heach
  have hsame : w.withTable.promises = w.promises := rfl
  rw [collect_congr hsame] at hpromises hresult
  refine ⟨hpromises, ?_⟩
  revert hresult
  cases (w.collect texts 0 values).1 with
  | error e =>
    rintro rfl
    rfl
  | ok fs =>
    rintro ⟨rfl, hset⟩
    refine ⟨rfl, ?_⟩
    rw [fieldValueToLua, LuaM.bind_of_ok (createTable_eq w.heap)]
    exact LuaM.bind_of_ok hset _

/-- `wait_all` ends if the tasks do.  It resolves the promises that awaiting in order resolves, and
what it returns is what one promise for the list of the values would deliver. -/
theorem waitAll_collects (hsound : w.SoundEach values) (hfinish : w.FinishEach values) :
    (∃ n r, waitAll vm texts n values w = some r) ∧
      ∀ n r w', waitAll vm texts n values w = some (r, w') →
        w'.promises = (w.collect texts 0 values).2 ∧
          match (w.collect texts 0 values).1 with
          | .ok fs => r = .ok (.table w.heap.length) ∧
            fieldValueToLua vm (.list fs) w.heap = (r, w'.heap)
          | .error e => r = .error e :=
  ⟨waitAll_ends hfinish, fun _ _ _ hr => waitAll_result hsound hr⟩

/-- It succeeds exactly for distinct promises that have not been resolved, of tasks that end, and
end with values. -/
theorem waitAll_ok_iff (hsound : w.SoundEach values) :
    (∃ n v w', waitAll vm texts n values w = some (.ok v, w')) ↔
      values.Nodup ∧ (∀ v ∈ values, w.Yields v) ∧ w.FinishEach values := by
  have hcollect : (∃ fs, (w.collect texts 0 values).1 = .ok fs) ↔ _ := collect_ok_iff
  rw [← and_assoc, ← hcollect]
  constructor
  · rintro ⟨n, v, w', hr⟩
    have heach := hr
    rw [waitAll_eq] at heach
    obtain ⟨⟨_ | _, g⟩, heach, heq⟩ := Option.map_eq_some_iff.mp heach
    · cases heq
    · have hfinish : w.withTable.FinishEach values := awaitEach_finishEach heach
      refine ⟨?_, hfinish⟩
      have hresult := (waitAll_result hsound hr).2
      revert hresult
      cases (w.collect texts 0 values).1 with
      | ok fs => exact fun _ => ⟨fs, rfl⟩
      | error e =>
        intro herr
        cases herr
  · rintro ⟨⟨fs, hfs⟩, hfinish⟩
    obtain ⟨n, ⟨r, w'⟩, hr⟩ : ∃ n r, waitAll vm texts n values w = some r := waitAll_ends hfinish
    have hresult := (waitAll_result hsound hr).2
    rw [hfs] at hresult
    obtain ⟨rfl, -⟩ := hresult
    exact ⟨n, _, w', hr⟩

theorem awaitedFirst_slot {v : LuaValue} {h : Task}
    (hslot : awaitedFirst.slot v = some (some h)) :
    h.isFinished 5 = true ∧ h.joined = .ok (.number 1) := by
  cases v with
  | userdata r =>
    rcases r with _ | r
    · cases hslot
    · cases hslot
      exact ⟨rfl, rfl⟩
  | _ => cases hslot

theorem awaitedFirst_soundEach (values : List LuaValue) : awaitedFirst.SoundEach values := by
  intro v _ h f hslot hjoined
  cases (awaitedFirst_slot hslot).2.symm.trans hjoined
  exact trivial

theorem awaitedFirst_finishEach (values : List LuaValue) : awaitedFirst.FinishEach values :=
  fun _ _ _ hslot => ⟨5, (awaitedFirst_slot hslot).1⟩

theorem waitAll_collects_awaitedFirst :
    ∃ n r w', waitAll noCode noTexts n [.userdata 1, .userdata 2] awaitedFirst = some (r, w') ∧
      fieldValueToLua noCode (.list [.number 1, .number 1]) [] = (r, w'.heap) ∧
        w'.slot (.userdata 2) = some none := by
  obtain ⟨⟨n, ⟨r, w'⟩, hr⟩, hall⟩ : (∃ n r, waitAll noCode noTexts n
      [.userdata 1, .userdata 2] awaitedFirst = some r) ∧ _ :=
    waitAll_collects (awaitedFirst_soundEach _) (awaitedFirst_finishEach _)
  obtain ⟨hpromises, -, hresult⟩ := hall n r w' hr
  exact ⟨n, r, w', hr, hresult, congrFun hpromises 2⟩

theorem waitAll_ok_iff_awaitedFirst :
    ¬∃ n v w', waitAll noCode noTexts n [.userdata 1, .userdata 1] awaitedFirst =
      some (.ok v, w') := by
  intro hok
  have hnodup := ((waitAll_ok_iff (awaitedFirst_soundEach [.userdata 1, .userdata 1])).mp hok).1
  simp at hnodup

end

end Thread

end Luaml
