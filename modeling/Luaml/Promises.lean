import Luaml.ExecutorLaws
import Luaml.Lib.Rounds

/-! `src/stdlib/promise.rs` and `thread.wait_any`. -/

namespace Luaml

open Rust Lua

namespace Thread

inductive Joined
  | ok (value : FieldValue)
  | err (message : Str)
  | joinError (text : Str)

/-- A task that has been spawned: when it is found to have finished, and what it ends with. -/
structure Task where
  isFinished : Nat → Bool
  stays : ∀ m n, m ≤ n → isFinished m = true → isFinished n = true
  joined : Joined

/-- The promises among the userdata, each with its handle if that has not been taken, and the moment
that it is. -/
structure World (H : Type) where
  promises : Ref → Option (Option Task)
  moment : Nat
  heap : Heap H

/-- What `mlua` says where a userdata does not have a method, of a string that is not UTF-8, and
with `{:?}` of another value. -/
structure Texts where
  noMethod : LuaValue → Str → Str
  notUtf8 : NotUtf8 → Str
  debug : LuaValue → Str

inductive PollState
  | pending | ready | resolved
  deriving DecidableEq

section

variable {H α : Type}

namespace World

def slot (w : World H) : LuaValue → Option (Option Task)
  | .userdata r => w.promises r
  | _ => none

def tick (w : World H) : World H := { w with moment := w.moment + 1 }

/-- `slot.take()` -/
def take (w : World H) : LuaValue → World H
  | .userdata r => { w with promises := fun q => if q = r then some none else w.promises q }
  | _ => w

def onHeap (x : LuaM H α) (w : World H) : Except Str α × World H :=
  ((x w.heap).1, { w with heap := (x w.heap).2 })

@[simp] theorem tick_slot (w : World H) (v : LuaValue) : w.tick.slot v = w.slot v := by
  cases v <;> rfl

@[simp] theorem tick_moment (w : World H) : w.tick.moment = w.moment + 1 := rfl

end World

variable (vm : Vm H) (texts : Texts)

def poll (ud : LuaValue) (w : World H) : Except Str PollState × World H :=
  match w.slot ud with
  | none => (.error (texts.noMethod ud "poll".toList), w.tick)
  | some none => (.ok .resolved, w.tick)
  | some (some h) => (.ok (if h.isFinished w.moment then .ready else .pending), w.tick)

def tryAwait (ud : LuaValue) (w : World H) : Except Str (LuaValue × LuaValue) × World H :=
  match w.slot ud with
  | none => (.error (texts.noMethod ud "try_await".toList), w.tick)
  | some none => (.error "promise already awaited or resolved".toList, w.tick)
  | some (some handle) =>
    if handle.isFinished w.moment = false then (.ok (.nil, .nil), w.tick)
    else
      match handle.joined with
      | .ok value =>
        (w.take ud).tick.onHeap do
          let v ← fieldValueToLua vm value
          pure (.boolean true, v)
      | .err err => (.ok (.boolean false, .string err), (w.take ud).tick)
      | .joinError joinErr =>
        (.ok (.boolean false, .string ("promise join error: ".toList ++ joinErr)),
          (w.take ud).tick)

def promiseUserdata (value : LuaValue) (who : Str) (i : Nat) : Except Str LuaValue :=
  match value with
  | .userdata _ | .luaEnum _ => .ok value
  | other =>
    .error (who ++ ": entry ".toList ++ (Nat.repr i).toList ++ " is not a promise (got ".toList ++
      other.typeName ++ [')'])

def entries (i : Nat) : List LuaValue → Except Str (List LuaValue)
  | [] => .ok []
  | value :: values => do
    let ud ← promiseUserdata value "thread.wait_any".toList (i + 1)
    let uds ← entries (i + 1) values
    pure (ud :: uds)

def message : LuaValue → Str
  | .string s => s
  | .bytes b => texts.notUtf8 b
  | other => texts.debug other

def waited (i : Nat) (payload : LuaValue) : LuaM H LuaValue := do
  let out ← createTable
  Lua.set vm out (.integer 1) (.integer (Int64.ofNat (i + 1)))
  Lua.set vm out (.integer 2) payload
  pure (.table out)

def sweep (i : Nat) : List LuaValue → World H → Round (Except Str LuaValue) (World H)
  | [], w => .goesOn w
  | ud :: uds, w =>
    match poll texts ud w with
    | (.error e, w) => .ends (.error e) w
    | (.ok .ready, w) =>
      match tryAwait vm texts ud w with
      | (.error e, w) => .ends (.error e) w
      | (.ok (.boolean true, payload), w) =>
        .ends (w.onHeap (waited vm i payload)).1 (w.onHeap (waited vm i payload)).2
      | (.ok (.boolean false, payload), w) => .ends (.error (message texts payload)) w
      | (.ok _, w) => sweep (i + 1) uds w
    | (.ok _, w) => sweep (i + 1) uds w

def waitRound (uds : List LuaValue) (w : World H) : Round (Except Str LuaValue) (World H) :=
  match sweep vm texts 0 uds w with
  | .ends result w => .ends result w
  | .goesOn w => .goesOn w.tick

/-- `thread.wait_any` of the sequence of a table, as far as a number of sweeps. -/
def waitAny (promises : List LuaValue) (sweeps : Nat) (w : World H) :
    Option (Except Str LuaValue × World H) :=
  match entries 0 promises with
  | .error e => some (.error e, w)
  | .ok [] => some (.error "thread.wait_any: list of promises is empty".toList, w)
  | .ok uds => Round.within (waitRound vm texts uds) sweeps w

variable {uds : List LuaValue} {ud : LuaValue} {i : Nat} {w w' : World H}

def World.Unready (w : World H) (ud : LuaValue) : Prop :=
  ∃ slot, w.slot ud = some slot ∧ ∀ h, slot = some h → h.isFinished w.moment = false

theorem unready_of_resolved (hslot : w.slot ud = some none) : w.Unready ud :=
  ⟨none, hslot, fun _ heq => absurd heq (by simp)⟩

theorem unready_of_tick (hunready : w.tick.Unready ud) : w.Unready ud := by
  obtain ⟨slot, hslot, hpending⟩ := hunready
  refine ⟨slot, (w.tick_slot ud).symm.trans hslot, fun h heq => ?_⟩
  rw [Bool.eq_false_iff]
  intro hfinished
  have hstays := h.stays _ _ (Nat.le_succ w.moment) hfinished
  exact absurd (hpending h heq) (by simpa using hstays)

theorem onHeap_pair (x : LuaM H LuaValue) (w : World H) :
    (∃ e w', w.onHeap (x >>= fun v => pure (LuaValue.boolean true, v)) = (.error e, w')) ∨
      ∃ v w', w.onHeap (x >>= fun v => pure (LuaValue.boolean true, v)) =
        (.ok (.boolean true, v), w') := by
  rw [World.onHeap]
  change (∃ e w', ((LuaM.bind x _ w.heap).1, _) = _) ∨ ∃ v w', ((LuaM.bind x _ w.heap).1, _) = _
  rw [LuaM.bind]
  rcases x w.heap with ⟨e | v, heap⟩
  · exact .inl ⟨_, _, rfl⟩
  · exact .inr ⟨_, _, rfl⟩

theorem tryAwait_of_finished {h : Task} (hslot : w.slot ud = some (some h))
    (hfinished : h.isFinished w.moment = true) :
    (∃ e w', tryAwait vm texts ud w = (.error e, w')) ∨
      ∃ ok payload w', tryAwait vm texts ud w = (.ok (.boolean ok, payload), w') := by
  rw [tryAwait, hslot]
  dsimp only
  rw [hfinished, if_neg (by simp)]
  cases h.joined with
  | err err => exact .inr ⟨_, _, _, rfl⟩
  | joinError text => exact .inr ⟨_, _, _, rfl⟩
  | ok value =>
    refine (onHeap_pair (fieldValueToLua vm value) (w.take ud).tick).imp_right ?_
    rintro ⟨v, w', heq⟩
    exact ⟨true, v, w', heq⟩

theorem sweep_of_unready (hunready : w.Unready ud) :
    sweep vm texts i (ud :: uds) w = sweep vm texts (i + 1) uds w.tick := by
  obtain ⟨slot, hslot, hunready⟩ := hunready
  rw [sweep, poll, hslot]
  cases slot with
  | none => rfl
  | some h =>
    dsimp only
    rw [hunready h rfl]
    rfl

theorem sweep_of_ready (uds : List LuaValue) (i : Nat) (hready : ¬w.Unready ud) :
    ∃ result w', sweep vm texts i (ud :: uds) w = .ends result w' := by
  rw [sweep, poll]
  rcases hslot : w.slot ud with _ | _ | h
  · exact ⟨_, _, rfl⟩
  · exact absurd (unready_of_resolved hslot) hready
  · have hfinished : h.isFinished w.moment = true := by
      by_contra hpending
      refine hready ⟨some h, hslot, fun h' heq => ?_⟩
      rw [← Option.some.inj heq]
      exact Bool.eq_false_iff.mpr hpending
    have hslot' : w.tick.slot ud = some (some h) := (w.tick_slot ud).trans hslot
    have hstays := h.stays _ _ (Nat.le_succ w.moment) hfinished
    dsimp only
    rw [if_pos hfinished]
    dsimp only
    rcases tryAwait_of_finished vm texts hslot' hstays with
      ⟨e, w', heq⟩ | ⟨ok, payload, w', heq⟩
    · rw [heq]
      exact ⟨_, _, rfl⟩
    · rw [heq]
      cases ok <;> exact ⟨_, _, rfl⟩

theorem sweep_goesOn (hsweep : sweep vm texts i uds w = .goesOn w') :
    w'.promises = w.promises ∧ w.moment ≤ w'.moment ∧ ∀ ud ∈ uds, w.Unready ud := by
  induction uds generalizing i w with
  | nil =>
    cases hsweep
    exact ⟨rfl, Nat.le_refl _, by simp⟩
  | cons ud uds ih =>
    by_cases hunready : w.Unready ud
    · rw [sweep_of_unready vm texts hunready] at hsweep
      obtain ⟨hpromises, hmoment, hrest⟩ := ih hsweep
      refine ⟨hpromises, Nat.le_of_succ_le hmoment, List.forall_mem_cons.mpr ⟨hunready, ?_⟩⟩
      exact fun v hv => unready_of_tick (hrest v hv)
    · obtain ⟨_, _, hends⟩ := sweep_of_ready vm texts uds i hunready
      rw [hends] at hsweep
      cases hsweep

theorem sweep_of_resolved (i : Nat) (hresolved : ∀ ud ∈ uds, w.slot ud = some none) :
    ∃ w', sweep vm texts i uds w = .goesOn w' ∧ w'.promises = w.promises := by
  induction uds generalizing i w with
  | nil => exact ⟨w, rfl, rfl⟩
  | cons ud uds ih =>
    obtain ⟨hslot, hresolved⟩ := List.forall_mem_cons.mp hresolved
    rw [sweep_of_unready vm texts (unready_of_resolved hslot)]
    exact ih (i + 1) fun v hv => (w.tick_slot v).trans (hresolved v hv)

variable {vm texts}

theorem slot_congr (hpromises : w'.promises = w.promises) (v : LuaValue) :
    w'.slot v = w.slot v := by
  cases v with
  | userdata r => exact congrFun hpromises r
  | _ => rfl

theorem entries_of_promises {values : List LuaValue}
    (hpromises : ∀ v ∈ values, (w.slot v).isSome) (i : Nat) : entries i values = .ok values := by
  induction values generalizing i with
  | nil => rfl
  | cons v values ih =>
    obtain ⟨hv, hpromises⟩ := List.forall_mem_cons.mp hpromises
    rw [entries, ih hpromises]
    cases v with
    | userdata r => rfl
    | _ => cases hv

theorem waitAny_of_promises {values : List LuaValue} (hne : values ≠ [])
    (hpromises : ∀ v ∈ values, (w.slot v).isSome) (n : Nat) :
    waitAny vm texts values n w = Round.within (waitRound vm texts values) n w := by
  rw [waitAny, entries_of_promises hpromises]
  cases values with
  | nil => exact absurd rfl hne
  | cons v values => rfl

theorem waitRound_goesOn (hround : waitRound vm texts uds w = .goesOn w') :
    ∃ t, sweep vm texts 0 uds w = .goesOn t ∧ w' = t.tick := by
  rw [waitRound] at hround
  split at hround
  · cases hround
  · rename_i t hsweep
    cases hround
    exact ⟨t, hsweep, rfl⟩

theorem waitAny_of_resolved {values : List LuaValue} (hne : values ≠ [])
    (hresolved : ∀ v ∈ values, w.slot v = some none) (n : Nat) :
    waitAny vm texts values n w = none := by
  rw [waitAny_of_promises hne fun v hv => by rw [hresolved v hv]; rfl]
  refine Round.within_eq_none (P := fun w' => w'.promises = w.promises) ?_ rfl n
  intro s hs
  obtain ⟨s', hsweep, hs'⟩ := sweep_of_resolved vm texts 0 fun v hv =>
    (slot_congr hs v).trans (hresolved v hv)
  exact ⟨s'.tick, by rw [waitRound, hsweep], hs'.trans hs⟩

theorem waitAny_of_pending {values : List LuaValue} (hpromises : ∀ v ∈ values, (w.slot v).isSome)
    {v : LuaValue} (hv : v ∈ values) {h : Task} (hslot : w.slot v = some (some h)) {m : Nat}
    (hm : h.isFinished m = true) : ∃ n r, waitAny vm texts values n w = some r := by
  simp only [waitAny_of_promises (List.ne_nil_of_mem hv) hpromises]
  refine Round.exists_within (P := fun w' => w'.promises = w.promises) World.moment m ?_ ?_ rfl
  · intro s s' hs hround
    obtain ⟨t, hsweep, rfl⟩ := waitRound_goesOn hround
    obtain ⟨hsame, hmoment, -⟩ := sweep_goesOn vm texts hsweep
    exact ⟨hsame.trans hs, Nat.lt_succ_of_le hmoment⟩
  · intro s s' hs hdeadline hround
    obtain ⟨t, hsweep, -⟩ := waitRound_goesOn hround
    obtain ⟨slot, hslot', hunready⟩ := (sweep_goesOn vm texts hsweep).2.2 v hv
    rw [slot_congr hs, hslot] at hslot'
    have hpending := hunready h (Option.some.inj hslot').symm
    rw [h.stays m _ hdeadline hm] at hpending
    cases hpending

/-- For promises, not none, of which all that are pending finish at some moment: `wait_any` ends
exactly if one of them has not been resolved before. -/
theorem waitAny_ends_iff {values : List LuaValue} (hne : values ≠ [])
    (hpromises : ∀ v ∈ values, (w.slot v).isSome)
    (hfinish : ∀ v ∈ values, ∀ h, w.slot v = some (some h) → ∃ m, h.isFinished m = true) :
    (∃ n r, waitAny vm texts values n w = some r) ↔
      ∃ v ∈ values, ∃ h, w.slot v = some (some h) := by
  constructor
  · rintro ⟨n, r, hr⟩
    by_contra hnone
    push Not at hnone
    rw [waitAny_of_resolved hne fun v hv => ?_] at hr
    · cases hr
    · obtain ⟨slot, hslot⟩ := Option.isSome_iff_exists.mp (hpromises v hv)
      cases slot with
      | none => exact hslot
      | some h => exact absurd hslot (hnone v hv h)
  · rintro ⟨v, hv, h, hslot⟩
    obtain ⟨m, hm⟩ := hfinish v hv h hslot
    exact waitAny_of_pending hpromises hv hslot hm

def awaitedFirst : World Unit where
  promises
    | 0 => some none
    | _ => some (some
      { isFinished := fun m => decide (5 ≤ m)
        stays := fun _ _ hle hm => decide_eq_true (Nat.le_trans (of_decide_eq_true hm) hle)
        joined := .ok (.number 1) })
  moment := 0
  heap := []

def noTexts : Texts := ⟨fun _ _ => [], fun _ => [], fun _ => []⟩

theorem awaitedFirst_ends :
    ∃ n r, waitAny noCode noTexts [.userdata 0, .userdata 1, .userdata 1] n awaitedFirst =
      some r := by
  refine (waitAny_ends_iff (by simp) ?_ ?_).mpr ⟨.userdata 1, by simp, _, rfl⟩
  · simp [awaitedFirst, World.slot]
  · rintro v hv h hslot
    simp only [List.mem_cons, List.not_mem_nil, or_false] at hv
    rcases hv with rfl | rfl | rfl
    · cases hslot
    · cases hslot
      exact ⟨5, rfl⟩
    · cases hslot
      exact ⟨5, rfl⟩

/-- Where the only promise has been awaited, the sweeps go on for ever. -/
theorem awaited_endless :
    ¬∀ (values : List LuaValue) (w : World Unit), values ≠ [] →
      (∀ v ∈ values, (w.slot v).isSome) →
        (∀ v ∈ values, ∀ h, w.slot v = some (some h) → ∃ m, h.isFinished m = true) →
          ∃ n r, waitAny noCode noTexts values n w = some r := by
  intro hall
  have hslot : ∀ v ∈ [LuaValue.userdata 0], awaitedFirst.slot v = some none := by
    simp [awaitedFirst, World.slot]
  obtain ⟨n, r, hr⟩ := hall [.userdata 0] awaitedFirst (by simp)
    (fun v hv => by rw [hslot v hv]; rfl) (fun v hv h heq => by rw [hslot v hv] at heq; cases heq)
  rw [waitAny_of_resolved (by simp) hslot n] at hr
  cases hr

end

end Thread

end Luaml
