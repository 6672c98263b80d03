import Mathlib.Logic.Relation
import Luaml.WaitAny

namespace Luaml

open Rust Lua

namespace Thread

section

variable {H : Type} {vm : Vm H} {texts : Texts} {w w' t : World H} {ud value : LuaValue}
  {values : List LuaValue} {i n : Nat} {r : Except Str LuaValue}

/-- What the waits do to the promises: each stays, or is resolved once its task has finished, or is
new. -/
structure Evolves (w w' : World H) : Prop where
  moment : w.moment ≤ w'.moment
  slot : ∀ v, w'.slot v = w.slot v ∨ w.slot v = none ∨
    w'.slot v = some none ∧ ∃ h, w.slot v = some (some h) ∧ h.isFinished w'.moment = true

theorem Evolves.of_promises (hmoment : w.moment ≤ w'.moment)
    (hpromises : w'.promises = w.promises) : Evolves w w' :=
  ⟨hmoment, fun v => .inl (slot_congr hpromises v)⟩

theorem Evolves.refl (w : World H) : Evolves w w := .of_promises (Nat.le_refl _) rfl

theorem Evolves.trans (hwt : Evolves w t) (htw : Evolves t w') : Evolves w w' where
  moment := hwt.moment.trans htw.moment
  slot v := by
    rcases hwt.slot v with hsame | hnew | ⟨hresolved, h, hslot, hfinished⟩
    · rcases htw.slot v with hsame' | hnew' | ⟨hresolved, h, hslot, hfinished⟩
      · exact .inl (hsame'.trans hsame)
      · exact .inr (.inl (hsame.symm.trans hnew'))
      · exact .inr (.inr ⟨hresolved, h, hsame.symm.trans hslot, hfinished⟩)
    · exact .inr (.inl hnew)
    · have hfinished' := h.stays _ _ htw.moment hfinished
      rcases htw.slot v with hsame' | hnew' | ⟨hresolved', h', hslot', -⟩
      · exact .inr (.inr ⟨hsame'.trans hresolved, h, hslot, hfinished'⟩)
      · cases hnew'.symm.trans hresolved
      · cases hslot'.symm.trans hresolved

theorem slot_spend (hspend : w'.promises = spend w.promises value) (v : LuaValue) :
    w'.slot v = if value = v then (w.slot v).map fun _ => none else w.slot v := by
  cases v with
  | userdata q => rw [World.slot, hspend]; rfl
  | _ => exact (ite_self none).symm

theorem Evolves.of_spend (hmoment : w.moment ≤ w'.moment)
    (hspend : w'.promises = spend w.promises value)
    (hfinished : ∀ h, w.slot value = some (some h) → h.isFinished w'.moment = true) :
    Evolves w w' where
  moment := hmoment
  slot v := by
    rw [slot_spend hspend]
    split_ifs with hvalue
    · subst hvalue
      rcases hslot : w.slot value with _ | _ | h
      · exact .inl rfl
      · exact .inl rfl
      · exact .inr (.inr ⟨rfl, h, rfl, hfinished h hslot⟩)
    · exact .inl rfl

theorem onHeap_evolves {α : Type} {x : LuaM H α} {result : Except Str α}
    (hx : w.onHeap x = (result, t)) : Evolves w t := by
  obtain ⟨-, rfl⟩ := Prod.mk.inj hx
  exact .of_promises (Nat.le_refl _) rfl

theorem tryAwait_evolves (ud : LuaValue) (w : World H) :
    Evolves w (tryAwait vm texts ud w).2 := by
  have hmoment : w.moment ≤ (w.take ud).tick.moment := by
    rw [World.tick_moment, take_moment]
    exact Nat.le_succ _
  rw [tryAwait]
  rcases hslot : w.slot ud with _ | _ | h
  · exact .of_promises (Nat.le_succ _) rfl
  · exact .of_promises (Nat.le_succ _) rfl
  · dsimp only
    split_ifs with hpending
    · exact .of_promises (Nat.le_succ _) rfl
    · have htaken : ∀ w' : World H, w'.promises = (w.take ud).tick.promises →
          w'.moment = (w.take ud).tick.moment → Evolves w w' := by
        intro w' hpromises hmoment'
        refine .of_spend (hmoment'.symm ▸ hmoment) (hpromises.trans (take_promises hslot)) ?_
        rintro g hg
        cases hslot.symm.trans hg
        rw [hmoment']
        exact h.stays _ _ hmoment (by simpa using hpending)
      cases h.joined <;> exact htaken _ rfl rfl

theorem await_evolves (hr : await vm texts n ud w = some (r, w')) : Evolves w w' :=
  have hawaits := await_awaits hr
  .of_spend hawaits.moment hawaits.promises hawaits.finished

theorem awaitEach_evolves {out : Ref} {result : Except Str Unit}
    (hr : awaitEach vm texts n out i values w = some (result, w')) : Evolves w w' := by
  induction values generalizing i w with
  | nil =>
    cases hr
    exact .refl _
  | cons value values ih =>
    rw [awaitEach] at hr
    split at hr
    · cases hr
      exact .refl _
    · split at hr
      · cases hr
      · rename_i hawait
        cases hr
        exact await_evolves hawait
      · rename_i hawait
        refine (await_evolves hawait).trans ?_
        split at hr
        · rename_i hpush
          cases hr
          exact onHeap_evolves hpush
        · rename_i hpush
          exact (onHeap_evolves hpush).trans (ih hr)

theorem waitAll_evolves (hr : waitAll vm texts n values w = some (r, w')) : Evolves w w' := by
  rw [waitAll] at hr
  split at hr
  · rename_i htable
    cases htable
  · rename_i htable
    refine (onHeap_evolves htable).trans ?_
    split at hr
    · cases hr
    · rename_i heach
      cases hr
      exact awaitEach_evolves heach
    · rename_i heach
      cases hr
      exact awaitEach_evolves heach

theorem waitAny_evolves (hr : waitAny vm texts values n w = some (r, w')) : Evolves w w' := by
  rcases waitAny_spec hr with ⟨-, rfl, -⟩ | ⟨hmoment, hrefuses | hwins⟩
  · exact .refl _
  · exact .of_promises hmoment hrefuses.promises
  · obtain ⟨before, v, after, h, -, -, hslot, hfinished, hspend, -⟩ := hwins.place
    refine .of_spend hmoment hspend fun g hg => ?_
    cases hslot.symm.trans hg
    exact hfinished

variable (vm texts) in
inductive Step : World H → World H → Prop
  | poll (ud : LuaValue) (w : World H) : Step w (poll texts ud w).2
  | tryAwait (ud : LuaValue) (w : World H) : Step w (tryAwait vm texts ud w).2
  | await {n : Nat} {ud : LuaValue} {w w' : World H} {r : Except Str LuaValue} :
    await vm texts n ud w = some (r, w') → Step w w'
  | waitAll {n : Nat} {values : List LuaValue} {w w' : World H} {r : Except Str LuaValue} :
    waitAll vm texts n values w = some (r, w') → Step w w'
  | waitAny {n : Nat} {values : List LuaValue} {w w' : World H} {r : Except Str LuaValue} :
    waitAny vm texts values n w = some (r, w') → Step w w'
  | spawn {w : World H} {q : Ref} (task : Task) : w.promises q = none →
    Step w { w with promises := fun p => if p = q then some (some task) else w.promises p }
  | elapse {w : World H} {moment : Nat} (heap : Heap H) : w.moment ≤ moment →
    Step w { w with moment, heap }

theorem Step.evolves (hstep : Step vm texts w w') : Evolves w w' := by
  cases hstep with
  | poll ud =>
    refine .of_promises ?_ ?_
    · rw [Thread.poll]
      split <;> exact Nat.le_succ _
    · rw [Thread.poll]
      split <;> rfl
  | tryAwait ud => exact tryAwait_evolves ud w
  | await hr => exact await_evolves hr
  | waitAll hr => exact waitAll_evolves hr
  | waitAny hr => exact waitAny_evolves hr
  | elapse heap hmoment => exact .of_promises hmoment rfl
  | @spawn _ q task hnew =>
    refine ⟨Nat.le_refl _, fun v => ?_⟩
    cases v with
    | userdata p =>
      by_cases hp : p = q
      · exact .inr (.inl (hp ▸ hnew))
      · exact .inl (if_neg hp)
    | _ => exact .inl rfl

theorem run_evolves (hrun : Relation.ReflTransGen (Step vm texts) w w') : Evolves w w' := by
  induction hrun with
  | refl => exact .refl w
  | tail _ hstep ih => exact ih.trans hstep.evolves

def PollState.rank : PollState → Nat
  | .pending => 0
  | .ready => 1
  | .resolved => 2

def World.stateOf (w : World H) : Option Task → PollState
  | none => .resolved
  | some h => if h.isFinished w.moment then .ready else .pending

theorem poll_of_slot {slot : Option Task} (hslot : w.slot ud = some slot) :
    (poll texts ud w).1 = .ok (w.stateOf slot) := by
  rw [poll, hslot]
  cases slot <;> rfl

theorem slot_of_poll {s : PollState} (hs : (poll texts ud w).1 = .ok s) :
    ∃ slot, w.slot ud = some slot ∧ s = w.stateOf slot := by
  cases hslot : w.slot ud with
  | none =>
    rw [poll, hslot] at hs
    cases hs
  | some slot =>
    rw [poll_of_slot hslot] at hs
    exact ⟨slot, rfl, (Except.ok.inj hs).symm⟩

theorem Evolves.stateOf_le (hevolves : Evolves w w') {slot : Option Task}
    (hslot : w.slot ud = some slot) :
    ∃ slot', w'.slot ud = some slot' ∧ (w.stateOf slot).rank ≤ (w'.stateOf slot').rank := by
  rcases hevolves.slot ud with hsame | hnew | ⟨hresolved, -⟩
  · refine ⟨slot, hsame.trans hslot, ?_⟩
    cases slot with
    | none => exact Nat.le_refl _
    | some h =>
      rw [World.stateOf, World.stateOf]
      by_cases hfinished : h.isFinished w.moment = true
      · rw [if_pos hfinished, if_pos (h.stays _ _ hevolves.moment hfinished)]
      · rw [if_neg hfinished]
        exact Nat.zero_le _
  · cases hslot.symm.trans hnew
  · refine ⟨none, hresolved, ?_⟩
    change (w.stateOf slot).rank ≤ 2
    cases w.stateOf slot <;> decide

theorem await_of_ready {h : Task} (hslot : w.slot ud = some (some h))
    (hfinished : h.isFinished w.moment = true) :
    ∃ r w', await vm texts 1 ud w = some (r, w') ∧ w'.slot ud = some none ∧
      (r, w'.heap) = h.joined.toLua vm w.heap := by
  have hblock : Round.within (blockOn h) 1 (w.take ud) = some (h.joined, w.take ud) := by
    rw [Round.within, blockOn, take_moment, if_pos hfinished]
  refine ⟨(h.joined.toLua vm w.heap).1, { w.take ud with heap := (h.joined.toLua vm w.heap).2 },
    ?_, ?_, rfl⟩
  · rw [await, hslot]
    dsimp only
    rw [hblock, Option.map_some, World.onHeap, take_heap]
  · have hspend := slot_spend (take_promises hslot) ud
    rw [if_pos rfl, hslot] at hspend
    exact (slot_congr rfl ud).trans hspend

theorem of_resolved (hslot : w.slot ud = some none) (n : Nat) :
    tryAwait vm texts ud w = (.error "promise already awaited or resolved".toList, w.tick) ∧
      await vm texts n ud w =
        some (.error "promise already awaited or resolved".toList, w.tick) := by
  rw [tryAwait, await, hslot]
  exact ⟨rfl, rfl⟩

/-- Over a run of waits in any order, with tasks that are spawned and time that passes between them,
the state of a promise never goes back.  Where it is ready, `await` has what the task ended with at
once; where it is resolved, `try_await` and `await` are refused. -/
theorem run_states {s : PollState} (hrun : Relation.ReflTransGen (Step vm texts) w w')
    (hs : (poll texts ud w).1 = .ok s) :
    ∃ s', (poll texts ud w').1 = .ok s' ∧ s.rank ≤ s'.rank ∧
      (s' = .ready → ∃ h r t, w'.slot ud = some (some h) ∧ await vm texts 1 ud w' = some (r, t) ∧
        (r, t.heap) = h.joined.toLua vm w'.heap ∧ (poll texts ud t).1 = .ok .resolved) ∧
      (s' = .resolved → ∀ n,
        tryAwait vm texts ud w' = (.error "promise already awaited or resolved".toList, w'.tick) ∧
          await vm texts n ud w' =
            some (.error "promise already awaited or resolved".toList, w'.tick)) := by
  obtain ⟨slot, hslot, rfl⟩ := slot_of_poll hs
  obtain ⟨slot', hslot', hrank⟩ := (run_evolves hrun).stateOf_le hslot
  refine ⟨w'.stateOf slot', poll_of_slot hslot', hrank, fun hready => ?_, fun hresolved n => ?_⟩
  · cases slot' with
    | none => cases hready
    | some h =>
      have hfinished : h.isFinished w'.moment = true := by
        by_contra hpending
        rw [World.stateOf, if_neg hpending] at hready
        cases hready
      obtain ⟨r, t, hr, hspent, hresult⟩ : ∃ r t, await vm texts 1 ud w' = some (r, t) ∧ _ :=
        await_of_ready hslot' hfinished
      exact ⟨h, r, t, hslot', hr, hresult, poll_of_slot hspent⟩
  · cases slot' with
    | none => exact of_resolved hslot' n
    | some h =>
      rw [World.stateOf] at hresolved
      split_ifs at hresolved

theorem run_states_awaitedFirst :
    ∃ s', (poll noTexts (.userdata 1) { awaitedFirst with moment := 6 }).1 = .ok s' ∧
      PollState.pending.rank ≤ s'.rank := by
  have hrun : Relation.ReflTransGen (Step noCode noTexts) awaitedFirst
      { awaitedFirst with moment := 6 } := .single (.elapse [] (Nat.zero_le 6))
  have hpoll : (poll noTexts (.userdata 1) awaitedFirst).1 = .ok .pending := rfl
  obtain ⟨s', hs', hrank, -⟩ := run_states hrun hpoll
  exact ⟨s', hs', hrank⟩

end

end Thread

end Luaml
