import Luaml.Awaiting

namespace Luaml

open Rust Lua

namespace Thread

section

variable {H : Type} (vm : Vm H) {texts : Texts} {w w' t : World H} {ud value : LuaValue}
  {values uds : List LuaValue} {i n : Nat} {r : Except Str LuaValue}

structure Refuses (values : List LuaValue) (r : Except Str LuaValue) (w w' : World H) : Prop where
  promises : w'.promises = w.promises
  heap : w'.heap = w.heap
  error : ∃ e, r = .error e
  entry : ∃ v ∈ values, w.slot v = none

/-- A promise of which the task has finished is resolved and delivered with its place, and none
before it was ready. -/
structure Wins (i : Nat) (values : List LuaValue) (r : Except Str LuaValue) (w w' : World H) : Prop
    where
  place : ∃ before v after h, values = before ++ v :: after ∧ (∀ u ∈ before, w.Unready u) ∧
    w.slot v = some (some h) ∧ h.isFinished w'.moment = true ∧
      w'.promises = spend w.promises v ∧
        (h.joined.toLua vm >>= waited vm (i + before.length)) w.heap = (r, w'.heap)

variable {vm}

theorem unready_of_later (hpromises : w'.promises = w.promises) (hmoment : w.moment ≤ w'.moment)
    (hunready : w'.Unready ud) : w.Unready ud := by
  obtain ⟨slot, hslot, hpending⟩ := hunready
  refine ⟨slot, (slot_congr hpromises ud).symm.trans hslot, fun h heq => ?_⟩
  rw [Bool.eq_false_iff]
  intro hfinished
  exact absurd (hpending h heq) (by simpa using h.stays _ _ hmoment hfinished)

theorem Wins.earlier (hwins : Wins vm i values r t w') (hpromises : t.promises = w.promises)
    (hheap : t.heap = w.heap) (hmoment : w.moment ≤ t.moment) : Wins vm i values r w w' := by
  obtain ⟨before, v, after, h, hvalues, hbefore, hslot, hfinished, hspend, hresult⟩ := hwins.place
  rw [hpromises] at hspend
  rw [hheap] at hresult
  exact ⟨before, v, after, h, hvalues,
    fun u hu => unready_of_later hpromises hmoment (hbefore u hu),
    (slot_congr hpromises v).symm.trans hslot, hfinished, hspend, hresult⟩

theorem Refuses.earlier (hrefuses : Refuses values r t w') (hpromises : t.promises = w.promises)
    (hheap : t.heap = w.heap) : Refuses values r w w' where
  promises := hrefuses.promises.trans hpromises
  heap := hrefuses.heap.trans hheap
  error := hrefuses.error
  entry := by
    obtain ⟨v, hv, hslot⟩ := hrefuses.entry
    exact ⟨v, hv, (slot_congr hpromises v).symm.trans hslot⟩

theorem tryAwait_of_ok {h : Task} {value : FieldValue} {heap : Heap H}
    (hslot : w.slot ud = some (some h)) (hfinished : h.isFinished w.moment = true)
    (hjoined : h.joined = .ok value) (hvalue : fieldValueToLua vm value w.heap = (r, heap)) :
    tryAwait vm texts ud w =
      (r.map fun v => (.boolean true, v), { (w.take ud).tick with heap }) := by
  have hheap : (w.take ud).tick.heap = w.heap := take_heap w ud
  rw [tryAwait, hslot]
  dsimp only
  rw [hfinished, if_neg (by simp), hjoined]
  refine onHeap_eq ?_
  change LuaM.bind (fieldValueToLua vm value) _ _ = _
  rw [LuaM.bind, hheap, hvalue]
  cases r <;> rfl

theorem poll_of_finished {h : Task} (hslot : w.slot ud = some (some h))
    (hfinished : h.isFinished w.moment = true) : poll texts ud w = (.ok .ready, w.tick) := by
  rw [poll, hslot]
  dsimp only
  rw [if_pos hfinished]

theorem sweep_of_finished {h : Task} (hslot : w.slot ud = some (some h))
    (hfinished : h.isFinished w.moment = true)
    (hsweep : sweep vm texts i (ud :: uds) w = .ends r w') :
    w.moment ≤ w'.moment ∧ w'.promises = spend w.promises ud ∧
      (h.joined.toLua vm >>= waited vm i) w.heap = (r, w'.heap) := by
  have hslot' : w.tick.slot ud = some (some h) := (w.tick_slot ud).trans hslot
  have hstays := h.stays _ _ (Nat.le_succ w.moment) hfinished
  have hmoment : w.moment ≤ (w.tick.take ud).tick.moment := by
    rw [World.tick_moment, take_moment, World.tick_moment]
    exact Nat.le_add_right w.moment 2
  have hspend : (w.tick.take ud).tick.promises = spend w.promises ud := take_promises hslot'
  have hheap : (w.tick.take ud).tick.heap = w.heap := take_heap w.tick ud
  rw [sweep, poll_of_finished hslot hfinished] at hsweep
  dsimp only at hsweep
  cases hjoined : h.joined with
  | err message =>
    rw [tryAwait, hslot'] at hsweep
    dsimp only at hsweep
    rw [World.tick_moment, hstays, if_neg (by simp), hjoined] at hsweep
    cases hsweep
    exact ⟨hmoment, hspend, congrArg (Prod.mk _) hheap.symm⟩
  | joinError text =>
    rw [tryAwait, hslot'] at hsweep
    dsimp only at hsweep
    rw [World.tick_moment, hstays, if_neg (by simp), hjoined] at hsweep
    cases hsweep
    exact ⟨hmoment, hspend, congrArg (Prod.mk _) hheap.symm⟩
  | ok value =>
    change _ ∧ _ ∧ LuaM.bind (fieldValueToLua vm value) (waited vm i) w.heap = _
    rw [LuaM.bind]
    rcases hvalue : fieldValueToLua vm value w.heap with ⟨e | v, heap⟩
    · rw [tryAwait_of_ok hslot' hstays hjoined hvalue] at hsweep
      cases hsweep
      exact ⟨hmoment, hspend, rfl⟩
    · rw [tryAwait_of_ok hslot' hstays hjoined hvalue] at hsweep
      cases hsweep
      exact ⟨hmoment, hspend, rfl⟩

theorem sweep_ends (hsweep : sweep vm texts i uds w = .ends r w') :
    w.moment ≤ w'.moment ∧ (Refuses uds r w w' ∨ Wins vm i uds r w w') := by
  induction uds generalizing i w with
  | nil => cases hsweep
  | cons ud uds ih =>
    by_cases hunready : w.Unready ud
    · rw [sweep_of_unready vm texts hunready] at hsweep
      obtain ⟨hmoment, hends⟩ := ih hsweep
      refine ⟨Nat.le_of_succ_le hmoment, hends.imp (fun hrefuses => ?_) fun hwins => ?_⟩
      · obtain ⟨v, hv, hslot⟩ := hrefuses.entry
        exact ⟨hrefuses.promises, hrefuses.heap, hrefuses.error, v, List.mem_cons_of_mem _ hv,
          (w.tick_slot v).symm.trans hslot⟩
      · obtain ⟨before, v, after, h, rfl, hbefore, hslot, hfinished, hspend, hresult⟩ := hwins.place
        rw [Nat.add_right_comm] at hresult
        refine ⟨ud :: before, v, after, h, rfl, List.forall_mem_cons.mpr ⟨hunready, ?_⟩,
          (w.tick_slot v).symm.trans hslot, hfinished, hspend, hresult⟩
        exact fun u hu => unready_of_tick (hbefore u hu)
    · rcases hslot : w.slot ud with _ | _ | h
      · rw [sweep, poll, hslot] at hsweep
        cases hsweep
        exact ⟨Nat.le_succ _, .inl ⟨rfl, rfl, ⟨_, rfl⟩, ud, List.mem_cons_self, hslot⟩⟩
      · exact absurd (unready_of_resolved hslot) hunready
      · have hfinished : h.isFinished w.moment = true := by
          by_contra hpending
          refine hunready ⟨some h, hslot, fun g heq => ?_⟩
          rw [← Option.some.inj heq]
          exact Bool.eq_false_iff.mpr hpending
        obtain ⟨hmoment, hspend, hresult⟩ := sweep_of_finished hslot hfinished hsweep
        refine ⟨hmoment, .inr ⟨[], ud, uds, h, rfl, by simp, hslot, ?_, hspend, hresult⟩⟩
        exact h.stays _ _ hmoment hfinished

theorem sweep_goesOn_heap (hsweep : sweep vm texts i uds w = .goesOn w') : w'.heap = w.heap := by
  induction uds generalizing i w with
  | nil =>
    cases hsweep
    rfl
  | cons ud uds ih =>
    by_cases hunready : w.Unready ud
    · rw [sweep_of_unready vm texts hunready] at hsweep
      exact (ih hsweep).trans rfl
    · obtain ⟨_, _, hends⟩ := sweep_of_ready vm texts uds i hunready
      cases hends.symm.trans hsweep

theorem waitRound_ends (hround : waitRound vm texts uds w = .ends r w') :
    sweep vm texts 0 uds w = .ends r w' := by
  rw [waitRound] at hround
  split at hround
  · cases hround
    assumption
  · cases hround

theorem entries_error {e : Str} (herr : entries i values = .error e) :
    ∃ v ∈ values, w.slot v = none := by
  induction values generalizing i e with
  | nil => cases herr
  | cons value values ih =>
    rw [entries] at herr
    cases huserdata : promiseUserdata value "thread.wait_any".toList (i + 1) with
    | error e =>
      refine ⟨value, List.mem_cons_self, ?_⟩
      cases value with
      | userdata q => cases huserdata
      | _ => rfl
    | ok ud =>
      rw [huserdata] at herr
      cases hrest : entries (i + 1) values with
      | error e =>
        obtain ⟨v, hv, hslot⟩ := ih hrest
        exact ⟨v, List.mem_cons_of_mem _ hv, hslot⟩
      | ok uds =>
        rw [hrest] at herr
        cases herr

theorem entries_ok (hok : entries i values = .ok uds) : uds = values := by
  induction values generalizing i uds with
  | nil =>
    cases hok
    rfl
  | cons value values ih =>
    rw [entries] at hok
    cases huserdata : promiseUserdata value "thread.wait_any".toList (i + 1) with
    | error e =>
      rw [huserdata] at hok
      cases hok
    | ok ud =>
      rw [huserdata] at hok
      cases hrest : entries (i + 1) values with
      | error e =>
        rw [hrest] at hok
        cases hok
      | ok rest =>
        rw [hrest] at hok
        cases hok
        rw [promiseUserdata_ok huserdata, ih hrest]

theorem waitAny_spec (hr : waitAny vm texts values n w = some (r, w')) :
    (values = [] ∧ w' = w ∧ ∃ e, r = .error e) ∨
      w.moment ≤ w'.moment ∧ (Refuses values r w w' ∨ Wins vm 0 values r w w') := by
  rw [waitAny] at hr
  split at hr
  · rename_i e herr
    cases hr
    exact .inr ⟨Nat.le_refl _, .inl ⟨rfl, rfl, ⟨e, rfl⟩, entries_error herr⟩⟩
  · rename_i hempty
    cases hr
    exact .inl ⟨(entries_ok hempty).symm, rfl, _, rfl⟩
  · rename_i uds _ hok
    obtain rfl := entries_ok hok
    refine .inr (Round.within_some
      (P := fun t => t.promises = w.promises ∧ t.heap = w.heap ∧ w.moment ≤ t.moment)
      (Q := fun r w' => w.moment ≤ w'.moment ∧ (Refuses uds r w w' ∨ Wins vm 0 uds r w w'))
      ?_ ?_ ⟨rfl, rfl, Nat.le_refl _⟩ hr)
    · rintro s s' ⟨hpromises, hheap, hmoment⟩ hround
      obtain ⟨t, hsweep, rfl⟩ := waitRound_goesOn hround
      obtain ⟨hsame, hlater, -⟩ := sweep_goesOn vm texts hsweep
      exact ⟨hsame.trans hpromises, (sweep_goesOn_heap hsweep).trans hheap,
        Nat.le_succ_of_le (hmoment.trans hlater)⟩
    · rintro s r w' ⟨hpromises, hheap, hmoment⟩ hround
      obtain ⟨hlater, hends⟩ := sweep_ends (waitRound_ends hround)
      exact ⟨hmoment.trans hlater, hends.imp (·.earlier hpromises hheap)
        (·.earlier hpromises hheap hmoment)⟩

/-- Where the task of a promise in the list finishes, `wait_any` ends: it has resolved one promise
and delivered what its task ended with, with its place in the list, and no task before it had
finished when the wait began. -/
theorem waitAny_first (hpromises : ∀ v ∈ values, (w.slot v).isSome) (hvalue : value ∈ values)
    {h : Task} (hslot : w.slot value = some (some h)) {m : Nat} (hm : h.isFinished m = true) :
    (∃ n r, waitAny vm texts values n w = some r) ∧
      ∀ n r w', waitAny vm texts values n w = some (r, w') →
        ∃ before v after h, values = before ++ v :: after ∧ (∀ u ∈ before, w.Unready u) ∧
          w.slot v = some (some h) ∧ h.isFinished w'.moment = true ∧
            w'.promises = spend w.promises v ∧
              (h.joined.toLua vm >>= waited vm before.length) w.heap = (r, w'.heap) := by
  refine ⟨waitAny_of_pending hpromises hvalue hslot hm, fun n r w' hr => ?_⟩
  rcases waitAny_spec hr with ⟨rfl, -, -⟩ | ⟨-, hrefuses | hwins⟩
  · cases hvalue
  · obtain ⟨v, hv, hnone⟩ := hrefuses.entry
    have hsome := hpromises v hv
    rw [hnone] at hsome
    cases hsome
  · obtain ⟨before, hplace⟩ := hwins.place
    rw [Nat.zero_add] at hplace
    exact ⟨before, hplace⟩

theorem waitAny_first_awaitedFirst :
    ∃ n r w', waitAny noCode noTexts [.userdata 0, .userdata 1] n awaitedFirst = some (r, w') ∧
      w'.slot (.userdata 1) = some none := by
  obtain ⟨⟨n, ⟨r, w'⟩, hr⟩, hall⟩ : (∃ n r, waitAny noCode noTexts
      [.userdata 0, .userdata 1] n awaitedFirst = some r) ∧ _ :=
    waitAny_first (by simp [awaitedFirst, World.slot])
      (List.mem_cons_of_mem _ List.mem_cons_self) rfl (m := 5) rfl
  obtain ⟨before, v, after, h, hvalues, -, hslot, -, hspend, -⟩ := hall n r w' hr
  have hv : v ∈ [LuaValue.userdata 0, .userdata 1] := hvalues ▸ List.mem_append_right _ (by simp)
  simp only [List.mem_cons, List.not_mem_nil, or_false] at hv
  rcases hv with rfl | rfl
  · cases hslot
  · exact ⟨n, r, w', hr, congrFun hspend 1⟩

end

end Thread

end Luaml
