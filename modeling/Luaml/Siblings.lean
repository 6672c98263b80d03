import Luaml.Plain

namespace Luaml

open Rust Res

def ClauseMatch.source (m : ClauseMatch) : PathBuf × Clause × FieldBindings :=
  (m.script.sourcePath, m.clause, m.bindings)

def ClauseOutcome.source (o : ClauseOutcome) : PathBuf × Clause × FieldBindings :=
  (o.scriptPath, o.clause, o.bindings)

/-- The sources of the outcomes that a call at depth `d` pushed for executed clauses. -/
def executedAt (d : UInt32) (outcomes : List (UInt32 × ClauseOutcome)) :
    List (PathBuf × Clause × FieldBindings) :=
  (outcomes.filter fun o => o.1 == d && !o.2.synthetic).map fun o => o.2.source

theorem executedAt_append (d : UInt32) (os os' : List (UInt32 × ClauseOutcome)) :
    executedAt d (os ++ os') = executedAt d os ++ executedAt d os' := by
  simp [executedAt]

namespace Run

variable {σ : Type} {m d : UInt32} {visited : Finset EventSig} {sig : EventSig}
  {inner : UInt32 → FieldMap → Run σ → Res Empty (Run σ)}

theorem executeMatched_source (exec : Exec σ) (run : Run σ) (cm : ClauseMatch) :
    (executeMatched exec run cm).1.source = cm.source := by
  unfold executeMatched
  split <;> rfl

theorem executeMatched_outcomes (exec : Exec σ) (run : Run σ) (cm : ClauseMatch) :
    (executeMatched exec run cm).2.2.outcomes = run.outcomes := by
  unfold executeMatched
  split <;> rfl

theorem executeMatched_synthetic (exec : Exec σ) (run : Run σ) (cm : ClauseMatch) :
    (executeMatched exec run cm).1.synthetic = false := by
  unfold executeMatched
  split <;> rfl

theorem executedAt_push (exec : Exec σ) (run : Run σ) (cm : ClauseMatch) :
    executedAt d ((executeMatched exec run cm).2.2.push d (executeMatched exec run cm).1).outcomes =
      executedAt d run.outcomes ++ [cm.source] := by
  rw [push, executeMatched_outcomes, executedAt_append]
  simp [executedAt, executeMatched_synthetic, executeMatched_source]

theorem executedAt_progress {run run' : Run σ} (h : Progress (EmissionMayPush m d) run run') :
    executedAt d run'.outcomes = executedAt d run.outcomes := by
  obtain ⟨pushed, hpushed, hP⟩ := h.outcomes
  have hnone : executedAt d pushed = [] := by
    rw [executedAt, List.map_eq_nil_iff, List.filter_eq_nil_iff]
    intro o ho
    by_cases hod : o.1 = d
    · simp [ClauseOutcome.synthetic, (hP o ho).2 hod]
    · simp [hod]
  rw [hpushed, executedAt_append, hnone, List.append_nil]

theorem executedAt_emissions {exec : Exec σ} {run run' : Run σ} {cm : ClauseMatch}
    (h : Progress (EmissionMayPush m d)
      ((executeMatched exec run cm).2.2.push d (executeMatched exec run cm).1) run') :
    executedAt d run'.outcomes = executedAt d run.outcomes ++ [cm.source] := by
  rw [executedAt_progress h, executedAt_push]

end Run

namespace Plain

variable {σ : Type} {reg : ScriptRegistry} {exec : Exec σ}
  {inner : FieldMap → Plain σ → Option (Plain σ)}

/-- The execution without a budget: an event that is nested too deep is not dispatched, nor is one
that repeats an ancestor. -/
def cascade (reg : ScriptRegistry) (exec : Exec σ) :
    Nat → List FieldMap → FieldMap → Plain σ → Option (Plain σ)
  | 0, _, _, p => some p
  | n + 1, chain, event, p =>
    if eventSignature event ∈ signatures chain then some p
    else
      executeAll exec (cascade reg exec n (event :: chain)) (reg.matchClauses event)
        { p with visits := p.visits ++ [(chain, event)] }

theorem dispatchAll_total (hinner : ∀ event p, ∃ p', inner event p = some p')
    (events : List FieldMap) (p : Plain σ) : ∃ p', dispatchAll inner events p = some p' := by
  induction events generalizing p with
  | nil => exact ⟨p, rfl⟩
  | cons event events ih =>
    obtain ⟨p₁, hp₁⟩ := hinner event { p with emitted := p.emitted + 1 }
    obtain ⟨p', hp'⟩ := ih p₁
    exact ⟨p', Option.bind_eq_some_iff.mpr ⟨p₁, hp₁, hp'⟩⟩

theorem executeAll_total (hinner : ∀ event p, ∃ p', inner event p = some p')
    (ms : List ClauseMatch) (p : Plain σ) : ∃ p', executeAll exec inner ms p = some p' := by
  induction ms generalizing p with
  | nil => exact ⟨p, rfl⟩
  | cons m ms ih =>
    obtain ⟨p₁, hp₁⟩ := dispatchAll_total hinner (execute exec p m).1 (execute exec p m).2
    obtain ⟨p', hp'⟩ := ih p₁
    exact ⟨p', Option.bind_eq_some_iff.mpr ⟨p₁, hp₁, hp'⟩⟩

theorem cascade_total (n : Nat) (chain : List FieldMap) (event : FieldMap) (p : Plain σ) :
    ∃ p', cascade reg exec n chain event p = some p' := by
  induction n generalizing chain event p with
  | zero => exact ⟨p, rfl⟩
  | succ n ih =>
    rw [cascade]
    split
    · exact ⟨p, rfl⟩
    · exact executeAll_total (ih _) _ _

theorem cascade_before (n : Nat) (chain : List FieldMap) (event : FieldMap) (p p' : Plain σ)
    (h : cascade reg exec n chain event p = some p') : Before p p' := by
  induction n generalizing chain event p p' with
  | zero =>
    obtain rfl := Option.some.inj h
    exact .refl p
  | succ n ih =>
    rw [cascade] at h
    split at h
    · obtain rfl := Option.some.inj h
      exact .refl p
    · exact (before_visit p _).trans (executeAll_before (ih _) h)

theorem dispatchAll_append {events events' : List FieldMap} {p p₁ : Plain σ}
    (h : dispatchAll inner events p = some p₁) :
    dispatchAll inner (events ++ events') p = dispatchAll inner events' p₁ := by
  induction events generalizing p with
  | nil =>
    obtain rfl := Option.some.inj h
    rfl
  | cons event events ih =>
    obtain ⟨p₂, hp₂, h⟩ := Option.bind_eq_some_iff.mp h
    have hrest := ih h
    simp only [List.cons_append, dispatchAll, hp₂, Option.bind_eq_bind, Option.bind_some, hrest]

theorem emitted_dropLast_lt (hinner : ∀ event p p', inner event p = some p' → Before p p')
    {events : List FieldMap} {p p' q : Plain σ} (hne : events ≠ [])
    (h : dispatchAll inner events p = some p')
    (hq : dispatchAll inner events.dropLast p = some q) : q.emitted < p'.emitted := by
  rw [← List.dropLast_append_getLast hne, dispatchAll_append hq] at h
  obtain ⟨p₁, hp₁, h⟩ := Option.bind_eq_some_iff.mp h
  obtain rfl := Option.some.inj h
  exact (hinner _ _ _ hp₁).1

theorem executeAll_append {ms ms' : List ClauseMatch} {p p₁ : Plain σ}
    (h : executeAll exec inner ms p = some p₁) :
    executeAll exec inner (ms ++ ms') p = executeAll exec inner ms' p₁ := by
  induction ms generalizing p with
  | nil =>
    obtain rfl := Option.some.inj h
    rfl
  | cons m ms ih =>
    obtain ⟨p₂, hp₂, h⟩ := executeAll_cons h
    have hrest := ih h
    simp only [List.cons_append, executeAll, hp₂, Option.bind_eq_bind, Option.bind_some, hrest]

end Plain

namespace Run

variable {σ : Type} {limits : CascadeConfig} {d : UInt32} {visited : Finset EventSig}
  {sig : EventSig} {run run' : Run σ} {p p' : Plain σ}
  {inner : UInt32 → FieldMap → Run σ → Res Empty (Run σ)}
  {plain : FieldMap → Plain σ → Option (Plain σ)}

/-- The budget is used up, and the execution without one has emitted more. -/
structure Exhausted (limits : CascadeConfig) (run : Run σ) (p : Plain σ) : Prop where
  emitted : limits.budget.toNat < p.emitted
  budget : run.ctx.budgetRemaining = 0
  reported : ∃ o ∈ run.outcomes, o.2.errKind = some .cascadeBudget

theorem Exhausted.progress {P : UInt32 × ClauseOutcome → Prop} (h : Exhausted limits run p)
    (hprog : Progress P run run') (hcredit : credit run' = credit run) (hp : Plain.Before p p') :
    Exhausted limits run' p' where
  emitted := h.emitted.trans_le hp.1
  budget := by
    obtain ⟨ended, hended, -⟩ := hprog.calls
    have hzero := h.budget
    rw [credit, credit, hended, hzero, List.length_append, UInt32.toNat_zero] at hcredit
    exact UInt32.toNat_inj.mp (by rw [UInt32.toNat_zero]; omega)
  reported := by
    obtain ⟨pushed, hpushed, -⟩ := hprog.outcomes
    obtain ⟨o, ho, hkind⟩ := h.reported
    exact ⟨o, by rw [hpushed]; exact List.mem_append_left _ ho, hkind⟩

/-- What the recursive calls from depth `d` must do beside the execution without a budget. -/
structure InnerPaid (limits : CascadeConfig) (d : UInt32) (visited : Finset EventSig)
    (inner : UInt32 → FieldMap → Run σ → Res Empty (Run σ))
    (plain : FieldMap → Plain σ → Option (Plain σ)) : Prop where
  spec : InnerSpec limits.maxDepth d visited inner
  before : ∀ event p p', plain event p = some p' → Plain.Before p p'
  total : ∀ event p, ∃ p', plain event p = some p'
  paid : ∀ event run run' p p', Paid limits visited run p →
    inner (d + 1) event run = .ok run' → plain event p = some p' →
    Paid limits visited run' p' ∨ Exhausted limits run' p'

theorem emissionLoop_paid (hd : d < limits.maxDepth)
    (hinner : InnerPaid limits d visited inner plain) {emissions : List FieldMap} {goOn : Bool}
    (hpaid : Paid limits visited run p)
    (h : emissionLoop inner d sig emissions run = .ok (run', goOn))
    (hp : Plain.dispatchAll plain emissions p = some p') :
    goOn = true ∧ Paid limits visited run' p' ∨
      Exhausted limits run' p' ∧ (goOn = true → ∃ q,
        Plain.dispatchAll plain emissions.dropLast p = some q ∧
          q.emitted < limits.budget.toNat) := by
  induction emissions generalizing run p with
  | nil =>
    obtain ⟨rfl, rfl⟩ := Prod.mk.inj (Res.ok.inj h)
    obtain rfl := Option.some.inj hp
    exact .inl ⟨rfl, hpaid⟩
  | cons emission emissions ih =>
    obtain ⟨p₁, hp₁, hp⟩ := Option.bind_eq_some_iff.mp hp
    have hbefore₁ := (hinner.before _ _ _ hp₁).1
    have hbefore := Plain.dispatchAll_before hinner.before hp
    by_cases hbudget : run.ctx.budgetRemaining = 0
    · simp only [emissionLoop, if_pos hbudget, checkedAdd_one hd, ok_bind] at h
      obtain ⟨rfl, rfl⟩ := Prod.mk.inj (Res.ok.inj h)
      refine .inr ⟨⟨?_, hbudget, _, List.mem_append_right _ (List.mem_singleton_self _), rfl⟩,
        by simp⟩
      have hspent := hpaid.budget
      rw [hbudget, UInt32.toNat_zero, Nat.zero_add] at hspent
      exact hspent ▸ (Nat.lt_of_succ_le hbefore₁).trans_le hbefore.1
    · simp only [emissionLoop, if_neg hbudget, checkedSub_one hbudget, checkedAdd_one hd,
        ok_bind] at h
      obtain ⟨run₁, hrun₁, h⟩ := bind_eq_ok.mp h
      have htaken := hpaid.takeUp hbudget
      obtain ⟨run₂, hrun₂, hprog, hv₁, -⟩ :=
        hinner.spec emission _ (by rw [htaken.config]) htaken.visited
      obtain rfl := Res.ok.inj (hrun₁.symm.trans hrun₂)
      have hm₁ : run₁.ctx.config.maxDepth = limits.maxDepth := by
        rw [hprog.config, htaken.config]
      rcases hinner.paid _ _ _ _ _ htaken hrun₁ hp₁ with hpaid₁ | hexhausted
      · rcases ih hpaid₁ h hp with hall | ⟨hexhausted, hlast⟩
        · exact .inl hall
        · refine .inr ⟨hexhausted, fun hgoOn => ?_⟩
          cases emissions with
          | nil =>
            obtain rfl := Option.some.inj hp
            obtain ⟨rfl, -⟩ := Prod.mk.inj (Res.ok.inj h)
            exact absurd hexhausted.emitted hpaid₁.emitted_le.not_gt
          | cons emission' emissions =>
            obtain ⟨q, hq, hlt⟩ := hlast hgoOn
            exact ⟨q, Option.bind_eq_some_iff.mpr ⟨p₁, hp₁, hq⟩, hlt⟩
      · obtain ⟨run₃, goOn', hrun₃, hprog₃, -, hcredit⟩ :=
          emissionLoop_spec sig hd hinner.spec emissions run₁ hm₁ hv₁
        obtain ⟨rfl, rfl⟩ := Prod.mk.inj (Res.ok.inj (h.symm.trans hrun₃))
        refine .inr ⟨hexhausted.progress hprog₃ hcredit hbefore, fun hgoOn => ?_⟩
        -- The budget was used up below this emission, so that no other was taken up after it.
        cases emissions with
        | nil =>
          have hpos := mt UInt32.toNat_inj.mp hbudget
          have hspent := hpaid.budget
          rw [UInt32.toNat_zero] at hpos
          exact ⟨p, rfl, by omega⟩
        | cons emission' emissions =>
          simp only [emissionLoop, if_pos hexhausted.budget, checkedAdd_one hd, ok_bind] at h
          obtain ⟨-, rfl⟩ := Prod.mk.inj (Res.ok.inj h)
          cases hgoOn

theorem executeMatched_paid (sig : EventSig) (exec : Exec σ) (hd : d < limits.maxDepth)
    (hinner : InnerPaid limits d visited inner plain) (hpaid : Paid limits visited run p)
    (cm : ClauseMatch) :
    ∃ run' goOn p', emissionLoop inner d sig (executeMatched exec run cm).2.1
        ((executeMatched exec run cm).2.2.push d (executeMatched exec run cm).1) =
          .ok (run', goOn) ∧
      Plain.dispatchAll plain (Plain.execute exec p cm).1 (Plain.execute exec p cm).2 = some p' ∧
      executedAt d run'.outcomes = executedAt d run.outcomes ++ [cm.source] ∧
      run'.ctx.config.maxDepth = limits.maxDepth ∧
      run'.ctx.visited = (if goOn then visited else visited.erase sig) ∧
      (goOn = true ∧ Paid limits visited run' p' ∨
        Exhausted limits run' p' ∧ (goOn = true → ∃ q,
          Plain.dispatchAll plain (Plain.execute exec p cm).1.dropLast
              (Plain.execute exec p cm).2 = some q ∧ q.emitted < limits.budget.toNat)) := by
  obtain ⟨hemissions, hpaid₀⟩ := hpaid.execute (d := d) exec cm
  have hm₀ := congrArg CascadeConfig.maxDepth hpaid₀.config
  obtain ⟨run', goOn, hrun', hprog, hv, -⟩ := emissionLoop_spec sig hd hinner.spec
    (executeMatched exec run cm).2.1 _ hm₀ hpaid₀.visited
  obtain ⟨p', hp'⟩ := Plain.dispatchAll_total hinner.total (Plain.execute exec p cm).1
    (Plain.execute exec p cm).2
  refine ⟨run', goOn, p', hrun', hp', executedAt_emissions hprog, by rw [hprog.config, hm₀], hv, ?_⟩
  rw [hemissions] at hrun'
  exact emissionLoop_paid hd hinner hpaid₀ hrun' hp'

theorem matchLoop_paid (exec : Exec σ) (hd : d < limits.maxDepth)
    (hinner : InnerPaid limits d visited inner plain) {ms : List ClauseMatch}
    (hpaid : Paid limits visited run p) (h : matchLoop exec inner d sig ms run = .ok run')
    (hp : Plain.executeAll exec plain ms p = some p') :
    Paid limits (visited.erase sig) run' p' ∨ Exhausted limits run' p' := by
  induction ms generalizing run p with
  | nil =>
    obtain rfl := Res.ok.inj h
    obtain rfl := Option.some.inj hp
    exact .inl (hpaid.leave sig)
  | cons cm ms ih =>
    obtain ⟨run₁, goOn, p₁, hrun₁, hp₁, -, hm₁, hv₁, hloop⟩ :=
      executeMatched_paid sig exec hd hinner hpaid cm
    obtain ⟨p₂, hp₂, hp⟩ := Plain.executeAll_cons hp
    obtain rfl := Option.some.inj (hp₁.symm.trans hp₂)
    simp only [matchLoop, hrun₁, ok_bind] at h
    rcases hloop with ⟨rfl, hpaid₁⟩ | ⟨hexhausted, -⟩
    · exact ih hpaid₁ h hp
    · have hbefore := Plain.executeAll_before hinner.before hp
      cases goOn with
      | false =>
        obtain rfl := Res.ok.inj h
        exact .inr (hexhausted.progress (P := fun _ => True) (.refl _) rfl hbefore)
      | true =>
        obtain ⟨run₃, hrun₃, hprog, -, hcredit⟩ :=
          matchLoop_spec exec hd hinner.spec ms run₁ hm₁ (by simpa using hv₁)
        obtain rfl := Res.ok.inj (h.symm.trans hrun₃)
        exact .inr (hexhausted.progress hprog hcredit hbefore)

theorem dispatchWithin_paid (reg : ScriptRegistry) (exec : Exec σ) (n k : Nat) (d : UInt32)
    (chain : List FieldMap) (event : FieldMap) (run run' : Run σ) (p p' : Plain σ)
    (hn : n + d.toNat = limits.maxDepth.toNat) (hk : limits.maxDepth.toNat < k + d.toNat)
    (hchain : chain.length = d.toNat) (hpaid : Paid limits (signatures chain) run p)
    (h : dispatchWithin reg exec k chain d event run = .ok run')
    (hp : Plain.cascade reg exec n chain event p = some p') :
    Paid limits (signatures chain) run' p' ∨ Exhausted limits run' p' := by
  induction k generalizing n d chain event run run' p p' with
  | zero => cases h
  | succ k ih =>
    rw [dispatchWithin] at h
    obtain ⟨run₁, hrun₁, h⟩ := bind_eq_ok.mp h
    obtain rfl := Res.ok.inj h
    suffices hbody : Paid limits (signatures chain) run₁ p' ∨ Exhausted limits run₁ p' from
      hbody.imp (fun hpaid' => ⟨hpaid'.config, hpaid'.visited, hpaid'.budget, hpaid'.world⟩)
        fun hexhausted => ⟨hexhausted.emitted, hexhausted.budget, hexhausted.reported⟩
    have hnoted : (run.noteDepth d).ctx.config.maxDepth = limits.maxDepth := by
      rw [noteDepth, hpaid.config]
    have hvisited : (run.noteDepth d).ctx.visited = signatures chain := hpaid.visited
    rw [dispatchBody] at hrun₁
    dsimp only at hrun₁
    rw [hnoted, hvisited] at hrun₁
    cases n with
    | zero =>
      have hdeep : limits.maxDepth ≤ d := UInt32.le_iff_toNat_le.mpr (by omega)
      rw [if_pos hdeep] at hrun₁
      obtain rfl := Res.ok.inj hrun₁
      obtain rfl := Option.some.inj hp
      exact .inl ⟨hpaid.config, hpaid.visited, hpaid.budget, hpaid.world⟩
    | succ n =>
      have hd : d < limits.maxDepth := UInt32.lt_iff_toNat_lt.mpr (by omega)
      rw [if_neg (UInt32.not_le.mpr hd)] at hrun₁
      rw [Plain.cascade] at hp
      by_cases hsig : eventSignature event ∈ signatures chain
      · rw [if_pos hsig] at hrun₁ hp
        obtain rfl := Res.ok.inj hrun₁
        obtain rfl := Option.some.inj hp
        exact .inl ⟨hpaid.config, hpaid.visited, hpaid.budget, hpaid.world⟩
      · rw [if_neg hsig] at hrun₁ hp
        have hsucc := toNat_succ hd
        have hinner : InnerPaid limits d (insert (eventSignature event) (signatures chain))
            (dispatchWithin reg exec k (event :: chain))
            (Plain.cascade reg exec n (event :: chain)) := by
          refine ⟨(callSpec reg exec k).innerSpec chain event (by omega) hd hchain,
            Plain.cascade_before n _, Plain.cascade_total n _, ?_⟩
          rw [← signatures_cons]
          intro event' run₂ run₃ p₂ p₃ hpaid₂ hrun₃ hp₃
          exact ih n (d + 1) (event :: chain) event' run₂ run₃ p₂ p₃ (by omega) (by omega)
            (by rw [List.length_cons, hchain, hsucc]) hpaid₂ hrun₃ hp₃
        have hentered := hpaid.enter d (eventSignature event) (reg.matchClauses event).length
          (chain, event)
        rcases matchLoop_paid exec hd hinner hentered hrun₁ hp with hpaid' | hexhausted
        · rw [Finset.erase_insert hsig] at hpaid'
          exact .inl hpaid'
        · exact .inr hexhausted

theorem matchLoop_afforded (exec : Exec σ) (hd : d < limits.maxDepth)
    (hinner : InnerPaid limits d visited inner plain) {ms : List ClauseMatch}
    (hpaid : Paid limits visited run p) (h : matchLoop exec inner d sig ms run = .ok run')
    (hp : Plain.executeAll exec plain ms.dropLast p = some p')
    (hle : p'.emitted ≤ limits.budget.toNat) :
    executedAt d run'.outcomes = executedAt d run.outcomes ++ ms.map ClauseMatch.source := by
  induction ms generalizing run p with
  | nil =>
    obtain rfl := Res.ok.inj h
    simp [unmarkVisited]
  | cons cm ms ih =>
    obtain ⟨run₁, goOn, p₁, hrun₁, hp₁, hexecuted, -, -, hloop⟩ :=
      executeMatched_paid sig exec hd hinner hpaid cm
    simp only [matchLoop, hrun₁, ok_bind] at h
    cases ms with
    | nil =>
      have hsame : run'.outcomes = run₁.outcomes := by
        cases goOn <;>
        · obtain rfl := Res.ok.inj h
          rfl
      rw [hsame, hexecuted, List.map_singleton]
    | cons cm' ms =>
      obtain ⟨p₂, hp₂, hp⟩ := Plain.executeAll_cons hp
      obtain rfl := Option.some.inj (hp₁.symm.trans hp₂)
      have hle₁ := (Plain.executeAll_before hinner.before hp).1.trans hle
      rcases hloop with ⟨rfl, hpaid₁⟩ | ⟨hexhausted, -⟩
      · rw [ih hpaid₁ h hp, hexecuted]
        simp
      · exact absurd hexhausted.emitted hle₁.not_gt

theorem matchLoop_stranded (exec : Exec σ) (hd : d < limits.maxDepth)
    (hinner : InnerPaid limits d visited inner plain) {ms ms' : List ClauseMatch}
    {cm : ClauseMatch} {p₁ q : Plain σ} (hpaid : Paid limits visited run p)
    (h : matchLoop exec inner d sig (ms ++ cm :: ms') run = .ok run')
    (hp : Plain.executeAll exec plain ms p = some p₁) (hle : p₁.emitted ≤ limits.budget.toNat)
    (hne : (Plain.execute exec p₁ cm).1 ≠ [])
    (hq : Plain.dispatchAll plain (Plain.execute exec p₁ cm).1.dropLast
      (Plain.execute exec p₁ cm).2 = some q) (hspent : limits.budget.toNat ≤ q.emitted) :
    executedAt d run'.outcomes =
      executedAt d run.outcomes ++ (ms ++ [cm]).map ClauseMatch.source := by
  induction ms generalizing run p with
  | nil =>
    obtain rfl := Option.some.inj hp
    obtain ⟨run₁, goOn, p₂, hrun₁, hp₂, hexecuted, -, -, hloop⟩ :=
      executeMatched_paid sig exec hd hinner hpaid cm
    simp only [List.nil_append, matchLoop, hrun₁, ok_bind] at h
    have hstops : goOn = false := by
      rcases hloop with ⟨-, hpaid₂⟩ | ⟨-, hlast⟩
      · have hlt := Plain.emitted_dropLast_lt hinner.before hne hp₂ hq
        exact absurd (hspent.trans_lt hlt) hpaid₂.emitted_le.not_gt
      · cases goOn with
        | false => rfl
        | true =>
          obtain ⟨q', hq', hlt⟩ := hlast rfl
          obtain rfl := Option.some.inj (hq.symm.trans hq')
          exact absurd hlt hspent.not_gt
    subst hstops
    obtain rfl := Res.ok.inj h
    exact hexecuted
  | cons cm' ms ih =>
    obtain ⟨run₁, goOn, p₂, hrun₁, hp₂, hexecuted, -, -, hloop⟩ :=
      executeMatched_paid sig exec hd hinner hpaid cm'
    obtain ⟨p₃, hp₃, hp⟩ := Plain.executeAll_cons hp
    obtain rfl := Option.some.inj (hp₂.symm.trans hp₃)
    simp only [List.cons_append, matchLoop, hrun₁, ok_bind] at h
    have hle₂ := (Plain.executeAll_before hinner.before hp).1.trans hle
    rcases hloop with ⟨rfl, hpaid₂⟩ | ⟨hexhausted, -⟩
    · rw [ih hpaid₂ h hp, hexecuted]
      simp
    · exact absurd hexhausted.emitted hle₂.not_gt

end Run

open Run

variable {σ : Type}

namespace LuamlEngine

/-- The cascade of an event below the event that is dispatched, without a budget. -/
def cascade (engine : LuamlEngine) (exec : Exec σ) (event : FieldMap) :
    FieldMap → Plain σ → Option (Plain σ) :=
  Plain.cascade engine.registry exec (engine.cascadeConfig.maxDepth.toNat - 1) [event]

/-- The matches before the last emit no more than the budget, with all that their events lead to. -/
def Affords (engine : LuamlEngine) (exec : Exec σ) (world : σ) (event : FieldMap) : Prop :=
  ∃ p, Plain.executeAll exec (engine.cascade exec event) (engine.query event).dropLast
      (.start world) = some p ∧ p.emitted ≤ engine.cascadeConfig.budget.toNat

/-- The budget is enough for the first matches, and used up before the last event that the next one
emits, which is not the last match. -/
def Strands (engine : LuamlEngine) (exec : Exec σ) (world : σ) (event : FieldMap) : Prop :=
  ∃ ms cm ms' p q, engine.query event = ms ++ cm :: ms' ∧ ms' ≠ [] ∧
    Plain.executeAll exec (engine.cascade exec event) ms (.start world) = some p ∧
    p.emitted ≤ engine.cascadeConfig.budget.toNat ∧ (Plain.execute exec p cm).1 ≠ [] ∧
    Plain.dispatchAll (engine.cascade exec event) (Plain.execute exec p cm).1.dropLast
      (Plain.execute exec p cm).2 = some q ∧ engine.cascadeConfig.budget.toNat ≤ q.emitted

theorem dispatch_matchLoop (engine : LuamlEngine) (exec : Exec σ) (world : σ) (event : FieldMap)
    (hdepth : 1 ≤ engine.cascadeConfig.maxDepth) :
    ∃ inner run₀ run' run, engine.dispatch exec world event = .ok run ∧
      run.outcomes = run'.outcomes ∧ run₀.outcomes = [] ∧
      InnerPaid engine.cascadeConfig 0 (insert (eventSignature event) (signatures [])) inner
        (engine.cascade exec event) ∧
      Paid engine.cascadeConfig (insert (eventSignature event) (signatures [])) run₀
        (.start world) ∧
      matchLoop exec inner 0 (eventSignature event) (engine.query event) run₀ = .ok run' := by
  have hpos := UInt32.le_iff_toNat_le.mp hdepth
  rw [UInt32.toNat_one] at hpos
  have hd : (0 : UInt32) < engine.cascadeConfig.maxDepth := UInt32.lt_iff_toNat_lt.mpr hpos
  have hinner : InnerPaid engine.cascadeConfig 0 (insert (eventSignature event) (signatures []))
      (dispatchWithin engine.registry exec engine.cascadeConfig.maxDepth.toNat [event])
      (engine.cascade exec event) := by
    refine ⟨(callSpec _ exec _).innerSpec [] event (Nat.lt_succ_self _) hd rfl,
      Plain.cascade_before _ _, Plain.cascade_total _ _, ?_⟩
    rw [← signatures_cons]
    intro event' run run' p p' hpaid hrun' hp'
    exact dispatchWithin_paid _ exec _ _ _ [event] event' run run' p p'
      (show _ - 1 + 1 = _ from Nat.sub_add_cancel hpos) (Nat.lt_succ_self _) rfl hpaid hrun' hp'
  let run₀ : Run σ := (((engine.start world).noteDepth 0).markVisited
    (eventSignature event)).noteMatched (engine.query event).length
  obtain ⟨run', hrun', -⟩ := matchLoop_spec exec hd hinner.spec
    (engine.query event) run₀ rfl rfl
  have hbody : dispatchBody engine.registry exec
      (dispatchWithin engine.registry exec engine.cascadeConfig.maxDepth.toNat [event]) 0 event
      (engine.start world) = .ok run' := by
    rw [dispatchBody, if_neg (show ¬((engine.start world).noteDepth 0).ctx.config.maxDepth ≤ 0
      from UInt32.not_le.mpr hd), if_neg (by simp [start, noteDepth, CascadeContext.new])]
    exact hrun'
  have hdispatch : engine.dispatch exec world event = .ok { run' with calls := run'.calls ++
      [⟨[], event, 0, (engine.start world).ctx, run'.ctx, run'.outcomes⟩] } := by
    rw [dispatch, dispatchWithin, hbody, ok_bind]
    rfl
  exact ⟨_, run₀, run', _, hdispatch, rfl, rfl, hinner, ⟨rfl, rfl, rfl, rfl⟩, hrun'⟩

/-- The matches are executed, each once and in order, when the budget is enough for all but the
last; and not when it is used up before the last event of a match that others follow.  Between the
two it is used up below that last event. -/
theorem dispatch_executes (engine : LuamlEngine) (exec : Exec σ) (world : σ) (event : FieldMap)
    (hdepth : 1 ≤ engine.cascadeConfig.maxDepth) :
    ∃ run, engine.dispatch exec world event = .ok run ∧
      (engine.Affords exec world event →
        executedAt 0 run.outcomes = (engine.query event).map ClauseMatch.source) ∧
      (engine.Strands exec world event →
        executedAt 0 run.outcomes ≠ (engine.query event).map ClauseMatch.source) ∧
      (¬engine.Affords exec world event →
        ∃ o ∈ run.outcomes, o.2.errKind = some .cascadeBudget) := by
  have hd : (0 : UInt32) < engine.cascadeConfig.maxDepth :=
    UInt32.lt_iff_toNat_lt.mpr (UInt32.le_iff_toNat_le.mp hdepth)
  obtain ⟨inner, run₀, run', run, hrun, hsame, hnone, hinner, hpaid, hloop⟩ :=
    engine.dispatch_matchLoop exec world event hdepth
  refine ⟨run, hrun, ?_, ?_, ?_⟩
  · rintro ⟨p, hp, hle⟩
    have hexecuted := matchLoop_afforded exec hd hinner hpaid hloop hp hle
    rwa [hnone, ← hsame] at hexecuted
  · rintro ⟨ms, cm, ms', p, q, hquery, hmore, hp, hle, hne, hq, hspent⟩ heq
    rw [hquery] at hloop
    have hexecuted := matchLoop_stranded exec hd hinner hpaid hloop hp hle hne hq hspent
    rw [hnone, ← hsame, heq, hquery] at hexecuted
    rw [executedAt, List.filter_nil, List.map_nil, List.nil_append] at hexecuted
    have hlength := congrArg List.length hexecuted
    have hpos := List.length_pos_iff.mpr hmore
    simp only [List.length_map, List.length_append, List.length_cons, List.length_nil] at hlength
    omega
  · intro hnot
    have htotal (ms : List ClauseMatch) :
        ∃ p, Plain.executeAll exec (engine.cascade exec event) ms (.start world) = some p :=
      Plain.executeAll_total hinner.total ms (.start world)
    obtain ⟨p, hp⟩ := htotal (engine.query event).dropLast
    have hover : engine.cascadeConfig.budget.toNat < p.emitted :=
      Nat.lt_of_not_le fun hle => hnot ⟨p, hp, hle⟩
    obtain ⟨p', hp'⟩ := htotal (engine.query event)
    rcases List.eq_nil_or_concat (engine.query event) with hnil | ⟨ms, cm, hquery⟩
    · rw [hnil] at hp
      obtain rfl := Option.some.inj hp
      cases hover
    · have hall := hp'
      rw [hquery, List.concat_eq_append] at hp hall
      rw [List.dropLast_concat] at hp
      rw [Plain.executeAll_append hp] at hall
      rcases matchLoop_paid exec hd hinner hpaid hloop hp' with hpaid' | hexhausted
      · have hmore := (Plain.executeAll_before hinner.before hall).1
        exact absurd (hover.trans_le hmore) hpaid'.emitted_le.not_gt
      · rw [hsame]
        exact hexhausted.reported

end LuamlEngine

def twoScripts (budget : UInt32) : LuamlEngine where
  registry := ⟨[⟨⟨"a".toList⟩, none, [syntheticClause]⟩, ⟨⟨"b".toList⟩, none, [syntheticClause]⟩]⟩
  roots := []
  cascadeConfig := ⟨1, budget⟩
  stats := .zero

theorem twoScripts_executed :
    ∃ run, (twoScripts 1).dispatch (fun _ _ => ((), .ok [[]])) () [] = .ok run ∧
      executedAt 0 run.outcomes = ((twoScripts 1).query []).map ClauseMatch.source := by
  obtain ⟨run, hrun, hafforded, -⟩ := (twoScripts 1).dispatch_executes
    (fun _ _ => ((), .ok [[]])) () [] (by decide)
  exact ⟨run, hrun, hafforded ⟨_, rfl, by decide⟩⟩

/-- Without a budget, an event emitted by the first match keeps the second from being executed. -/
theorem dispatch_skips_sibling :
    ¬∀ (engine : LuamlEngine) (exec : Exec Unit) (event : FieldMap),
      1 ≤ engine.cascadeConfig.maxDepth →
        ∃ run, engine.dispatch exec () event = .ok run ∧
          executedAt 0 run.outcomes = (engine.query event).map ClauseMatch.source := by
  intro h
  obtain ⟨run, hrun, hall⟩ := h (twoScripts 0) (fun _ _ => ((), .ok [[]])) [] (by decide)
  have hone : ((twoScripts 0).dispatch (fun _ _ => ((), .ok [[]])) () []).toOption.map
      (fun run => (executedAt 0 run.outcomes).length) = some 1 := by decide +kernel
  rw [hrun] at hone
  have htwo := (Option.some.inj hone).symm.trans (congrArg List.length hall)
  exact absurd htwo (by decide)

end Luaml
