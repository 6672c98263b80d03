import Luaml.Engine

namespace Luaml

open Rust Res

def signatures (stack : List FieldMap) : Finset EventSig := (stack.map eventSignature).toFinset

theorem signatures_cons (event : FieldMap) (stack : List FieldMap) :
    signatures (event :: stack) = insert (eventSignature event) (signatures stack) := by
  rw [signatures, List.map_cons, List.toFinset_cons, signatures]

theorem mem_signatures {sig : EventSig} {stack : List FieldMap} :
    sig ∈ signatures stack ↔ ∃ e ∈ stack, eventSignature e = sig := by
  simp [signatures]

/-- The call kept to the limits, left the visited set as it found it, and found a cycle exactly
when its event is one of the calls around it. -/
structure Call.Sound (config : CascadeConfig) (c : Call) : Prop where
  depth_le : c.depth ≤ config.maxDepth
  stack_length : c.stack.length = c.depth.toNat
  entry_visited : c.entry.visited = signatures c.stack
  exit_visited : c.exit.visited = c.entry.visited
  cycle_iff : (∃ o ∈ c.pushed, o.1 = c.depth ∧ o.2.errKind = some .cascadeCycle) ↔
    c.depth < config.maxDepth ∧ ∃ e ∈ c.stack, eventSignature e = eventSignature c.event

def MayPush (m d : UInt32) (o : UInt32 × ClauseOutcome) : Prop :=
  d ≤ o.1 ∧ (o.2.synthetic = false → o.1 < m)

/-- An outcome that the loops of a call at depth `d` may push, or a call inside them. -/
def LoopMayPush (m d : UInt32) (o : UInt32 × ClauseOutcome) : Prop :=
  MayPush m d o ∧ (o.1 = d → o.2.errKind ≠ some .cascadeCycle)

def EmissionMayPush (m d : UInt32) (o : UInt32 × ClauseOutcome) : Prop :=
  MayPush m d o ∧ (o.1 = d → o.2.errKind = some .cascadeBudget)

theorem EmissionMayPush.loop {m d : UInt32} {o : UInt32 × ClauseOutcome}
    (h : EmissionMayPush m d o) : LoopMayPush m d o :=
  ⟨h.1, fun hod => by simp [h.2 hod]⟩

theorem MayPush.emission {m d : UInt32} {o : UInt32 × ClauseOutcome} (hd : d < m)
    (h : MayPush m (d + 1) o) : EmissionMayPush m d o := by
  have hlt : d < o.1 := by
    have hle := UInt32.le_iff_toNat_le.mp h.1
    rw [toNat_succ hd] at hle
    exact UInt32.lt_iff_toNat_lt.mpr hle
  refine ⟨⟨UInt32.le_of_lt hlt, h.2⟩, fun heq => ?_⟩
  rw [heq] at hlt
  exact absurd hlt (UInt32.lt_irrefl d)

namespace Run

variable {σ : Type}

/-- From `run` to `run'` the configuration stays, and what is new in the outcomes and in the calls
is as it should be. -/
structure Progress (P : UInt32 × ClauseOutcome → Prop) (run run' : Run σ) : Prop where
  config : run'.ctx.config = run.ctx.config
  outcomes : ∃ pushed, run'.outcomes = run.outcomes ++ pushed ∧ ∀ o ∈ pushed, P o
  calls : ∃ ended, run'.calls = run.calls ++ ended ∧ ∀ c ∈ ended, c.Sound run.ctx.config

variable {P Q : UInt32 × ClauseOutcome → Prop} {run run' run'' : Run σ}

theorem Progress.of_eq (hconfig : run'.ctx.config = run.ctx.config)
    (houtcomes : run'.outcomes = run.outcomes) (hcalls : run'.calls = run.calls) :
    Progress P run run' :=
  ⟨hconfig, ⟨[], by simp [houtcomes], by simp⟩, ⟨[], by simp [hcalls], by simp⟩⟩

theorem Progress.refl (run : Run σ) : Progress P run run := .of_eq rfl rfl rfl

theorem Progress.trans (h : Progress P run run') (h' : Progress P run' run'') :
    Progress P run run'' := by
  obtain ⟨pushed, hpushed, hP⟩ := h.outcomes
  obtain ⟨pushed', hpushed', hP'⟩ := h'.outcomes
  obtain ⟨ended, hended, hS⟩ := h.calls
  obtain ⟨ended', hended', hS'⟩ := h'.calls
  refine ⟨h'.config.trans h.config, ⟨pushed ++ pushed', by simp [hpushed', hpushed], ?_⟩,
    ⟨ended ++ ended', by simp [hended', hended], ?_⟩⟩
  · intro o ho
    exact (List.mem_append.mp ho).elim (hP o) (hP' o)
  · intro c hc
    exact (List.mem_append.mp hc).elim (hS c) fun hc => h.config ▸ hS' c hc

theorem Progress.mono (hPQ : ∀ o, P o → Q o) (h : Progress P run run') : Progress Q run run' := by
  obtain ⟨pushed, hpushed, hP⟩ := h.outcomes
  exact ⟨h.config, ⟨pushed, hpushed, fun o ho => hPQ o (hP o ho)⟩, h.calls⟩

theorem Progress.push {d : UInt32} {o : ClauseOutcome} (h : P (d, o)) :
    Progress P run (run.push d o) :=
  ⟨rfl, ⟨[(d, o)], rfl, by simpa using h⟩, ⟨[], by simp [Run.push], by simp⟩⟩

def credit (run : Run σ) : Nat := run.calls.length + run.ctx.budgetRemaining.toNat

@[simp] theorem executeMatched_ctx (exec : Exec σ) (run : Run σ) (m : ClauseMatch) :
    (executeMatched exec run m).2.2.ctx = run.ctx := by
  unfold executeMatched
  split <;> rfl

@[simp] theorem executeMatched_calls (exec : Exec σ) (run : Run σ) (m : ClauseMatch) :
    (executeMatched exec run m).2.2.calls = run.calls := by
  unfold executeMatched
  split <;> rfl

theorem executeMatched_progress (exec : Exec σ) (run : Run σ) (m : ClauseMatch) :
    Progress P run (executeMatched exec run m).2.2 := by
  unfold executeMatched
  split <;> exact .of_eq rfl rfl rfl

theorem executeMatched_errKind (exec : Exec σ) (run : Run σ) (m : ClauseMatch) :
    (executeMatched exec run m).1.errKind ≠ some .cascadeCycle := by
  unfold executeMatched
  split <;> simp [ClauseOutcome.errKind]

def InnerSpec (m d : UInt32) (visited : Finset EventSig)
    (inner : UInt32 → FieldMap → Run σ → Res Empty (Run σ)) : Prop :=
  ∀ event run, run.ctx.config.maxDepth = m → run.ctx.visited = visited →
    ∃ run', inner (d + 1) event run = .ok run' ∧ Progress (MayPush m (d + 1)) run run' ∧
      run'.ctx.visited = visited ∧ credit run' = credit run + 1

variable {m d : UInt32} {visited : Finset EventSig} {sig : EventSig}
  {inner : UInt32 → FieldMap → Run σ → Res Empty (Run σ)}

theorem emissionLoop_spec (sig : EventSig) (hd : d < m) (hinner : InnerSpec m d visited inner)
    (emissions : List FieldMap) (run : Run σ) (hm : run.ctx.config.maxDepth = m)
    (hv : run.ctx.visited = visited) :
    ∃ run' goOn, emissionLoop inner d sig emissions run = .ok (run', goOn) ∧
      Progress (EmissionMayPush m d) run run' ∧
      run'.ctx.visited = (if goOn then visited else visited.erase sig) ∧
      credit run' = credit run := by
  induction emissions generalizing run with
  | nil => exact ⟨run, true, rfl, .refl run, hv, rfl⟩
  | cons emission emissions ih =>
    by_cases hbudget : run.ctx.budgetRemaining = 0
    · simp only [emissionLoop, if_pos hbudget, checkedAdd_one hd, ok_bind]
      refine ⟨_, false, rfl, (Progress.push ?_).trans (.of_eq rfl rfl rfl), ?_, rfl⟩
      · exact ⟨⟨UInt32.le_refl d, by simp [syntheticCascadeOutcome, ClauseOutcome.synthetic,
          ClauseOutcome.errKind]⟩, by simp [syntheticCascadeOutcome, ClauseOutcome.errKind]⟩
      · simp [unmarkVisited, push, hv]
    · simp only [emissionLoop, if_neg hbudget, checkedSub_one hbudget, checkedAdd_one hd, ok_bind]
      have htake : Progress (EmissionMayPush m d) run (run.takeUp (run.ctx.budgetRemaining - 1)) :=
        .of_eq rfl rfl rfl
      obtain ⟨run₁, hrun₁, hprog, hv₁, hcredit⟩ :=
        hinner emission (run.takeUp (run.ctx.budgetRemaining - 1)) hm hv
      have hm₁ : run₁.ctx.config.maxDepth = m := by rw [hprog.config]; exact hm
      obtain ⟨run', goOn, hrun', hprog', hv', hcredit'⟩ := ih run₁ hm₁ hv₁
      rw [hrun₁, ok_bind]
      refine ⟨run', goOn, hrun', ?_, hv', ?_⟩
      · exact htake.trans ((hprog.mono fun o ho => ho.emission hd).trans hprog')
      · have hpred := toNat_pred hbudget
        simp only [credit, takeUp] at hcredit hcredit' ⊢
        omega

theorem matchLoop_spec (exec : Exec σ) (hd : d < m) (hinner : InnerSpec m d visited inner)
    (ms : List ClauseMatch) (run : Run σ) (hm : run.ctx.config.maxDepth = m)
    (hv : run.ctx.visited = visited) :
    ∃ run', matchLoop exec inner d sig ms run = .ok run' ∧
      Progress (LoopMayPush m d) run run' ∧ run'.ctx.visited = visited.erase sig ∧
      credit run' = credit run := by
  induction ms generalizing run with
  | nil =>
    refine ⟨_, rfl, .of_eq rfl rfl rfl, ?_, rfl⟩
    simp [unmarkVisited, hv]
  | cons cm ms ih =>
    obtain ⟨run₁, goOn, hrun₁, hprog, hv₁, hcredit⟩ := emissionLoop_spec sig hd hinner
      (executeMatched exec run cm).2.1
      ((executeMatched exec run cm).2.2.push d (executeMatched exec run cm).1)
      (by simpa [push] using hm) (by simpa [push] using hv)
    have hpush : Progress (LoopMayPush m d) run
        ((executeMatched exec run cm).2.2.push d (executeMatched exec run cm).1) := by
      apply (executeMatched_progress exec run cm).trans
      exact .push ⟨⟨UInt32.le_refl d, fun _ => hd⟩, fun _ => executeMatched_errKind exec run cm⟩
    have hloop := hprog.mono fun o ho => ho.loop
    have hcredit₁ : credit run₁ = credit run := by
      rw [hcredit]
      simp [credit, push]
    simp only [matchLoop, hrun₁, ok_bind]
    cases goOn with
    | false => exact ⟨run₁, rfl, hpush.trans hloop, by simpa using hv₁, hcredit₁⟩
    | true =>
      have hm₁ : run₁.ctx.config.maxDepth = m := by
        rw [hprog.config]
        simpa [push] using hm
      obtain ⟨run', hrun', hprog', hv', hcredit'⟩ := ih run₁ hm₁ (by simpa using hv₁)
      exact ⟨run', hrun', (hpush.trans hloop).trans hprog', hv', hcredit'.trans hcredit₁⟩

theorem dispatchBody_spec (reg : ScriptRegistry) (exec : Exec σ) (event : FieldMap) (run : Run σ)
    (hinner : d < run.ctx.config.maxDepth → eventSignature event ∉ run.ctx.visited →
      InnerSpec run.ctx.config.maxDepth d (insert (eventSignature event) run.ctx.visited) inner) :
    ∃ run', dispatchBody reg exec inner d event run = .ok run' ∧
      Progress (MayPush run.ctx.config.maxDepth d) run run' ∧
      run'.ctx.visited = run.ctx.visited ∧ credit run' = credit run ∧
      ((∃ o ∈ run'.outcomes.drop run.outcomes.length,
          o.1 = d ∧ o.2.errKind = some .cascadeCycle) ↔
        d < run.ctx.config.maxDepth ∧ eventSignature event ∈ run.ctx.visited) := by
  have hnote : ∀ P, Progress P run (run.noteDepth d) := fun P => .of_eq rfl rfl rfl
  have hrefuse : ∀ kind text, (syntheticCascadeOutcome kind text).synthetic = true →
      Progress (MayPush run.ctx.config.maxDepth d) run
        ((run.noteDepth d).push d (syntheticCascadeOutcome kind text)) := fun kind text hk =>
    (hnote _).trans (.push ⟨UInt32.le_refl d, by simp [hk]⟩)
  by_cases hdepth : run.ctx.config.maxDepth ≤ d
  · have hd : ¬d < run.ctx.config.maxDepth := UInt32.not_lt.mpr hdepth
    rw [dispatchBody, if_pos (show (run.noteDepth d).ctx.config.maxDepth ≤ d from hdepth)]
    refine ⟨_, rfl, hrefuse _ _ rfl, rfl, rfl, ?_⟩
    simp [push, noteDepth, hd, syntheticCascadeOutcome, ClauseOutcome.errKind]
  · have hd : d < run.ctx.config.maxDepth := UInt32.not_le.mp hdepth
    rw [dispatchBody, if_neg (show ¬(run.noteDepth d).ctx.config.maxDepth ≤ d from hdepth)]
    by_cases hsig : eventSignature event ∈ run.ctx.visited
    · rw [if_pos (show eventSignature event ∈ (run.noteDepth d).ctx.visited from hsig)]
      refine ⟨_, rfl, hrefuse _ _ rfl, rfl, rfl, ?_⟩
      simp [push, noteDepth, hd, hsig, syntheticCascadeOutcome, ClauseOutcome.errKind]
    · rw [if_neg (show eventSignature event ∉ (run.noteDepth d).ctx.visited from hsig)]
      obtain ⟨run', hrun', hprog, hv', hcredit⟩ := matchLoop_spec exec hd (hinner hd hsig)
        (reg.matchClauses event)
        (((run.noteDepth d).markVisited (eventSignature event)).noteMatched
          (reg.matchClauses event).length) rfl rfl
      have hloop : Progress (LoopMayPush run.ctx.config.maxDepth d) run run' := by
        apply Progress.trans _ hprog
        exact .of_eq rfl rfl rfl
      refine ⟨run', hrun', hloop.mono fun o ho => ho.1, ?_, hcredit, ?_⟩
      · rw [hv', Finset.erase_insert hsig]
      · obtain ⟨pushed, hpushed, hP⟩ := hloop.outcomes
        rw [hpushed, List.drop_left]
        constructor
        · rintro ⟨o, ho, hod, hcycle⟩
          exact absurd hcycle ((hP o ho).2 hod)
        · exact fun h => absurd h.2 hsig

/-- A call that the bound `n` on the recursion leaves room for ends, within the limits. -/
def CallSpec (reg : ScriptRegistry) (exec : Exec σ) (n : Nat) : Prop :=
  ∀ (d : UInt32) (stack : List FieldMap) (event : FieldMap) (run : Run σ),
    run.ctx.config.maxDepth.toNat < n + d.toNat → d ≤ run.ctx.config.maxDepth →
    stack.length = d.toNat → run.ctx.visited = signatures stack →
    ∃ run', dispatchWithin reg exec n stack d event run = .ok run' ∧
      Progress (MayPush run.ctx.config.maxDepth d) run run' ∧
      run'.ctx.visited = run.ctx.visited ∧ credit run' = credit run + 1

theorem CallSpec.innerSpec {reg : ScriptRegistry} {exec : Exec σ} {n : Nat}
    (h : CallSpec reg exec n) (stack : List FieldMap) (event : FieldMap)
    (hn : m.toNat < n + 1 + d.toNat) (hd : d < m) (hstack : stack.length = d.toNat) :
    InnerSpec m d (insert (eventSignature event) (signatures stack))
      (dispatchWithin reg exec n (event :: stack)) := by
  intro e run hm hv
  have hsucc := toNat_succ hd
  have hle := UInt32.lt_iff_toNat_lt.mp hd
  obtain ⟨run', hrun', hprog, hv', hcredit⟩ := h (d + 1) (event :: stack) e run
    (by rw [hm]; omega) (by rw [hm]; exact UInt32.le_iff_toNat_le.mpr (by omega))
    (by rw [List.length_cons, hstack, hsucc]) (by rw [hv, signatures_cons])
  exact ⟨run', hrun', hm ▸ hprog, hv'.trans hv, hcredit⟩

theorem callSpec (reg : ScriptRegistry) (exec : Exec σ) (n : Nat) : CallSpec reg exec n := by
  induction n with
  | zero =>
    intro d stack event run hn hd
    have := UInt32.le_iff_toNat_le.mp hd
    omega
  | succ n ih =>
    intro d stack event run hn hd hstack hv
    obtain ⟨run', hrun', hprog, hv', hcredit, hcycle⟩ := dispatchBody_spec reg exec event run
      fun hlt _ => by rw [hv]; exact ih.innerSpec stack event hn hlt hstack
    rw [dispatchWithin, hrun', ok_bind]
    refine ⟨_, rfl, hprog.trans ⟨rfl, ⟨[], by simp, by simp⟩, ⟨_, rfl, ?_⟩⟩, hv', ?_⟩
    · rw [List.forall_mem_singleton, hprog.config]
      refine ⟨hd, hstack, hv, hv', hcycle.trans ?_⟩
      rw [hv, mem_signatures]
    · simp only [credit, List.length_append, List.length_singleton] at hcredit ⊢
      omega

theorem emissionLoop_keeps {K : Run σ → Prop}
    (hbudget : ∀ run message, K run →
      K ((run.push d (syntheticCascadeOutcome .cascadeBudget message)).unmarkVisited sig))
    (hinner : ∀ next event budget run run', inner next event (run.takeUp budget) = .ok run' →
      K run → K run') {emissions : List FieldMap} {run run' : Run σ} {goOn : Bool}
    (h : emissionLoop inner d sig emissions run = .ok (run', goOn)) (hrun : K run) : K run' := by
  induction emissions generalizing run with
  | nil =>
    obtain ⟨rfl, -⟩ := Prod.mk.inj (Res.ok.inj h)
    exact hrun
  | cons emission emissions ih =>
    rw [emissionLoop] at h
    split at h
    · obtain ⟨next, -, h⟩ := bind_eq_ok.mp h
      obtain ⟨rfl, -⟩ := Prod.mk.inj (Res.ok.inj h)
      exact hbudget run _ hrun
    · obtain ⟨budgetRemaining, -, h⟩ := bind_eq_ok.mp h
      obtain ⟨next, -, h⟩ := bind_eq_ok.mp h
      obtain ⟨run₁, hrun₁, h⟩ := bind_eq_ok.mp h
      exact ih h (hinner next emission budgetRemaining run run₁ hrun₁ hrun)

section World

variable {R : σ → σ → Prop} {exec : Exec σ}

theorem executeMatched_world (hexec : ∀ world m, R world (exec world m).1) (run : Run σ)
    (cm : ClauseMatch) : R run.world (executeMatched exec run cm).2.2.world := by
  have h := hexec run.world cm
  unfold executeMatched
  split <;> rename_i heq <;> rwa [heq] at h

theorem emissionLoop_world (hrefl : ∀ world, R world world)
    (htrans : ∀ {a b c}, R a b → R b c → R a c)
    (hinner : ∀ d event run run', inner d event run = .ok run' → R run.world run'.world)
    {emissions : List FieldMap} {run run' : Run σ} {goOn : Bool}
    (h : emissionLoop inner d sig emissions run = .ok (run', goOn)) : R run.world run'.world := by
  refine emissionLoop_keeps (K := fun r => R run.world r.world) (fun r message hr => hr) ?_ h
    (hrefl _)
  intro next event budget r r' hr' hr
  exact htrans hr (hinner next event (r.takeUp budget) r' hr')

theorem matchLoop_world (hrefl : ∀ world, R world world)
    (htrans : ∀ {a b c}, R a b → R b c → R a c) (hexec : ∀ world m, R world (exec world m).1)
    (hinner : ∀ d event run run', inner d event run = .ok run' → R run.world run'.world)
    {ms : List ClauseMatch} {run run' : Run σ}
    (h : matchLoop exec inner d sig ms run = .ok run') : R run.world run'.world := by
  induction ms generalizing run with
  | nil =>
    obtain rfl := Res.ok.inj h
    exact hrefl _
  | cons cm ms ih =>
    rw [matchLoop] at h
    obtain ⟨⟨run₁, goOn⟩, hrun₁, h⟩ := bind_eq_ok.mp h
    have hloop := emissionLoop_world hrefl htrans hinner hrun₁
    have hworld : R run.world run₁.world := htrans (executeMatched_world hexec run cm) hloop
    dsimp only at h
    split at h
    · exact htrans hworld (ih h)
    · obtain rfl := Res.ok.inj h
      exact hworld

theorem dispatchWithin_world (hrefl : ∀ world, R world world)
    (htrans : ∀ {a b c}, R a b → R b c → R a c) (hexec : ∀ world m, R world (exec world m).1)
    (reg : ScriptRegistry) (n : Nat) (stack : List FieldMap) (d : UInt32) (event : FieldMap)
    (run run' : Run σ) (h : dispatchWithin reg exec n stack d event run = .ok run') :
    R run.world run'.world := by
  induction n generalizing stack d event run run' with
  | zero => cases h
  | succ n ih =>
    obtain ⟨run₁, hrun₁, h⟩ := bind_eq_ok.mp h
    obtain rfl := Res.ok.inj h
    rw [dispatchBody] at hrun₁
    dsimp only at hrun₁
    split at hrun₁
    · obtain rfl := Res.ok.inj hrun₁
      exact hrefl _
    · split at hrun₁
      · obtain rfl := Res.ok.inj hrun₁
        exact hrefl _
      · have hworld := matchLoop_world hrefl htrans hexec (ih _) hrun₁
        exact hworld

end World

end Run

open Run

variable {σ : Type}

theorem LuamlEngine.dispatch_spec (engine : LuamlEngine) (exec : Exec σ) (world : σ)
    (event : FieldMap) :
    ∃ run, engine.dispatch exec world event = .ok run ∧
      run.calls.length + run.ctx.budgetRemaining.toNat = engine.cascadeConfig.budget.toNat + 1 ∧
      (∀ c ∈ run.calls, c.Sound engine.cascadeConfig) ∧
      ∀ o ∈ run.outcomes, o.2.synthetic = false → o.1 < engine.cascadeConfig.maxDepth := by
  obtain ⟨run, hrun, hprog, -, hcredit⟩ := callSpec engine.registry exec
    (engine.cascadeConfig.maxDepth.toNat + 1) 0 [] event (engine.start world)
    (Nat.lt_succ_self _) UInt32.zero_le rfl rfl
  obtain ⟨pushed, hpushed, hP⟩ := hprog.outcomes
  obtain ⟨ended, hended, hS⟩ := hprog.calls
  refine ⟨run, hrun, ?_, ?_, ?_⟩
  · simpa [credit, start, CascadeContext.new, Nat.add_comm] using hcredit
  · rw [hended]
    exact hS
  · rw [hpushed]
    exact fun o ho => (hP o ho).2

theorem LuamlEngine.dispatch_world {R : σ → σ → Prop} {exec : Exec σ}
    (hrefl : ∀ world, R world world) (htrans : ∀ {a b c}, R a b → R b c → R a c)
    (hexec : ∀ world m, R world (exec world m).1) {engine : LuamlEngine} {world : σ}
    {event : FieldMap} {run : Run σ} (h : engine.dispatch exec world event = .ok run) :
    R world run.world :=
  dispatchWithin_world hrefl htrans hexec _ _ _ _ _ _ _ h

/-- A dispatch returns, and keeps to its limits. -/
theorem LuamlEngine.dispatch_within_limits (engine : LuamlEngine) (exec : Exec σ) (world : σ)
    (event : FieldMap) :
    ∃ run, engine.dispatch exec world event = .ok run ∧
      run.calls.length ≤ engine.cascadeConfig.budget.toNat + 1 ∧
      (∀ c ∈ run.calls, c.depth ≤ engine.cascadeConfig.maxDepth) ∧
      ∀ o ∈ run.outcomes, o.2.synthetic = false → o.1 < engine.cascadeConfig.maxDepth := by
  obtain ⟨run, hrun, hcredit, hS, hreal⟩ := engine.dispatch_spec exec world event
  exact ⟨run, hrun, by omega, fun c hc => (hS c hc).depth_le, hreal⟩

/-- A cycle is found exactly when the event is one of the calls around. -/
theorem LuamlEngine.dispatch_cycle_iff (engine : LuamlEngine) (exec : Exec σ) (world : σ)
    (event : FieldMap) :
    ∃ run, engine.dispatch exec world event = .ok run ∧
      ∀ c ∈ run.calls,
        c.stack.length = c.depth.toNat ∧
        c.entry.visited = (c.stack.map eventSignature).toFinset ∧
        c.exit.visited = c.entry.visited ∧
        ((∃ o ∈ c.pushed, o.1 = c.depth ∧ o.2.errKind = some .cascadeCycle) ↔
          c.depth < engine.cascadeConfig.maxDepth ∧
            ∃ e ∈ c.stack, eventSignature e = eventSignature c.event) := by
  obtain ⟨run, hrun, -, hS, -⟩ := engine.dispatch_spec exec world event
  exact ⟨run, hrun, fun c hc => ⟨(hS c hc).stack_length, (hS c hc).entry_visited,
    (hS c hc).exit_visited, (hS c hc).cycle_iff⟩⟩

end Luaml
