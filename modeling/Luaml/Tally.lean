import Luaml.CascadeLaws

namespace Luaml

open Rust Res

/-- What a call adds to `matched`: the matches of its event, if it comes to look for them. -/
def CascadeContext.matched (reg : ScriptRegistry) (ctx : CascadeContext) (depth : UInt32)
    (event : FieldMap) : Nat :=
  if ctx.config.maxDepth ≤ depth ∨ eventSignature event ∈ ctx.visited then 0
  else (reg.matchClauses event).length

def Call.matched (reg : ScriptRegistry) (c : Call) : Nat := c.entry.matched reg c.depth c.event

abbrev ErrorsPerScript := List (List Component × ClauseError)

def noteOutcome (errors : ErrorsPerScript) (o : ClauseOutcome) : ErrorsPerScript :=
  match o.result with
  | .error e => if e.kind = .body then Map.insert errors o.scriptPath.components e else errors
  | .ok _ => errors

def noteOutcomes (errors : ErrorsPerScript) (outcomes : List (UInt32 × ClauseOutcome)) :
    ErrorsPerScript :=
  outcomes.foldl (fun errors o => noteOutcome errors o.2) errors

theorem noteOutcomes_append (errors : ErrorsPerScript) (os os' : List (UInt32 × ClauseOutcome)) :
    noteOutcomes errors (os ++ os') = noteOutcomes (noteOutcomes errors os) os' :=
  List.foldl_append

theorem noteOutcomes_synthetic (errors : ErrorsPerScript) {kind : ClauseErrKind}
    (hkind : kind ≠ .body) (d : UInt32) (message : Str) :
    noteOutcomes errors [(d, syntheticCascadeOutcome kind message)] = errors := by
  simp [noteOutcomes, noteOutcome, syntheticCascadeOutcome, hkind]

namespace Run

variable {σ : Type}

/-- From `run` to `run'` the statistics have gone on with the calls that have ended, each on an
event that was emitted, and with the outcomes pushed. -/
structure Tally (reg : ScriptRegistry) (ended : List Call) (pushed : List (UInt32 × ClauseOutcome))
    (run run' : Run σ) : Prop where
  calls : run'.calls = run.calls ++ ended
  outcomes : run'.outcomes = run.outcomes ++ pushed
  dispatches : run'.stats.dispatches = run.stats.dispatches
  emitted : run'.stats.cascadesEmitted = run.stats.cascadesEmitted + ended.length
  matched : run'.stats.matched = run.stats.matched + (ended.map (Call.matched reg)).sum
  depth : ∀ n, run'.stats.cascadeDepthMax ≤ n ↔
    run.stats.cascadeDepthMax ≤ n ∧ ∀ c ∈ ended, c.depth ≤ n
  errors : run'.stats.lastErrorPerScript = noteOutcomes run.stats.lastErrorPerScript pushed

variable {reg : ScriptRegistry} {run run' run'' : Run σ}

theorem Tally.refl (run : Run σ) : Tally reg [] [] run run where
  calls := (List.append_nil _).symm
  outcomes := (List.append_nil _).symm
  dispatches := rfl
  emitted := rfl
  matched := rfl
  depth n := by simp
  errors := rfl

theorem Tally.trans {ended ended' : List Call} {pushed pushed' : List (UInt32 × ClauseOutcome)}
    (h : Tally reg ended pushed run run') (h' : Tally reg ended' pushed' run' run'') :
    Tally reg (ended ++ ended') (pushed ++ pushed') run run'' where
  calls := by rw [h'.calls, h.calls, List.append_assoc]
  outcomes := by rw [h'.outcomes, h.outcomes, List.append_assoc]
  dispatches := h'.dispatches.trans h.dispatches
  emitted := by rw [h'.emitted, h.emitted, List.length_append, Nat.add_assoc]
  matched := by rw [h'.matched, h.matched, List.map_append, List.sum_append, Nat.add_assoc]
  depth n := by rw [h'.depth, h.depth, and_assoc, List.forall_mem_append]
  errors := by rw [h'.errors, h.errors, noteOutcomes_append]

def countEmission (run : Run σ) : Run σ :=
  { run with stats := { run.stats with cascadesEmitted := run.stats.cascadesEmitted + 1 } }

def Tallied (reg : ScriptRegistry) (run run' : Run σ) : Prop :=
  ∃ ended pushed, Tally reg ended pushed run run'

theorem Tallied.trans (h : Tallied reg run run') (h' : Tallied reg run' run'') :
    Tallied reg run run'' := by
  obtain ⟨ended, pushed, h⟩ := h
  obtain ⟨ended', pushed', h'⟩ := h'
  exact ⟨_, _, h.trans h'⟩

theorem Tallied.refl (run : Run σ) : Tallied reg run run := ⟨[], [], .refl run⟩

theorem max_le_iff {a b n : UInt32} : max a b ≤ n ↔ a ≤ n ∧ b ≤ n := by
  have hmax : max a b = if a ≤ b then b else a := rfl
  rw [hmax]
  simp only [UInt32.le_iff_toNat_le]
  split_ifs <;> omega

theorem executeMatched_tally (exec : Exec σ) (run : Run σ) (cm : ClauseMatch) (d : UInt32) :
    Tally reg [] [(d, (executeMatched exec run cm).1)] run
      ((executeMatched exec run cm).2.2.push d (executeMatched exec run cm).1) := by
  unfold executeMatched
  split
  · exact ⟨(List.append_nil _).symm, rfl, rfl, rfl, rfl, fun n => by simp [push], rfl⟩
  · exact ⟨(List.append_nil _).symm, rfl, rfl, rfl, rfl,
      fun n => by simp [push, EngineStats.noteError], rfl⟩

theorem exhausted_tally (run : Run σ) (d : UInt32) (sig : EventSig) (message : Str) :
    Tally reg [] [(d, syntheticCascadeOutcome .cascadeBudget message)] run
      ((run.push d (syntheticCascadeOutcome .cascadeBudget message)).unmarkVisited sig) where
  calls := (List.append_nil _).symm
  outcomes := rfl
  dispatches := rfl
  emitted := rfl
  matched := rfl
  depth n := by simp [push, unmarkVisited]
  errors := (noteOutcomes_synthetic _ (by decide) _ _).symm

variable {d : UInt32} {sig : EventSig} {exec : Exec σ}
  {inner : UInt32 → FieldMap → Run σ → Res Empty (Run σ)}

def InnerTallied (reg : ScriptRegistry)
    (inner : UInt32 → FieldMap → Run σ → Res Empty (Run σ)) : Prop :=
  ∀ next event budget run run', inner next event (run.takeUp budget) = .ok run' →
    Tallied reg run run'

theorem emissionLoop_tallied (hinner : InnerTallied reg inner) {emissions : List FieldMap}
    {run run' : Run σ} {goOn : Bool}
    (h : emissionLoop inner d sig emissions run = .ok (run', goOn)) : Tallied reg run run' := by
  refine emissionLoop_keeps (K := Tallied reg run) ?_ ?_ h (.refl run)
  · intro r message hr
    exact hr.trans ⟨_, _, exhausted_tally r d sig message⟩
  · intro next event budget r r' hr' hr
    exact hr.trans (hinner next event budget r r' hr')

theorem matchLoop_tallied (hinner : InnerTallied reg inner) {cms : List ClauseMatch}
    {run run' : Run σ} (h : matchLoop exec inner d sig cms run = .ok run') :
    Tallied reg run run' := by
  induction cms generalizing run with
  | nil =>
    obtain rfl := Res.ok.inj h
    exact ⟨[], [], ⟨(List.append_nil _).symm, (List.append_nil _).symm, rfl, rfl, rfl,
      fun n => by simp [unmarkVisited], rfl⟩⟩
  | cons cm cms ih =>
    obtain ⟨⟨run₁, goOn⟩, hrun₁, h⟩ := bind_eq_ok.mp h
    have hfirst : Tallied reg run run₁ :=
      Tallied.trans ⟨_, _, executeMatched_tally exec run cm d⟩ (emissionLoop_tallied hinner hrun₁)
    dsimp only at h
    split at h
    · exact hfirst.trans (ih h)
    · obtain rfl := Res.ok.inj h
      exact hfirst

def countCall (reg : ScriptRegistry) (d : UInt32) (event : FieldMap) (run : Run σ) : Run σ :=
  (run.noteDepth d).noteMatched (run.ctx.matched reg d event)

theorem refused_tally (run : Run σ) (d : UInt32) {kind : ClauseErrKind} (hkind : kind ≠ .body)
    (message : Str) :
    Tally reg [] [(d, syntheticCascadeOutcome kind message)] (run.noteMatched 0)
      (run.push d (syntheticCascadeOutcome kind message)) where
  calls := (List.append_nil _).symm
  outcomes := rfl
  dispatches := rfl
  emitted := rfl
  matched := rfl
  depth n := by simp [push, noteMatched]
  errors := (noteOutcomes_synthetic _ hkind _ _).symm

theorem dispatchBody_tallied (hinner : InnerTallied reg inner) {event : FieldMap}
    (h : dispatchBody reg exec inner d event run = .ok run') :
    Tallied reg (run.countCall reg d event) run' := by
  rw [dispatchBody] at h
  dsimp only at h
  split at h
  · rename_i hdepth
    obtain rfl := Res.ok.inj h
    have hown : run.ctx.matched reg d event = 0 := if_pos (.inl hdepth)
    rw [countCall, hown]
    exact ⟨_, _, refused_tally _ d (by decide) _⟩
  · rename_i hdepth
    split at h
    · rename_i hvisited
      obtain rfl := Res.ok.inj h
      have hown : run.ctx.matched reg d event = 0 := if_pos (.inr hvisited)
      rw [countCall, hown]
      exact ⟨_, _, refused_tally _ d (by decide) _⟩
    · rename_i hvisited
      have hown : run.ctx.matched reg d event = (reg.matchClauses event).length :=
        if_neg (not_or.mpr ⟨hdepth, hvisited⟩)
      obtain ⟨ended, pushed, ht⟩ := matchLoop_tallied hinner h
      rw [countCall, hown]
      exact ⟨ended, pushed, ht.calls, ht.outcomes, ht.dispatches, ht.emitted, ht.matched, ht.depth,
        ht.errors⟩

theorem Tally.close {ended : List Call} {pushed : List (UInt32 × ClauseOutcome)} {c : Call}
    (h : Tally reg ended pushed (run.countCall reg c.depth c.event) run')
    (hentry : c.entry = run.ctx) :
    Tally reg (ended ++ [c]) pushed run { run' with calls := run'.calls ++ [c] }.countEmission where
  calls := by simp [countEmission, h.calls, countCall, noteMatched, noteDepth]
  outcomes := h.outcomes
  dispatches := h.dispatches
  emitted := by simp [countEmission, h.emitted, countCall, noteMatched, noteDepth, Nat.add_assoc]
  matched := by
    have hmatched : run'.stats.matched = run.stats.matched + run.ctx.matched reg c.depth c.event +
        (ended.map (Call.matched reg)).sum := h.matched
    simp [countEmission, hmatched, Call.matched, hentry]
    omega
  depth n := by
    have hdepth : run'.stats.cascadeDepthMax ≤ n ↔ max run.stats.cascadeDepthMax c.depth ≤ n ∧
        ∀ c ∈ ended, c.depth ≤ n := h.depth n
    simp only [countEmission, hdepth, max_le_iff, List.forall_mem_append, List.forall_mem_singleton]
    tauto
  errors := h.errors

theorem dispatchWithin_tallied (reg : ScriptRegistry) (exec : Exec σ) (n : Nat)
    (stack : List FieldMap) (d : UInt32) (event : FieldMap) (run run' : Run σ)
    (h : dispatchWithin reg exec n stack d event run = .ok run') :
    Tallied reg run run'.countEmission := by
  induction n generalizing stack d event run run' with
  | zero => cases h
  | succ n ih =>
    obtain ⟨run₁, hrun₁, h⟩ := bind_eq_ok.mp h
    obtain rfl := Res.ok.inj h
    have hinner : InnerTallied reg (dispatchWithin reg exec n (event :: stack)) := by
      intro next emission budget r r' hr'
      obtain ⟨ended, pushed, ht⟩ := ih _ _ _ _ _ hr'
      have hemitted : r'.stats.cascadesEmitted + 1 = r.stats.cascadesEmitted + 1 + ended.length :=
        ht.emitted
      refine ⟨ended, pushed, ht.calls, ht.outcomes, ht.dispatches, ?_, ht.matched, ht.depth,
        ht.errors⟩
      omega
    obtain ⟨ended, pushed, ht⟩ := dispatchBody_tallied hinner hrun₁
    exact ⟨_, _, ht.close rfl⟩

end Run

open Run

variable {σ : Type}

structure LuamlEngine.Counted (engine : LuamlEngine) (run : Run σ) : Prop where
  dispatches : run.stats.dispatches = engine.stats.dispatches + 1
  matched : run.stats.matched =
    engine.stats.matched + (run.calls.map (Call.matched engine.registry)).sum
  depth : ∀ n, run.stats.cascadeDepthMax ≤ n ↔
    engine.stats.cascadeDepthMax ≤ n ∧ ∀ c ∈ run.calls, c.depth ≤ n
  emitted : run.stats.cascadesEmitted + 1 = engine.stats.cascadesEmitted + run.calls.length
  errors : run.stats.lastErrorPerScript =
    noteOutcomes engine.stats.lastErrorPerScript run.outcomes

theorem LuamlEngine.counted_of_dispatch {engine : LuamlEngine} {exec : Exec σ} {world : σ}
    {event : FieldMap} {run : Run σ} (h : engine.dispatch exec world event = .ok run) :
    engine.Counted run := by
  obtain ⟨ended, pushed, ht⟩ := dispatchWithin_tallied _ _ _ _ _ _ _ _ h
  have hcalls : run.calls = ended := ht.calls
  have houtcomes : run.outcomes = pushed := ht.outcomes
  refine ⟨ht.dispatches, ?_, ?_, ?_, ?_⟩
  · rw [hcalls]
    exact ht.matched
  · rw [hcalls]
    exact ht.depth
  · rw [hcalls]
    exact ht.emitted
  · rw [houtcomes]
    exact ht.errors

/-- A dispatch counts itself, the matches of the calls that came to look for them, the events that
were emitted and the depths of all calls, and notes the last error of each body that failed. -/
theorem LuamlEngine.dispatch_counted (engine : LuamlEngine) (exec : Exec σ) (world : σ)
    (event : FieldMap) :
    ∃ run, engine.dispatch exec world event = .ok run ∧ engine.Counted run := by
  obtain ⟨run, hrun, -⟩ := engine.dispatch_spec exec world event
  exact ⟨run, hrun, engine.counted_of_dispatch hrun⟩

end Luaml
