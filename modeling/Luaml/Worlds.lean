import Luaml.CascadeLaws
import Luaml.Lib.Script

namespace Luaml

open Rust Res

namespace Run

variable {σ τ A ι : Type} {R : ι → σ → List A → τ → Prop} {exec : Exec σ} {exec' : Exec τ}
  {inner : UInt32 → FieldMap → Run σ → Res Empty (Run σ)}
  {inner' : UInt32 → FieldMap → Run τ → Res Empty (Run τ)} {d : UInt32} {sig : EventSig}
  {run run' : Run σ}

def within (run : Run σ) (world : τ) : Run τ :=
  ⟨world, run.stats, run.ctx, run.outcomes, run.calls⟩

def PlaysEach (R : ι → σ → List A → τ → Prop) (exec : Exec σ) (exec' : Exec τ) : Prop :=
  ∀ s m, ∃ as, ∀ i rest t, R i s (as ++ rest) t →
    (exec' t m).2 = (exec s m).2 ∧ R i (exec s m).1 rest (exec' t m).1

theorem executeMatched_within {t : τ} {m : ClauseMatch}
    (hresult : (exec' t m).2 = (exec run.world m).2) :
    executeMatched exec' (run.within t) m =
      ((executeMatched exec run m).1, (executeMatched exec run m).2.1,
        (executeMatched exec run m).2.2.within (exec' t m).1) := by
  have hworld : (run.within t).world = t := rfl
  rw [executeMatched, executeMatched, hworld]
  generalize exec' t m = after' at hresult
  generalize exec run.world m = after at hresult
  obtain ⟨t', result'⟩ := after'
  obtain ⟨s', result⟩ := after
  obtain rfl : result' = result := hresult
  cases result' <;> rfl

theorem executeMatched_world_eq (run : Run σ) (m : ClauseMatch) :
    (executeMatched exec run m).2.2.world = (exec run.world m).1 := by
  rw [executeMatched]
  generalize exec run.world m = after
  obtain ⟨s', result⟩ := after
  cases result <;> rfl

theorem executeMatched_plays (hexec : PlaysEach R exec exec') (run : Run σ) (m : ClauseMatch) :
    Plays (ε := Empty) R run.world (executeMatched exec run m).2.2.world
      (fun t => .ok (executeMatched exec' (run.within t) m)) fun t =>
        ((executeMatched exec run m).1, (executeMatched exec run m).2.1,
          (executeMatched exec run m).2.2.within t) := by
  obtain ⟨as, has⟩ := hexec run.world m
  refine ⟨as, fun i rest t ht => ?_⟩
  obtain ⟨hresult, hworld⟩ := has i rest t ht
  exact ⟨_, congrArg Res.ok (executeMatched_within hresult), executeMatched_world_eq run m ▸ hworld⟩

def InnerPlays (R : ι → σ → List A → τ → Prop)
    (inner : UInt32 → FieldMap → Run σ → Res Empty (Run σ))
    (inner' : UInt32 → FieldMap → Run τ → Res Empty (Run τ)) : Prop :=
  ∀ next event run run', inner next event run = .ok run' →
    Plays R run.world run'.world (fun t => inner' next event (run.within t)) run'.within

theorem emissionLoop_plays (hinner : InnerPlays R inner inner') {emissions : List FieldMap}
    {goOn : Bool} (h : emissionLoop inner d sig emissions run = .ok (run', goOn)) :
    Plays R run.world run'.world
      (fun t => emissionLoop inner' d sig emissions (run.within t)) fun t =>
        (run'.within t, goOn) := by
  induction emissions generalizing run with
  | nil =>
    cases h
    exact .ok _ _
  | cons emission emissions ih =>
    rw [emissionLoop] at h
    split at h
    · rename_i hbudget
      obtain ⟨next, hnext, h⟩ := bind_eq_ok.mp h
      cases h
      refine ⟨[], fun i rest t ht => ⟨t, ?_, ht⟩⟩
      have hbudget' : (run.within t).ctx.budgetRemaining = 0 := hbudget
      change emissionLoop inner' d sig (emission :: emissions) (run.within t) = _
      rw [emissionLoop, if_pos hbudget', hnext]
      rfl
    · rename_i hbudget
      obtain ⟨budgetRemaining, hsub, h⟩ := bind_eq_ok.mp h
      obtain ⟨next, hnext, h⟩ := bind_eq_ok.mp h
      obtain ⟨run₁, hrun₁, h⟩ := bind_eq_ok.mp h
      have hloop : ∀ t, emissionLoop inner' d sig (emission :: emissions) (run.within t) =
          (inner' next emission ((run.takeUp budgetRemaining).within t) >>=
            emissionLoop inner' d sig emissions) := by
        intro t
        have hbudget' : ¬(run.within t).ctx.budgetRemaining = 0 := hbudget
        have hsub' : checkedSub (run.within t).ctx.budgetRemaining 1 =
          .ok (ε := Empty) budgetRemaining := hsub
        rw [emissionLoop, if_neg hbudget', hsub', ok_bind, hnext, ok_bind]
        rfl
      simp only [hloop]
      exact (hinner next emission _ _ hrun₁).bind (ih h)

theorem matchLoop_plays (hexec : PlaysEach R exec exec') (hinner : InnerPlays R inner inner')
    {ms : List ClauseMatch} (h : matchLoop exec inner d sig ms run = .ok run') :
    Plays R run.world run'.world
      (fun t => matchLoop exec' inner' d sig ms (run.within t)) run'.within := by
  induction ms generalizing run with
  | nil =>
    cases h
    exact .ok _ _
  | cons m ms ih =>
    obtain ⟨⟨run₁, goOn⟩, hrun₁, h⟩ := bind_eq_ok.mp h
    have hfirst := executeMatched_plays hexec run m
    have hloop : Plays R (executeMatched exec run m).2.2.world run₁.world
        (fun t => emissionLoop inner' d sig (executeMatched exec run m).2.1
          (((executeMatched exec run m).2.2.push d (executeMatched exec run m).1).within t))
        fun t => (run₁.within t, goOn) := emissionLoop_plays hinner hrun₁
    have hrest : Plays R run₁.world run'.world
        (fun t => if goOn then matchLoop exec' inner' d sig ms (run₁.within t)
          else .ok (run₁.within t)) run'.within := by
      dsimp only at h
      split at h
      · rename_i hgoOn
        simp only [hgoOn, if_true]
        exact ih h
      · rename_i hgoOn
        cases h
        simp only [hgoOn, Bool.false_eq_true, if_false]
        exact .ok _ _
    exact hfirst.bind (g := fun x => do
      let y ← emissionLoop inner' d sig x.2.1 (x.2.2.push d x.1)
      if y.2 then matchLoop exec' inner' d sig ms y.1 else .ok y.1) (hloop.bind hrest)

theorem dispatchBody_plays (hexec : PlaysEach R exec exec') (hinner : InnerPlays R inner inner')
    {reg : ScriptRegistry} {event : FieldMap}
    (h : dispatchBody reg exec inner d event run = .ok run') :
    Plays R run.world run'.world
      (fun t => dispatchBody reg exec' inner' d event (run.within t)) run'.within := by
  rw [dispatchBody] at h
  dsimp only at h
  split at h
  · rename_i hdepth
    cases h
    refine ⟨[], fun i rest t ht => ⟨t, ?_, ht⟩⟩
    exact if_pos hdepth
  · rename_i hdepth
    split at h
    · rename_i hvisited
      cases h
      refine ⟨[], fun i rest t ht => ⟨t, ?_, ht⟩⟩
      exact (if_neg hdepth).trans (if_pos hvisited)
    · rename_i hvisited
      obtain ⟨as, has⟩ := matchLoop_plays hexec hinner h
      refine ⟨as, fun i rest t ht => ?_⟩
      obtain ⟨t', heq, ht'⟩ := has i rest t ht
      exact ⟨t', ((if_neg hdepth).trans (if_neg hvisited)).trans heq, ht'⟩

theorem dispatchWithin_plays (hexec : PlaysEach R exec exec') (reg : ScriptRegistry) (n : Nat)
    (stack : List FieldMap) :
    InnerPlays R (dispatchWithin reg exec n stack) (dispatchWithin reg exec' n stack) := by
  induction n generalizing stack with
  | zero =>
    intro next event run run' h
    cases h
  | succ n ih =>
    intro next event run run' h
    obtain ⟨run₁, hrun₁, h⟩ := bind_eq_ok.mp h
    cases h
    let close (r : Run τ) : Res Empty (Run τ) := .ok { r with
      calls := r.calls ++ [⟨stack, event, next, run.ctx, r.ctx,
        r.outcomes.drop run.outcomes.length⟩] }
    exact (dispatchBody_plays hexec (ih _) hrun₁).bind (g := close) (.ok _ _)

end Run

open Run

theorem LuamlEngine.dispatch_plays {σ τ A ι : Type} {R : ι → σ → List A → τ → Prop} {exec : Exec σ}
    {exec' : Exec τ} (hexec : PlaysEach R exec exec') (engine : LuamlEngine) {world : σ}
    {event : FieldMap} {run : Run σ} (h : engine.dispatch exec world event = .ok run) :
    Plays R world run.world (fun t => engine.dispatch exec' t event) run.within :=
  dispatchWithin_plays hexec _ _ _ _ _ _ _ h

end Luaml
