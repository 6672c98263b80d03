import Luaml.Siblings
import Luaml.Plain

namespace Luaml

open Rust Res

namespace Run

variable {σ : Type}

def Clean (run : Run σ) : Prop := ∀ o ∈ run.outcomes, o.2.errKind = none

theorem Clean.of_progress {P : UInt32 × ClauseOutcome → Prop} {run run' : Run σ}
    (h : Progress P run run') (hclean : run'.Clean) : run.Clean := by
  obtain ⟨pushed, hpushed, -⟩ := h.outcomes
  intro o ho
  apply hclean o
  rw [hpushed]
  exact List.mem_append_left _ ho

theorem not_clean_push (run : Run σ) (d : UInt32) (kind : ClauseErrKind) (message : Str) :
    ¬(run.push d (syntheticCascadeOutcome kind message)).Clean := by
  intro hclean
  have hnone := hclean (d, syntheticCascadeOutcome kind message) (by simp [push])
  simp [syntheticCascadeOutcome, ClauseOutcome.errKind] at hnone

variable {limits : CascadeConfig} {visited : Finset EventSig} {sig : EventSig} {d : UInt32}
  {run run' : Run σ} {p : Plain σ} {inner : UInt32 → FieldMap → Run σ → Res Empty (Run σ)}
  {plain : FieldMap → Plain σ → Option (Plain σ)}

def InnerPlain (limits : CascadeConfig) (d : UInt32) (visited : Finset EventSig)
    (inner : UInt32 → FieldMap → Run σ → Res Empty (Run σ))
    (plain : FieldMap → Plain σ → Option (Plain σ)) : Prop :=
  ∀ event run run' p, Sim limits visited run p → p.Stays limits →
    inner (d + 1) event run = .ok run' → run'.Clean →
      ∃ p', plain event p = some p' ∧ Sim limits visited run' p' ∧ p'.Stays limits

theorem emissionLoop_plain (sig : EventSig) (hd : d < limits.maxDepth)
    (hspec : InnerSpec limits.maxDepth d visited inner)
    (hinner : InnerPlain limits d visited inner plain) {emissions : List FieldMap} {goOn : Bool}
    (hsim : Sim limits visited run p) (hstays : p.Stays limits)
    (h : emissionLoop inner d sig emissions run = .ok (run', goOn)) (hclean : run'.Clean) :
    goOn = true ∧ ∃ p', Plain.dispatchAll plain emissions p = some p' ∧
      Sim limits visited run' p' ∧ p'.Stays limits := by
  induction emissions generalizing run p with
  | nil =>
    obtain ⟨rfl, rfl⟩ := Prod.mk.inj (Res.ok.inj h)
    exact ⟨rfl, p, rfl, hsim, hstays⟩
  | cons emission emissions ih =>
    by_cases hbudget : run.ctx.budgetRemaining = 0
    · simp only [emissionLoop, if_pos hbudget, checkedAdd_one hd, ok_bind] at h
      obtain ⟨rfl, -⟩ := Prod.mk.inj (Res.ok.inj h)
      exact absurd hclean (not_clean_push _ _ _ _)
    · simp only [emissionLoop, if_neg hbudget, checkedSub_one hbudget, checkedAdd_one hd,
        ok_bind] at h
      obtain ⟨run₁, hrun₁, h⟩ := bind_eq_ok.mp h
      have htaken := hsim.takeUp hbudget
      have hpaid : Plain.Stays limits { p with emitted := p.emitted + 1 } :=
        ⟨by have hbudget' := htaken.budget; omega, hstays.depth, hstays.fresh⟩
      -- What the rest of the loop adds to `run₁` is no error, nor is what it finds there.
      obtain ⟨run₂, hrun₂, hprog, hv, -⟩ := hspec emission _ (by rw [htaken.config]) htaken.visited
      obtain rfl := Res.ok.inj (hrun₁.symm.trans hrun₂)
      have hm : run₁.ctx.config.maxDepth = limits.maxDepth := by
        rw [hprog.config, htaken.config]
      obtain ⟨run₃, goOn', hrun₃, hprog', -⟩ := emissionLoop_spec sig hd hspec emissions run₁ hm hv
      obtain ⟨rfl, -⟩ := Prod.mk.inj (Res.ok.inj (h.symm.trans hrun₃))
      obtain ⟨p₁, hp₁, hsim₁, hstays₁⟩ :=
        hinner emission _ _ _ htaken hpaid hrun₁ (hclean.of_progress hprog')
      obtain ⟨hgoOn, p', hp', hsim', hstays'⟩ := ih hsim₁ hstays₁ h
      refine ⟨hgoOn, p', ?_, hsim', hstays'⟩
      rw [Plain.dispatchAll, hp₁]
      exact hp'

theorem matchLoop_plain (sig : EventSig) (exec : Exec σ) (hd : d < limits.maxDepth)
    (hspec : InnerSpec limits.maxDepth d visited inner)
    (hinner : InnerPlain limits d visited inner plain) {ms : List ClauseMatch}
    (hsim : Sim limits visited run p) (hstays : p.Stays limits)
    (h : matchLoop exec inner d sig ms run = .ok run') (hclean : run'.Clean) :
    ∃ p', Plain.executeAll exec plain ms p = some p' ∧
      Sim limits (visited.erase sig) run' p' ∧ p'.Stays limits := by
  induction ms generalizing run p with
  | nil =>
    obtain rfl := Res.ok.inj h
    exact ⟨p, rfl, ⟨hsim.toPaid.leave sig, hsim.outcomes, hsim.executed⟩, hstays⟩
  | cons m ms ih =>
    obtain ⟨hemissions, hsim₀⟩ := hsim.execute (d := d) exec m
    have hstays₀ : (Plain.execute exec p m).2.Stays limits := by
      unfold Plain.execute
      split <;> exact ⟨hstays.emitted, hstays.depth, hstays.fresh⟩
    rw [matchLoop] at h
    obtain ⟨⟨run₁, goOn⟩, hrun₁, h⟩ := bind_eq_ok.mp h
    have hm₀ := congrArg CascadeConfig.maxDepth hsim₀.config
    obtain ⟨run₂, goOn₂, hrun₂, hprog, hv, -⟩ :=
      emissionLoop_spec sig hd hspec (executeMatched exec run m).2.1 _ hm₀ hsim₀.visited
    obtain ⟨rfl, rfl⟩ := Prod.mk.inj (Res.ok.inj (hrun₁.symm.trans hrun₂))
    have hclean₁ : run₁.Clean := by
      cases goOn with
      | false =>
        obtain rfl := Res.ok.inj h
        exact hclean
      | true =>
        have hm₁ : run₁.ctx.config.maxDepth = limits.maxDepth := by rw [hprog.config, hm₀]
        have hv₁ : run₁.ctx.visited = visited := by simpa using hv
        obtain ⟨run₃, hrun₃, hprog', -⟩ := matchLoop_spec exec hd hspec ms run₁ hm₁ hv₁
        obtain rfl := Res.ok.inj (h.symm.trans hrun₃)
        exact hclean.of_progress hprog'
    obtain ⟨rfl, p₁, hp₁, hsim₁, hstays₁⟩ :=
      emissionLoop_plain sig hd hspec hinner hsim₀ hstays₀ hrun₁ hclean₁
    obtain ⟨p', hp', hsim', hstays'⟩ := ih hsim₁ hstays₁ h
    have hemitted : Plain.dispatchAll plain (Plain.execute exec p m).1 (Plain.execute exec p m).2 =
        some p₁ := by
      rw [← hemissions]
      exact hp₁
    refine ⟨p', ?_, hsim', hstays'⟩
    rw [Plain.executeAll]
    exact Option.bind_eq_some_iff.mpr ⟨p₁, hemitted, hp'⟩

theorem dispatchWithin_plain (reg : ScriptRegistry) (exec : Exec σ) (k : Nat) (d : UInt32)
    (chain : List FieldMap) (event : FieldMap) (run run' : Run σ) (p : Plain σ)
    (hk : limits.maxDepth.toNat < k + d.toNat) (hchain : chain.length = d.toNat)
    (hsim : Sim limits (signatures chain) run p) (hstays : p.Stays limits)
    (h : dispatchWithin reg exec k chain d event run = .ok run') (hclean : run'.Clean) :
    ∃ p', Plain.within reg exec k chain event p = some p' ∧
      Sim limits (signatures chain) run' p' ∧ p'.Stays limits := by
  induction k generalizing d chain event run run' p with
  | zero => cases h
  | succ k ih =>
    rw [dispatchWithin] at h
    obtain ⟨run₁, hrun₁, h⟩ := bind_eq_ok.mp h
    obtain rfl := Res.ok.inj h
    have hclean₁ : run₁.Clean := hclean
    rw [dispatchBody] at hrun₁
    dsimp only at hrun₁
    split at hrun₁
    · obtain rfl := Res.ok.inj hrun₁
      exact absurd hclean₁ (not_clean_push _ _ _ _)
    · rename_i hdeep
      split at hrun₁
      · obtain rfl := Res.ok.inj hrun₁
        exact absurd hclean₁ (not_clean_push _ _ _ _)
      · rename_i hnew
        have hd : d < limits.maxDepth := by
          rw [noteDepth, hsim.config] at hdeep
          exact UInt32.not_le.mp hdeep
        have hfresh : eventSignature event ∉ signatures chain := by
          rw [← hsim.visited]
          exact hnew
        have hsucc := toNat_succ hd
        have hspec := (callSpec reg exec k).innerSpec chain event (m := limits.maxDepth) (by omega)
          hd hchain
        have hinner : InnerPlain limits d (insert (eventSignature event) (signatures chain))
            (dispatchWithin reg exec k (event :: chain))
            (Plain.within reg exec k (event :: chain)) := by
          rw [← signatures_cons]
          intro event' run₂ run₃ p₂ hsim₂ hstays₂ hrun₃ hclean₃
          exact ih (d + 1) (event :: chain) event' run₂ run₃ p₂ (by omega)
            (by rw [List.length_cons, hchain, hsucc]) hsim₂ hstays₂ hrun₃ hclean₃
        have hvisit : Plain.Stays limits { p with visits := p.visits ++ [(chain, event)] } := by
          refine ⟨hstays.emitted, ?_, ?_⟩
          · rw [List.forall_mem_append, List.forall_mem_singleton, hchain]
            exact ⟨hstays.depth, UInt32.lt_iff_toNat_lt.mp hd⟩
          · rw [List.forall_mem_append, List.forall_mem_singleton]
            exact ⟨hstays.fresh, hfresh⟩
        obtain ⟨p', hp', hsim', hstays'⟩ := matchLoop_plain (eventSignature event) exec hd hspec
          hinner (hsim.enter d (eventSignature event) (reg.matchClauses event).length
            (chain, event)) hvisit hrun₁ hclean₁
        rw [Finset.erase_insert hfresh] at hsim'
        exact ⟨p', hp', ⟨⟨hsim'.config, hsim'.visited, hsim'.budget, hsim'.world⟩,
          hsim'.outcomes, hsim'.executed⟩, hstays'⟩

def Traced (reg : ScriptRegistry) (events : List FieldMap) (run : Run σ) : Prop :=
  ∀ o ∈ run.outcomes, o.2.synthetic = false →
    ∃ event ∈ events ++ run.calls.map Call.event, ∃ m ∈ reg.matchClauses event,
      o.2.source = m.source

variable {reg : ScriptRegistry} {events : List FieldMap}

theorem Traced.push (h : Traced reg events run) {o : ClauseOutcome}
    (ho : o.synthetic = false → ∃ event ∈ events ++ run.calls.map Call.event,
      ∃ m ∈ reg.matchClauses event, o.source = m.source) : Traced reg events (run.push d o) := by
  intro o' ho'
  rcases List.mem_append.mp ho' with ho' | ho'
  · exact h o' ho'
  · obtain rfl := List.mem_singleton.mp ho'
    exact ho

theorem Traced.synthetic (h : Traced reg events run) {kind : ClauseErrKind} (message : Str)
    (hkind : kind = .cascadeDepth ∨ kind = .cascadeCycle ∨ kind = .cascadeBudget) :
    Traced reg events (run.push d (syntheticCascadeOutcome kind message)) := by
  apply h.push
  rcases hkind with rfl | rfl | rfl <;>
    simp [syntheticCascadeOutcome, ClauseOutcome.synthetic, ClauseOutcome.errKind]

theorem emissionLoop_traced
    (hinner : ∀ d event run run', inner d event run = .ok run' → Traced reg events run →
      Traced reg events run') {emissions : List FieldMap} {goOn : Bool}
    (h : emissionLoop inner d sig emissions run = .ok (run', goOn))
    (htraced : Traced reg events run) : Traced reg events run' := by
  refine emissionLoop_keeps (K := Traced reg events) ?_ ?_ h htraced
  · intro r message hr
    exact hr.synthetic message (.inr (.inr rfl))
  · intro next event budget r r' hr' hr
    exact hinner next event (r.takeUp budget) r' hr' hr

theorem matchLoop_traced (exec : Exec σ)
    (hinner : ∀ d event run run', inner d event run = .ok run' → Traced reg events run →
      Traced reg events run') {ms : List ClauseMatch}
    (hms : ∀ m ∈ ms, ∃ event ∈ events, m ∈ reg.matchClauses event)
    (h : matchLoop exec inner d sig ms run = .ok run') (htraced : Traced reg events run) :
    Traced reg events run' := by
  induction ms generalizing run with
  | nil =>
    obtain rfl := Res.ok.inj h
    exact htraced
  | cons m ms ih =>
    rw [matchLoop] at h
    obtain ⟨⟨run₁, goOn⟩, hrun₁, h⟩ := bind_eq_ok.mp h
    rw [List.forall_mem_cons] at hms
    have hexecuted : Traced reg events (executeMatched exec run m).2.2 := by
      rw [Traced, executeMatched_outcomes, executeMatched_calls]
      exact htraced
    have hpushed : Traced reg events
        ((executeMatched exec run m).2.2.push d (executeMatched exec run m).1) := by
      apply hexecuted.push
      intro _
      obtain ⟨event, hevent, hm⟩ := hms.1
      exact ⟨event, List.mem_append_left _ hevent, m, hm, executeMatched_source exec run m⟩
    have htraced₁ := emissionLoop_traced hinner hrun₁ hpushed
    dsimp only at h
    split at h
    · exact ih hms.2 h htraced₁
    · obtain rfl := Res.ok.inj h
      exact htraced₁

theorem dispatchWithin_traced (exec : Exec σ) (n : Nat) (stack : List FieldMap) (d : UInt32)
    (event : FieldMap) (run run' : Run σ)
    (h : dispatchWithin reg exec n stack d event run = .ok run')
    (htraced : Traced reg events run) : Traced reg events run' := by
  induction n generalizing stack d event run run' events with
  | zero => cases h
  | succ n ih =>
    obtain ⟨run₁, hrun₁, h⟩ := bind_eq_ok.mp h
    obtain rfl := Res.ok.inj h
    -- The event is one of `events` while the call lasts, and of the calls when it has ended.
    have hopen : Traced reg (event :: events) run := by
      intro o ho hreal
      obtain ⟨e, he, hm⟩ := htraced o ho hreal
      exact ⟨e, List.mem_cons_of_mem _ he, hm⟩
    have hbody : Traced reg (event :: events) run₁ := by
      rw [dispatchBody] at hrun₁
      dsimp only at hrun₁
      split at hrun₁
      · obtain rfl := Res.ok.inj hrun₁
        have hnoted : Traced reg (event :: events) (run.noteDepth d) := hopen
        exact hnoted.synthetic _ (.inl rfl)
      · split at hrun₁
        · obtain rfl := Res.ok.inj hrun₁
          have hnoted : Traced reg (event :: events) (run.noteDepth d) := hopen
          exact hnoted.synthetic _ (.inr (.inl rfl))
        · exact matchLoop_traced exec (fun _ _ _ _ => ih _ _ _ _ _)
            (fun m hm => ⟨event, List.mem_cons_self, hm⟩) hrun₁ hopen
    intro o ho hreal
    obtain ⟨e, he, hm⟩ := hbody o ho hreal
    refine ⟨e, ?_, hm⟩
    simp only [List.map_append, List.map_cons, List.map_nil, List.mem_append, List.mem_cons,
      List.cons_append] at he ⊢
    tauto

end Run

namespace LuamlEngine

variable {σ : Type}

/-- The unlimited execution on the event ends and stays within the limits, and every body of it
completes. -/
def Completes (engine : LuamlEngine) (exec : Exec σ) (world : σ) (event : FieldMap) : Prop :=
  ∃ n p, Plain.within engine.registry exec n [] event (.start world) = some p ∧
    p.Stays engine.cascadeConfig ∧ ∀ o ∈ p.outcomes, o.errKind = none

theorem dispatch_clean_iff (engine : LuamlEngine) (exec : Exec σ) (world : σ) (event : FieldMap) :
    ∃ run, engine.dispatch exec world event = .ok run ∧ run.Traced engine.registry [] ∧
      (run.Clean ↔ engine.Completes exec world event) := by
  have hstart : Run.Sim engine.cascadeConfig (signatures []) (engine.start world) (.start world) :=
    ⟨⟨rfl, rfl, rfl, rfl⟩, rfl, by simp [start]⟩
  obtain ⟨run, hrun, -⟩ := engine.dispatch_spec exec world event
  refine ⟨run, hrun, ?_, ?_, ?_⟩
  · exact Run.dispatchWithin_traced exec _ _ _ _ _ _ hrun (by simp [Run.Traced, start])
  · intro hclean
    obtain ⟨p, hp, hsim, hstays⟩ := Run.dispatchWithin_plain engine.registry exec _ 0 [] event _ run
      _ (Nat.lt_succ_self _) rfl hstart ⟨Nat.zero_le _, by simp [Plain.start],
        by simp [Plain.start]⟩ hrun hclean
    refine ⟨_, p, hp, hstays, ?_⟩
    rw [← hsim.outcomes, List.forall_mem_map]
    exact hclean
  · rintro ⟨n, p, hp, hstays, hcompleted⟩
    obtain ⟨run', hrun', hsim⟩ := Run.dispatchWithin_sim engine.registry exec n _ 0 [] event _ _ p
      (Nat.lt_succ_self _) rfl hstart hp hstays
    obtain rfl := Res.ok.inj (hrun.symm.trans hrun')
    rw [← hsim.outcomes, List.forall_mem_map] at hcompleted
    exact hcompleted

end LuamlEngine

end Luaml
