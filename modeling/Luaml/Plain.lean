import Luaml.CascadeLaws
import Mathlib.Data.List.Perm.Basic

namespace Luaml

open Rust Res

mutual
/-- The same value, in whatever order its hash maps give their entries.  A float is the same as
itself, bit for bit. -/
inductive FieldValue.Same : FieldValue → FieldValue → Prop
  | enum (s : Str) : Same (.enum s) (.enum s)
  | string (s : Str) : Same (.string s) (.string s)
  | number (n : Int64) : Same (.number n) (.number n)
  | float (f : F64) : Same (.float f) (.float f)
  | bool (b : Bool) : Same (.bool b) (.bool b)
  | null : Same .null .null
  | list {vs ws : List FieldValue} : SameItems vs ws → Same (.list vs) (.list ws)
  | map {m m' m'' : List (Str × FieldValue)} :
    SameEntries m m'' → m''.Perm m' → Same (.map m) (.map m')

inductive FieldValue.SameItems : List FieldValue → List FieldValue → Prop
  | nil : SameItems [] []
  | cons {v w : FieldValue} {vs ws : List FieldValue} :
    Same v w → SameItems vs ws → SameItems (v :: vs) (w :: ws)

inductive FieldValue.SameEntries : List (Str × FieldValue) → List (Str × FieldValue) → Prop
  | nil : SameEntries [] []
  | cons {k : Str} {v w : FieldValue} {m m' : List (Str × FieldValue)} :
    Same v w → SameEntries m m' → SameEntries ((k, v) :: m) ((k, w) :: m')
end

def FieldMap.Same (event event' : FieldMap) : Prop :=
  FieldValue.Same (.map event) (.map event')

theorem fromEntries_eq_map (m : List (Str × FieldValue)) :
    fromEntries m = m.map fun p => (p.1, fromValue p.2) := by
  induction m with
  | nil => rfl
  | cons p m ih => rw [fromEntries, ih, List.map_cons]

theorem fromEntries_of_sortByKey {m m' : List (Str × FieldValue)}
    (h : sortByKey (fromEntries m) = sortByKey (fromEntries m')) :
    ∃ m'', fromEntries m = fromEntries m'' ∧ m''.Perm m' := by
  have hperm : (fromEntries m).Perm (fromEntries m') := calc
    (fromEntries m).Perm (sortByKey (fromEntries m)) := (List.perm_insertionSort _ _).symm
    _ = sortByKey (fromEntries m') := h
    List.Perm _ (fromEntries m') := List.perm_insertionSort _ _
  rw [fromEntries_eq_map m'] at hperm
  have hcomp := congrFun (congrFun
    (List.eq_map_comp_perm fun p : Str × FieldValue => (p.1, fromValue p.2)) (fromEntries m)) m'
  obtain ⟨m'', hm'', hperm'⟩ := cast hcomp.symm hperm
  exact ⟨m'', by rw [fromEntries_eq_map m'']; exact hm'', hperm'⟩

mutual
theorem same_of_fromValue : ∀ v w : FieldValue, fromValue v = fromValue w → v.Same w
  | .enum s, w, h => by cases w <;> simp_all [fromValue, FieldValue.Same.enum]
  | .string s, w, h => by cases w <;> simp_all [fromValue, FieldValue.Same.string]
  | .number n, w, h => by cases w <;> simp_all [fromValue, FieldValue.Same.number]
  | .float f, w, h => by cases w <;> simp_all [fromValue, FieldValue.Same.float]
  | .bool b, w, h => by cases w <;> simp_all [fromValue, FieldValue.Same.bool]
  | .null, w, h => by cases w <;> simp_all [fromValue, FieldValue.Same.null]
  | .list vs, w, h => by
    cases w with
    | list ws =>
      simp only [fromValue, FieldValue.list.injEq] at h
      exact .list (same_of_fromItems vs ws h)
    | _ => simp [fromValue] at h
  | .map m, w, h => by
    cases w with
    | map m' =>
      simp only [fromValue, FieldValue.map.injEq] at h
      obtain ⟨m'', hm'', hperm⟩ := fromEntries_of_sortByKey h
      exact .map (same_of_fromEntries m m'' hm'') hperm
    | _ => simp [fromValue] at h

theorem same_of_fromItems : ∀ vs ws : List FieldValue, fromItems vs = fromItems ws →
    FieldValue.SameItems vs ws
  | [], [], _ => .nil
  | [], _ :: _, h | _ :: _, [], h => by simp [fromItems] at h
  | v :: vs, w :: ws, h => by
    simp only [fromItems, List.cons.injEq] at h
    exact .cons (same_of_fromValue v w h.1) (same_of_fromItems vs ws h.2)

theorem same_of_fromEntries : ∀ m m' : List (Str × FieldValue), fromEntries m = fromEntries m' →
    FieldValue.SameEntries m m'
  | [], [], _ => .nil
  | [], _ :: _, h | _ :: _, [], h => by simp [fromEntries] at h
  | (k, v) :: m, (l, w) :: m', h => by
    simp only [fromEntries, List.cons.injEq, Prod.mk.injEq] at h
    obtain ⟨⟨rfl, hv⟩, hm⟩ := h
    exact .cons (same_of_fromValue v w hv) (same_of_fromEntries m m' hm)
end

theorem same_of_eventSignature {event event' : FieldMap}
    (h : eventSignature event = eventSignature event') : FieldMap.Same event event' := by
  apply same_of_fromValue
  rw [fromValue, fromValue]
  exact congrArg FieldValue.map h

/-- What an unlimited execution has done: the outcomes, how many events it has emitted, and every
event that it has dispatched below the events of its ancestors, the nearest one first. -/
structure Plain (σ : Type) where
  world : σ
  outcomes : List ClauseOutcome
  emitted : Nat
  visits : List (List FieldMap × FieldMap)

namespace Plain

variable {σ : Type}

def start (world : σ) : Plain σ := ⟨world, [], 0, []⟩

def execute (exec : Exec σ) (p : Plain σ) (m : ClauseMatch) : List FieldMap × Plain σ :=
  match exec p.world m with
  | (world, .ok emissions) =>
    (emissions, { p with world := world, outcomes := p.outcomes ++
      [⟨m.script.sourcePath, m.clause, m.bindings, .ok ⟨emissions⟩⟩] })
  | (world, .error message) =>
    ([], { p with world := world, outcomes := p.outcomes ++
      [⟨m.script.sourcePath, m.clause, m.bindings, .error ⟨.body, message⟩⟩] })

def dispatchAll (inner : FieldMap → Plain σ → Option (Plain σ)) :
    List FieldMap → Plain σ → Option (Plain σ)
  | [], p => some p
  | event :: events, p => do
    let p ← inner event { p with emitted := p.emitted + 1 }
    dispatchAll inner events p

def executeAll (exec : Exec σ) (inner : FieldMap → Plain σ → Option (Plain σ)) :
    List ClauseMatch → Plain σ → Option (Plain σ)
  | [], p => some p
  | m :: ms, p => do
    let (emissions, p) := execute exec p m
    let p ← dispatchAll inner emissions p
    executeAll exec inner ms p

/-- The execution on an event below those of `chain`, if it nests no deeper than `n`.  It is finite
exactly when some `n` is enough. -/
def within (reg : ScriptRegistry) (exec : Exec σ) :
    Nat → List FieldMap → FieldMap → Plain σ → Option (Plain σ)
  | 0, _, _, _ => none
  | n + 1, chain, event, p =>
    executeAll exec (within reg exec n (event :: chain)) (reg.matchClauses event)
      { p with visits := p.visits ++ [(chain, event)] }

/-- At most the budget is emitted, no event is nested too deep, and none is its own ancestor. -/
structure Fits (config : CascadeConfig) (p : Plain σ) : Prop where
  emitted : p.emitted ≤ config.budget.toNat
  depth : ∀ v ∈ p.visits, v.1.length < config.maxDepth.toNat
  acyclic : ∀ v ∈ p.visits, ∀ e ∈ v.1, ¬FieldMap.Same e v.2

structure Stays (config : CascadeConfig) (p : Plain σ) : Prop where
  emitted : p.emitted ≤ config.budget.toNat
  depth : ∀ v ∈ p.visits, v.1.length < config.maxDepth.toNat
  fresh : ∀ v ∈ p.visits, eventSignature v.2 ∉ signatures v.1

def Before (p p' : Plain σ) : Prop :=
  p.emitted ≤ p'.emitted ∧ p.visits ⊆ p'.visits

variable {config : CascadeConfig} {p p' p'' : Plain σ}

theorem Before.refl (p : Plain σ) : Before p p := ⟨Nat.le_refl _, List.Subset.refl _⟩

theorem Before.trans (h : Before p p') (h' : Before p' p'') : Before p p'' :=
  ⟨h.1.trans h'.1, List.Subset.trans h.2 h'.2⟩

theorem before_visit (p : Plain σ) (visit : List FieldMap × FieldMap) :
    Before p { p with visits := p.visits ++ [visit] } :=
  ⟨Nat.le_refl _, List.subset_append_left _ _⟩

theorem Fits.stays (h : Fits config p) : Stays config p where
  emitted := h.emitted
  depth := h.depth
  fresh v hv := by
    rw [mem_signatures]
    rintro ⟨e, he, hsig⟩
    exact h.acyclic v hv e he (same_of_eventSignature hsig)

theorem Stays.before (h : Stays config p') (hp : Before p p') : Stays config p :=
  ⟨hp.1.trans h.emitted, fun v hv => h.depth v (hp.2 hv), fun v hv => h.fresh v (hp.2 hv)⟩

theorem executeAll_cons {exec : Exec σ} {inner : FieldMap → Plain σ → Option (Plain σ)}
    {m : ClauseMatch} {ms : List ClauseMatch} (h : executeAll exec inner (m :: ms) p = some p') :
    ∃ p₁, dispatchAll inner (execute exec p m).1 (execute exec p m).2 = some p₁ ∧
      executeAll exec inner ms p₁ = some p' := by
  rw [executeAll] at h
  exact Option.bind_eq_some_iff.mp h

theorem execute_before (exec : Exec σ) (p : Plain σ) (m : ClauseMatch) :
    Before p (execute exec p m).2 := by
  unfold execute
  split <;> exact .refl _

theorem dispatchAll_before {inner : FieldMap → Plain σ → Option (Plain σ)}
    (hinner : ∀ event p p', inner event p = some p' → Before p p') {events : List FieldMap}
    (h : dispatchAll inner events p = some p') : Before p p' := by
  induction events generalizing p with
  | nil =>
    obtain rfl := Option.some.inj h
    exact .refl p
  | cons event events ih =>
    obtain ⟨p₁, hp₁, h⟩ := Option.bind_eq_some_iff.mp h
    have htake : Before p { p with emitted := p.emitted + 1 } :=
      ⟨Nat.le_succ _, List.Subset.refl _⟩
    exact (htake.trans (hinner event _ p₁ hp₁)).trans (ih h)

theorem executeAll_before {exec : Exec σ} {inner : FieldMap → Plain σ → Option (Plain σ)}
    (hinner : ∀ event p p', inner event p = some p' → Before p p') {ms : List ClauseMatch}
    (h : executeAll exec inner ms p = some p') : Before p p' := by
  induction ms generalizing p with
  | nil =>
    obtain rfl := Option.some.inj h
    exact .refl p
  | cons m ms ih =>
    obtain ⟨p₁, hp₁, h⟩ := executeAll_cons h
    exact ((execute_before exec p m).trans (dispatchAll_before hinner hp₁)).trans (ih h)

theorem within_before (reg : ScriptRegistry) (exec : Exec σ) (n : Nat) (chain : List FieldMap)
    (event : FieldMap) (p p' : Plain σ) (h : within reg exec n chain event p = some p') :
    Before { p with visits := p.visits ++ [(chain, event)] } p' := by
  induction n generalizing chain event p p' with
  | zero => simp [within] at h
  | succ n ih =>
    apply executeAll_before _ h
    intro event' p₁ p₂ h'
    exact (before_visit p₁ _).trans (ih _ _ _ _ h')

end Plain

namespace Run

variable {σ : Type}

/-- The dispatch is in the world of the unlimited execution, and has paid for what that has
emitted. -/
structure Paid (limits : CascadeConfig) (visited : Finset EventSig) (run : Run σ) (p : Plain σ) :
    Prop where
  config : run.ctx.config = limits
  visited : run.ctx.visited = visited
  budget : run.ctx.budgetRemaining.toNat + p.emitted = limits.budget.toNat
  world : run.world = p.world

/-- It has also had the outcomes of the unlimited execution, and no other. -/
structure Sim (limits : CascadeConfig) (visited : Finset EventSig) (run : Run σ) (p : Plain σ) :
    Prop extends Paid limits visited run p where
  outcomes : run.outcomes.map Prod.snd = p.outcomes
  executed : ∀ o ∈ run.outcomes, o.2.synthetic = false

variable {limits : CascadeConfig} {visited : Finset EventSig} {sig : EventSig} {d : UInt32}
  {run : Run σ} {p p' : Plain σ} {inner : UInt32 → FieldMap → Run σ → Res Empty (Run σ)}
  {plain : FieldMap → Plain σ → Option (Plain σ)}

theorem Paid.emitted_le (h : Paid limits visited run p) : p.emitted ≤ limits.budget.toNat :=
  Nat.le_of_add_left_le h.budget.le

theorem Paid.execute (h : Paid limits visited run p) (exec : Exec σ) (m : ClauseMatch) :
    (executeMatched exec run m).2.1 = (Plain.execute exec p m).1 ∧
      Paid limits visited
        ((executeMatched exec run m).2.2.push d (executeMatched exec run m).1)
        (Plain.execute exec p m).2 := by
  obtain ⟨hconfig, hvisited, hbudget, hworld⟩ := h
  unfold executeMatched Plain.execute
  rw [← hworld]
  cases exec run.world m with
  | mk world result =>
    cases result <;> exact ⟨rfl, hconfig, hvisited, hbudget, rfl⟩

theorem Sim.execute (h : Sim limits visited run p) (exec : Exec σ) (m : ClauseMatch) :
    (executeMatched exec run m).2.1 = (Plain.execute exec p m).1 ∧
      Sim limits visited
        ((executeMatched exec run m).2.2.push d (executeMatched exec run m).1)
        (Plain.execute exec p m).2 := by
  obtain ⟨hemissions, hpaid⟩ := h.toPaid.execute (d := d) exec m
  have hworld := h.world
  refine ⟨hemissions, hpaid, ?_, ?_⟩
  · unfold executeMatched Plain.execute
    rw [← hworld]
    cases exec run.world m with
    | mk world result => cases result <;> simp [push, h.outcomes]
  · intro o ho
    unfold executeMatched at ho
    cases hresult : exec run.world m with
    | mk world result =>
      rw [hresult] at ho
      cases result <;>
      · rcases List.mem_append.mp ho with ho | ho
        · exact h.executed o ho
        · obtain rfl := List.mem_singleton.mp ho
          rfl

theorem Paid.takeUp (h : Paid limits visited run p) (hbudget : run.ctx.budgetRemaining ≠ 0) :
    Paid limits visited (run.takeUp (run.ctx.budgetRemaining - 1))
      { p with emitted := p.emitted + 1 } where
  config := h.config
  visited := h.visited
  budget := by
    have hpred := toNat_pred hbudget
    have hpaid := h.budget
    simp only [Run.takeUp]
    omega
  world := h.world

theorem Sim.takeUp (h : Sim limits visited run p) (hbudget : run.ctx.budgetRemaining ≠ 0) :
    Sim limits visited (run.takeUp (run.ctx.budgetRemaining - 1))
      { p with emitted := p.emitted + 1 } :=
  ⟨h.toPaid.takeUp hbudget, h.outcomes, h.executed⟩

theorem Paid.enter (h : Paid limits visited run p) (d : UInt32) (sig : EventSig) (n : Nat)
    (visit : List FieldMap × FieldMap) :
    Paid limits (insert sig visited) (((run.noteDepth d).markVisited sig).noteMatched n)
      { p with visits := p.visits ++ [visit] } where
  config := h.config
  visited := by
    rw [← h.visited]
    rfl
  budget := h.budget
  world := h.world

theorem Sim.enter (h : Sim limits visited run p) (d : UInt32) (sig : EventSig) (n : Nat)
    (visit : List FieldMap × FieldMap) :
    Sim limits (insert sig visited) (((run.noteDepth d).markVisited sig).noteMatched n)
      { p with visits := p.visits ++ [visit] } :=
  ⟨h.toPaid.enter d sig n visit, h.outcomes, h.executed⟩

theorem Paid.leave (h : Paid limits visited run p) (sig : EventSig) :
    Paid limits (visited.erase sig) (run.unmarkVisited sig) p :=
  ⟨h.config, by rw [unmarkVisited, h.visited], h.budget, h.world⟩

/-- What the recursive calls from depth `d` must do when they stay within the limits. -/
def InnerSim (limits : CascadeConfig) (d : UInt32) (visited : Finset EventSig)
    (inner : UInt32 → FieldMap → Run σ → Res Empty (Run σ))
    (plain : FieldMap → Plain σ → Option (Plain σ)) : Prop :=
  ∀ event run p p', Sim limits visited run p → plain event p = some p' → p'.Stays limits →
    ∃ run', inner (d + 1) event run = .ok run' ∧ Sim limits visited run' p'

theorem emissionLoop_sim (sig : EventSig) (hd : d < limits.maxDepth)
    (hinner : InnerSim limits d visited inner plain)
    (hplain : ∀ event p p', plain event p = some p' → Plain.Before p p')
    {emissions : List FieldMap} (hsim : Sim limits visited run p)
    (h : Plain.dispatchAll plain emissions p = some p') (hstays : p'.Stays limits) :
    ∃ run', emissionLoop inner d sig emissions run = .ok (run', true) ∧
      Sim limits visited run' p' := by
  induction emissions generalizing run p with
  | nil =>
    obtain rfl := Option.some.inj h
    exact ⟨run, rfl, hsim⟩
  | cons emission emissions ih =>
    obtain ⟨p₁, hp₁, h⟩ := Option.bind_eq_some_iff.mp h
    have hstays₁ := hstays.before (Plain.dispatchAll_before hplain h)
    -- The emission itself is paid for, so there was budget left for it.
    have hbudget : run.ctx.budgetRemaining ≠ 0 := by
      intro hzero
      have hpaid := hsim.budget
      have hemitted := (hplain emission _ p₁ hp₁).1
      have hmost := hstays₁.emitted
      rw [hzero] at hpaid
      simp only [UInt32.toNat_zero] at hpaid hemitted
      omega
    obtain ⟨run₁, hrun₁, hsim₁⟩ := hinner emission _ _ p₁ (hsim.takeUp hbudget) hp₁ hstays₁
    obtain ⟨run', hrun', hsim'⟩ := ih hsim₁ h
    refine ⟨run', ?_, hsim'⟩
    simp only [emissionLoop, if_neg hbudget, checkedSub_one hbudget, checkedAdd_one hd, ok_bind,
      hrun₁]
    exact hrun'

theorem matchLoop_sim (sig : EventSig) (exec : Exec σ) (hd : d < limits.maxDepth)
    (hinner : InnerSim limits d visited inner plain)
    (hplain : ∀ event p p', plain event p = some p' → Plain.Before p p')
    {ms : List ClauseMatch} (hsim : Sim limits visited run p)
    (h : Plain.executeAll exec plain ms p = some p') (hstays : p'.Stays limits) :
    ∃ run', matchLoop exec inner d sig ms run = .ok run' ∧
      Sim limits (visited.erase sig) run' p' := by
  induction ms generalizing run p with
  | nil =>
    obtain rfl := Option.some.inj h
    exact ⟨_, rfl, hsim.toPaid.leave sig, hsim.outcomes, hsim.executed⟩
  | cons m ms ih =>
    obtain ⟨p₁, hp₁, h⟩ := Plain.executeAll_cons h
    have hstays₁ := hstays.before (Plain.executeAll_before hplain h)
    obtain ⟨hemissions, hsim₀⟩ := hsim.execute (d := d) exec m
    rw [← hemissions] at hp₁
    obtain ⟨run₁, hrun₁, hsim₁⟩ := emissionLoop_sim sig hd hinner hplain hsim₀ hp₁ hstays₁
    obtain ⟨run', hrun', hsim'⟩ := ih hsim₁ h
    refine ⟨run', ?_, hsim'⟩
    simp only [matchLoop, hrun₁, ok_bind, if_true]
    exact hrun'

theorem dispatchBody_sim (reg : ScriptRegistry) (exec : Exec σ) (event : FieldMap)
    (hd : d < limits.maxDepth) (hfresh : eventSignature event ∉ visited)
    (hinner : InnerSim limits d (insert (eventSignature event) visited) inner plain)
    (hplain : ∀ event p p', plain event p = some p' → Plain.Before p p')
    {visit : List FieldMap × FieldMap} (hsim : Sim limits visited run p)
    (h : Plain.executeAll exec plain (reg.matchClauses event)
      { p with visits := p.visits ++ [visit] } = some p') (hstays : p'.Stays limits) :
    ∃ run', dispatchBody reg exec inner d event run = .ok run' ∧ Sim limits visited run' p' := by
  have hentered := hsim.enter d (eventSignature event) (reg.matchClauses event).length visit
  obtain ⟨run', hrun', hsim'⟩ := matchLoop_sim (eventSignature event) exec hd hinner hplain
    hentered h hstays
  rw [Finset.erase_insert hfresh] at hsim'
  refine ⟨run', ?_, hsim'⟩
  have hshallow : ¬(run.noteDepth d).ctx.config.maxDepth ≤ d := by
    rw [noteDepth, hsim.config]
    exact UInt32.not_le.mpr hd
  have hnew : eventSignature event ∉ (run.noteDepth d).ctx.visited := by
    rw [noteDepth, hsim.visited]
    exact hfresh
  rw [dispatchBody, if_neg hshallow, if_neg hnew]
  exact hrun'

theorem dispatchWithin_sim (reg : ScriptRegistry) (exec : Exec σ) (n k : Nat) (d : UInt32)
    (chain : List FieldMap) (event : FieldMap) (run : Run σ) (p p' : Plain σ)
    (hk : limits.maxDepth.toNat < k + d.toNat) (hchain : chain.length = d.toNat)
    (hsim : Sim limits (signatures chain) run p)
    (h : Plain.within reg exec n chain event p = some p') (hstays : p'.Stays limits) :
    ∃ run', dispatchWithin reg exec k chain d event run = .ok run' ∧
      Sim limits (signatures chain) run' p' := by
  induction n generalizing k d chain event run p p' with
  | zero => simp [Plain.within] at h
  | succ n ih =>
    have hvisit : (chain, event) ∈ p'.visits :=
      (Plain.within_before reg exec (n + 1) chain event p p' h).2 (by simp)
    have hdepth : chain.length < limits.maxDepth.toNat := hstays.depth _ hvisit
    have hd : d < limits.maxDepth := by
      rw [UInt32.lt_iff_toNat_lt, ← hchain]
      exact hdepth
    have hsucc := toNat_succ hd
    obtain ⟨k, rfl⟩ : ∃ k', k = k' + 1 := Nat.exists_eq_succ_of_ne_zero (by omega)
    have hfresh : eventSignature event ∉ signatures chain := hstays.fresh _ hvisit
    have hinner : InnerSim limits d (insert (eventSignature event) (signatures chain))
        (dispatchWithin reg exec k (event :: chain))
        (Plain.within reg exec n (event :: chain)) := by
      rw [← signatures_cons]
      intro event' run₁ p₁ p₂ hsim₁ h₁ hstays₁
      exact ih k (d + 1) (event :: chain) event' run₁ p₁ p₂ (by omega)
        (by rw [List.length_cons, hchain, hsucc]) hsim₁ h₁ hstays₁
    have hplain : ∀ event' p₁ p₂, Plain.within reg exec n (event :: chain) event' p₁ = some p₂ →
        Plain.Before p₁ p₂ := by
      intro event' p₁ p₂ h₁
      exact (Plain.before_visit p₁ _).trans (Plain.within_before reg exec n _ _ _ _ h₁)
    obtain ⟨run', hrun', hsim'⟩ :=
      dispatchBody_sim reg exec event hd hfresh hinner hplain hsim h hstays
    rw [dispatchWithin, hrun', ok_bind]
    exact ⟨_, rfl, ⟨hsim'.config, hsim'.visited, hsim'.budget, hsim'.world⟩, hsim'.outcomes,
      hsim'.executed⟩

end Run

variable {σ : Type}

/-- Within the limits a dispatch is the unlimited execution. -/
theorem LuamlEngine.dispatch_eq_plain (engine : LuamlEngine) (exec : Exec σ) (world : σ)
    (event : FieldMap) (n : Nat) (p : Plain σ)
    (hfinite : Plain.within engine.registry exec n [] event (.start world) = some p)
    (hbudget : p.emitted ≤ engine.cascadeConfig.budget.toNat)
    (hdepth : ∀ v ∈ p.visits, v.1.length < engine.cascadeConfig.maxDepth.toNat)
    (hacyclic : ∀ v ∈ p.visits, ∀ e ∈ v.1, ¬FieldMap.Same e v.2) :
    ∃ run, engine.dispatch exec world event = .ok run ∧
      run.outcomes.map Prod.snd = p.outcomes ∧ run.world = p.world ∧
      ∀ o ∈ run.outcomes, o.2.synthetic = false := by
  obtain ⟨run, hrun, hsim⟩ := Run.dispatchWithin_sim engine.registry exec n
    (engine.cascadeConfig.maxDepth.toNat + 1) 0 [] event (engine.start world) (.start world) p
    (Nat.lt_succ_self _) rfl ⟨⟨rfl, rfl, rfl, rfl⟩, rfl, by simp [start]⟩ hfinite
    (Plain.Fits.stays ⟨hbudget, hdepth, hacyclic⟩)
  exact ⟨run, hrun, hsim.outcomes, hsim.world, hsim.executed⟩

def oneEmission : LuamlEngine where
  registry := ⟨[⟨⟨"a".toList⟩, none, [syntheticClause]⟩]⟩
  roots := []
  cascadeConfig := ⟨2, 1⟩
  stats := .zero

def emitOnce : Exec Bool := fun fresh _ =>
  (false, .ok (if fresh then [[("k".toList, .null)]] else []))

def onceEmitted : Plain Bool where
  world := false
  outcomes := [⟨⟨"a".toList⟩, syntheticClause, [], .ok ⟨[[("k".toList, .null)]]⟩⟩,
    ⟨⟨"a".toList⟩, syntheticClause, [], .ok ⟨[]⟩⟩]
  emitted := 1
  visits := [([], []), ([[]], [("k".toList, .null)])]

theorem oneEmission_eq_plain :
    ∃ run, oneEmission.dispatch emitOnce true [] = .ok run ∧
      run.outcomes.map Prod.snd = onceEmitted.outcomes ∧ run.world = false ∧
      ∀ o ∈ run.outcomes, o.2.synthetic = false := by
  apply oneEmission.dispatch_eq_plain emitOnce true [] 2 onceEmitted rfl
  · decide
  · decide
  · intro v hv e he hsame
    rcases List.mem_pair.mp hv with rfl | rfl
    · simp at he
    · obtain rfl := List.mem_singleton.mp he
      cases hsame with
      | map hentries hperm =>
        cases hentries with
        | nil => simp at hperm

end Luaml
