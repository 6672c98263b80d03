import Luaml.ExecutorLaws
import Luaml.LifecycleLaws

namespace Luaml

open Rust Res Lua Capability

variable {H : Type}

/-- A match is executed on the Lua state that the match before it has left, by an engine without
local API bindings. -/
def ApiEngine.exec (vm : Vm H) (body : Str → Ref → LuaM H (List FieldMap)) (globals : Ref) :
    Exec (ApiEngine H) :=
  fun world m =>
    let (result, heap) :=
      executeClause vm body globals m.clause m.bindings world.apis.entries [] world.heap
    ({ world with heap := heap }, result)

inductive Rebinds (A : Set (Str × H)) : (ApiEngine H → ApiEngine H) → Prop
  | registerApi (spec : ApiBindingSpec H) (hspec : (spec.ns, spec.handler) ∈ A) :
    Rebinds A fun world => { world with apis := (world.apis.registerApi spec).2 }
  | unregisterApi (id : Nat) :
    Rebinds A fun world => { world with apis := (world.apis.unregisterApi id).2 }
  | replaceApi (id : Nat) (spec : ApiBindingSpec H) (hspec : (spec.ns, spec.handler) ∈ A) :
    Rebinds A fun world => { world with apis := (world.apis.replaceApi id spec).2 }

structure Confines (vm : Vm H) (globals : Ref) (A : Set (Str × H)) (world : ApiEngine H) :
    Prop where
  entries : ∀ entry ∈ world.apis.entries, (entry.spec.ns, entry.spec.handler) ∈ A
  heap : Within A world.heap (vm.roots {globals})

variable {vm : Vm H} {body : Str → Ref → LuaM H (List FieldMap)} {globals : Ref}
  {A : Set (Str × H)} {world : ApiEngine H}

theorem replaceEntry_confined {id : Nat} {spec : ApiBindingSpec H}
    (hspec : (spec.ns, spec.handler) ∈ A) {entries : List (ApiBindingEntry H)}
    (hentries : ∀ entry ∈ entries, (entry.spec.ns, entry.spec.handler) ∈ A) :
    ∀ entry ∈ (ApiBindings.replaceEntry id spec entries).2,
      (entry.spec.ns, entry.spec.handler) ∈ A := by
  induction entries with
  | nil => exact List.forall_mem_nil _
  | cons e es ih =>
    obtain ⟨he, hes⟩ := List.forall_mem_cons.mp hentries
    rw [ApiBindings.replaceEntry]
    split
    · exact List.forall_mem_cons.mpr ⟨hspec, hes⟩
    · exact List.forall_mem_cons.mpr ⟨he, ih hes⟩

theorem Confines.rebinds (h : Confines vm globals A world) {f : ApiEngine H → ApiEngine H}
    (hf : Rebinds A f) : Confines vm globals A (f world) := by
  refine ⟨?_, ?_⟩
  · cases hf with
    | registerApi spec hspec =>
      exact List.forall_mem_append.mpr ⟨h.entries, List.forall_mem_singleton.mpr hspec⟩
    | unregisterApi id => exact fun entry hentry => h.entries entry (List.mem_of_mem_filter hentry)
    | replaceApi id spec hspec => exact replaceEntry_confined hspec h.entries
  · cases hf <;> exact h.heap

theorem Confines.exec (hvm : vm.Safe)
    (hbody : ∀ A R source env, env ∈ R → Safe vm A (body source env) R fun _ => ∅)
    (h : Confines vm globals A world) (m : ClauseMatch) :
    Confines vm globals A (ApiEngine.exec vm body globals world m).1 := by
  refine ⟨h.entries, ?_⟩
  have hexecute : Safe vm A
      (executeClause vm body globals m.clause m.bindings world.apis.entries []) {globals}
      fun _ => ∅ := by
    apply (setUp_safe hvm m.bindings world.apis.entries fun e he _ => h.entries e he).bind
    intro env
    exact hbody _ _ _ env (.inr rfl)
  exact (hexecute world.heap h.heap).left

namespace Life

variable {host : Host} {life life' : Life (ApiEngine H)}

theorem step_world {σ : Type} {exec : Exec σ} {life life' : Life σ} {action : Action σ}
    (hdispatch : ∀ event, action ≠ .dispatch event) (halter : ∀ f, action ≠ .alter f)
    (h : step exec host life action = some life') : life'.world = life.world := by
  cases action with
  | register sourcePath text | registerFile path | registerDir dir | registerRoots roots
  | addRoot root | reloadRoots | replaceFile path =>
    obtain ⟨left, -, rfl⟩ := Option.map_eq_some_iff.mp h
    rfl
  | unregister sourcePath | clear | setCascadeConfig config | unwatch | send batch =>
    obtain rfl := Option.some.inj h
    rfl
  | watch answer => cases answer <;> obtain rfl := Option.some.inj h <;> rfl
  | alter f => exact absurd rfl (halter f)
  | dispatch event => exact absurd rfl (hdispatch event)

theorem drain_world {σ : Type} {life life' : Life σ} (h : life.drain host = some life') :
    life'.world = life.world := by
  rw [drain] at h
  split at h
  · obtain rfl := Option.some.inj h
    rfl
  · obtain ⟨reg, -, rfl⟩ := Option.map_eq_some_iff.mp h
    rfl

theorem step_confined (hvm : vm.Safe)
    (hbody : ∀ A R source env, env ∈ R → Safe vm A (body source env) R fun _ => ∅)
    {action : Action (ApiEngine H)} (haction : ∀ f, action = .alter f → Rebinds A f)
    (h : step (ApiEngine.exec vm body globals) host life action = some life')
    (hlife : Confines vm globals A life.world) : Confines vm globals A life'.world := by
  by_cases hdispatch : ∃ event, action = .dispatch event
  · obtain ⟨event, rfl⟩ := hdispatch
    obtain ⟨drained, run, hdrained, hrun, rfl⟩ := step_dispatch h
    rw [← drain_world hdrained] at hlife
    apply LuamlEngine.dispatch_world
      (R := fun world world' => Confines vm globals A world → Confines vm globals A world')
      (fun _ => id) _ (fun world m hworld => hworld.exec hvm hbody m) hrun hlife
    intro _ _ _ hab hbc
    exact hbc ∘ hab
  by_cases halter : ∃ f, action = .alter f
  · obtain ⟨f, rfl⟩ := halter
    obtain rfl := Option.some.inj h
    exact hlife.rebinds (haction f rfl)
  · have hworld := step_world (fun event heq => hdispatch ⟨event, heq⟩)
      (fun f heq => halter ⟨f, heq⟩) h
    rwa [hworld]

theorem run_confines (hvm : vm.Safe)
    (hbody : ∀ A R source env, env ∈ R → Safe vm A (body source env) R fun _ => ∅)
    {turns : List (Host × Action (ApiEngine H))}
    (hturns : ∀ turn ∈ turns, ∀ f, turn.2 = .alter f → Rebinds A f)
    (h : run (ApiEngine.exec vm body globals) turns life = some life')
    (hlife : Confines vm globals A life.world) : Confines vm globals A life'.world := by
  induction turns generalizing life with
  | nil =>
    obtain rfl := Option.some.inj h
    exact hlife
  | cons turn turns ih =>
    obtain ⟨host, action⟩ := turn
    obtain ⟨hturn, hrest⟩ := List.forall_mem_cons.mp hturns
    obtain ⟨life₁, hstep, h⟩ := Option.bind_eq_some_iff.mp h
    exact ih hrest h (step_confined hvm hbody hturn hstep hlife)

/-- Whatever an engine goes through, its bodies get at no handlers but those within reach of the
globals at the start, and those that have been bound. -/
theorem run_confined (hvm : vm.Safe)
    (hbody : ∀ A R source env, env ∈ R → Safe vm A (body source env) R fun _ => ∅)
    {turns : List (Host × Action (ApiEngine H))}
    (hturns : ∀ turn ∈ turns, ∀ f, turn.2 = .alter f → Rebinds A f)
    (h : run (ApiEngine.exec vm body globals) turns life = some life')
    (hlife : Confines vm globals A life.world) :
    Within A life'.world.heap (vm.roots {globals}) ∧
      ∀ clause bindings env heap,
        setUp vm globals clause bindings life'.world.apis.entries [] life'.world.heap =
          (.ok env, heap) → vm.reachable heap env ⊆ A := by
  have hconfines := run_confines hvm hbody hturns h hlife
  refine ⟨hconfines.heap, fun clause bindings env heap hsetUp => ?_⟩
  exact setUp_reachable hvm bindings _ (fun e he _ => hconfines.entries e he) hconfines.heap hsetUp

end Life

def methodVm : Vm Unit :=
  { noCode with
    call := fun f _ h =>
      match h[f]? with
      | some (.function (.apiMethod _ method _)) => (.ok (.string method), h)
      | _ => (.error "attempt to call a nil value".toList, h) }

theorem methodVm_safe : methodVm.Safe where
  call A R f args _ _ := by
    intro h hR
    simp only [methodVm]
    split
    · exact hR.mono (Set.union_subset (Set.Subset.refl _) (Set.empty_subset _))
    · exact hR
  index _ _ _ _ _ _ := Safe.throw _ _
  newindex _ _ _ _ _ _ _ _ := Safe.throw _ _

def quitBody (_source : Str) (env : Ref) : LuaM Unit (List FieldMap) := do
  match ← Lua.get methodVm env (.string "client".toList) with
  | .table client =>
    match ← Lua.get methodVm client (.string "quit".toList) with
    | .function quit => do
      Lua.set methodVm env (.string "quit".toList) (.function quit)
      let _ ← Lua.call methodVm quit []
      pure []
    | _ => .throw "attempt to call a nil value".toList
  | _ => .throw "attempt to index a nil value".toList

theorem quitBody_safe (A : Set (Str × Unit)) {R : Set Nat} (source : Str) {env : Ref}
    (henv : env ∈ R) : Safe methodVm A (quitBody source env) R fun _ => ∅ := by
  refine (get_safe methodVm_safe henv _).bind fun client => ?_
  split
  · refine (get_safe methodVm_safe (.inr rfl) _).bind fun quit => ?_
    split
    · refine (set_safe methodVm_safe (.inl (.inl henv)) (Set.empty_subset _)
        Set.subset_union_right).seq ?_
      refine (call_safe methodVm_safe (.inr rfl) (List.forall_mem_nil _)).bind fun _ => ?_
      exact Safe.pure (Set.empty_subset _)
    · exact Safe.throw _ _
  · exact Safe.throw _ _

def bindAndQuit : List (Host × Action (ApiEngine Unit)) :=
  let host := ScriptWatcher.oneScript ScriptWatcher.plainText
  [(host, .alter fun world => { world with apis := (world.apis.registerApi clientSpec).2 }),
    (host, .register ⟨"c.luaml".toList⟩
      "---\nsurface: :tui:\n---\nquit = client.quit; quit()\n".toList),
    (host, .dispatch [("surface".toList, .enum "tui".toList)])]

theorem Life.run_confined_quit : ∃ life,
    Life.run (ApiEngine.exec methodVm quitBody 0) bindAndQuit (.start freshEngine) = some life ∧
      (∃ quit, (Lua.get methodVm 0 (.string "quit".toList) life.world.heap).1 =
        .ok (.function quit)) ∧
      Within {("client".toList, ())} life.world.heap (methodVm.roots {0}) := by
  have hrun : (Life.run (ApiEngine.exec methodVm quitBody 0) bindAndQuit (.start freshEngine)).map
      (fun life => (Lua.get methodVm 0 (.string "quit".toList) life.world.heap).1) =
        some (.ok (.function 9)) := by
    decide +kernel
  obtain ⟨life, hlife, hquit⟩ := Option.map_eq_some_iff.mp hrun
  refine ⟨life, hlife, ⟨9, hquit⟩, ?_⟩
  refine (run_confined methodVm_safe (fun A R source env => quitBody_safe A source) ?_ hlife
    ⟨List.forall_mem_nil _, globals_within _⟩).1
  intro turn hturn f hf
  simp only [bindAndQuit, List.mem_cons, List.not_mem_nil, or_false] at hturn
  obtain rfl | rfl | rfl := hturn
  · cases hf
    exact .registerApi clientSpec rfl
  · cases hf
  · cases hf

end Luaml
