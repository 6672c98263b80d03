import Luaml.LifecycleLaws

namespace Luaml

open Rust Res ScriptRegistry

namespace ScriptRegistry

variable {host : Host} {script : Script}

theorem keeps_without (path : PathBuf) :
    (without path).keeps script = true ↔ ¬script.sourcePath.same path := by
  simp [without, Revision.keeping]

theorem mem_loading (r : Res LuamlError Script) :
    script ∈ (loading r).adds ↔ r = .ok script := by
  cases r with
  | ok s => simp [loading, Revision.adding, eq_comm]
  | err e | panic c => simp [loading, Revision.nothing]

theorem keeps_loading (r : Res LuamlError Script) : (loading r).keeps script = true := by
  cases r <;> rfl

theorem keeps_changing (change : FileChange) :
    (changing host change).keeps script = true ↔
      (ScriptWatcher.Drops host change → ¬script.sourcePath.same change.path) := by
  cases change with
  | remove path => simp [changing, keeps_without, ScriptWatcher.Drops, FileChange.path]
  | createOrModify path =>
    simp only [changing, ScriptWatcher.Drops, FileChange.path]
    cases host.readToString path with
    | ok text => simp [Revision.andThen, keeps_loading, keeps_without]
    | err e | panic c => simp [Revision.nothing]

theorem mem_changing (change : FileChange) :
    script ∈ (changing host change).adds ↔
      ∃ path, change = .createOrModify path ∧ load host path = .ok script := by
  cases change with
  | remove path => simp [changing, without, Revision.keeping]
  | createOrModify path =>
    simp only [changing, load, FileChange.createOrModify.injEq, exists_eq_left']
    cases host.readToString path with
    | ok text => simp [Revision.andThen, Revision.act, without, Revision.keeping, mem_loading]
    | err e | panic c => simp [Revision.nothing]

theorem keeps_changingAll (changes : List FileChange) :
    (changingAll host changes).keeps script = true ↔
      ScriptWatcher.Survives host changes script := by
  induction changes with
  | nil => simp [changingAll, Revision.nothing, ScriptWatcher.Survives]
  | cons change changes ih =>
    rw [changingAll, Revision.andThen, Bool.and_eq_true, keeps_changing, ih,
      ScriptWatcher.survives_cons]

theorem mem_changingAll (changes : List FileChange) :
    script ∈ (changingAll host changes).adds ↔ ScriptWatcher.Reloaded host changes script := by
  induction changes with
  | nil => simp [changingAll, Revision.nothing, ScriptWatcher.Reloaded]
  | cons change changes ih =>
    rw [changingAll, Revision.andThen, Revision.mem_act, mem_changing, keeps_changingAll, ih,
      ScriptWatcher.reloaded_cons]
    simp only [← and_assoc, exists_and_right]

end ScriptRegistry

namespace Life

variable {σ : Type} {exec : Exec σ} {host : Host} {life life' : Life σ} {script : Script}

def Registers (host : Host) (life : Life σ) (script : Script) : Action σ → Prop
  | .register sourcePath text => Parser.parseLuaml sourcePath text = .ok script
  | .registerFile path => load host path = .ok script
  | .registerDir dir => script ∈ (dirScripts host dir).2
  | .registerRoots roots => script ∈ newRootScripts host life.engine.roots roots
  | .addRoot root => script ∈ newRootScripts host life.engine.roots [root]
  | .reloadRoots => script ∈ (LuamlEngine.rootScripts host life.engine.roots).2
  | .replaceFile path => load host path = .ok script
  | .dispatch _ => ScriptWatcher.Reloaded host (life.queue.getD []) script
  | _ => False

/-- The action drops the script, where it is registered: it is about all scripts, or about the path
of this one. -/
def Dismisses (host : Host) (life : Life σ) (script : Script) : Action σ → Prop
  | .clear | .reloadRoots => True
  | .unregister path => script.sourcePath.same path
  | .replaceFile path =>
    ScriptWatcher.Drops host (.createOrModify path) ∧ script.sourcePath.same path
  | .dispatch _ => ¬ScriptWatcher.Survives host (life.queue.getD []) script
  | _ => False

theorem mem_revision (action : Action σ) :
    script ∈ (life.revision host action).adds ↔ life.Registers host script action := by
  cases action with
  | register sourcePath text => exact mem_loading _
  | registerFile path => exact mem_loading _
  | registerDir dir | registerRoots roots | addRoot root => exact Iff.rfl
  | reloadRoots =>
    rw [revision, Revision.andThen, Revision.adding_act]
    exact Iff.rfl
  | replaceFile path => simp [revision, Registers, mem_changing]
  | dispatch event => exact mem_changingAll _
  | _ => exact iff_of_false List.not_mem_nil id

theorem keeps_revision (action : Action σ) :
    (life.revision host action).keeps script = true ↔ ¬life.Dismisses host script action := by
  cases action with
  | register sourcePath text | registerFile path =>
    exact iff_of_true (keeps_loading _) id
  | clear => simp [revision, Dismisses, Revision.keeping]
  | reloadRoots => simp [revision, Dismisses, Revision.andThen, Revision.keeping]
  | unregister path => exact keeps_without path
  | replaceFile path =>
    rw [revision, keeps_changing, Dismisses, not_and]
    rfl
  | dispatch event => exact (keeps_changingAll _).trans not_not.symm
  | _ => exact iff_of_true rfl id

def Kept (exec : Exec σ) (script : Script) : List (Host × Action σ) → Life σ → Prop
  | [], _ => True
  | (host, action) :: turns, life => ¬life.Dismisses host script action ∧
    ∀ life', step exec host life action = some life' → Kept exec script turns life'

def Gained (exec : Exec σ) (script : Script) (turns : List (Host × Action σ)) (life : Life σ) :
    Prop :=
  ∃ before host action after mid mid', turns = before ++ (host, action) :: after ∧
    run exec before life = some mid ∧ mid.Registers host script action ∧
      step exec host mid action = some mid' ∧ Kept exec script after mid'

theorem gained_cons {action : Action σ} {turns : List (Host × Action σ)}
    (hstep : step exec host life action = some life') :
    Gained exec script ((host, action) :: turns) life ↔
      (life.Registers host script action ∧ Kept exec script turns life') ∨
        Gained exec script turns life' := by
  constructor
  · rintro ⟨before, host', action', after, mid, mid', hturns, hrun, hregisters, hmid, hkept⟩
    cases before with
    | nil =>
      obtain ⟨heq, rfl⟩ := List.cons.inj hturns
      obtain ⟨rfl, rfl⟩ := Prod.mk.inj heq
      obtain rfl := Option.some.inj hrun
      obtain rfl := Option.some.inj (hstep.symm.trans hmid)
      exact .inl ⟨hregisters, hkept⟩
    | cons first before =>
      obtain ⟨rfl, rfl⟩ := List.cons.inj hturns
      rw [run, hstep] at hrun
      exact .inr ⟨before, host', action', after, mid, mid', rfl, hrun, hregisters, hmid, hkept⟩
  · rintro (⟨hregisters, hkept⟩ | ⟨before, host', action', after, mid, mid', rfl, hrun, hrest⟩)
    · exact ⟨[], host, action, turns, life, life', rfl, rfl, hregisters, hstep, hkept⟩
    · refine ⟨(host, action) :: before, host', action', after, mid, mid', rfl, ?_, hrest⟩
      rw [run, hstep]
      exact hrun

theorem run_gained {turns : List (Host × Action σ)} (h : run exec turns life = some life') :
    script ∈ life'.engine.registry.scripts ↔
      (script ∈ life.engine.registry.scripts ∧ Kept exec script turns life) ∨
        Gained exec script turns life := by
  induction turns generalizing life with
  | nil =>
    obtain rfl := Option.some.inj h
    simp [Kept, Gained]
  | cons turn turns ih =>
    obtain ⟨host, action⟩ := turn
    obtain ⟨life₁, hstep, h⟩ := Option.bind_eq_some_iff.mp h
    have hkept : Kept exec script ((host, action) :: turns) life ↔
        ¬life.Dismisses host script action ∧ Kept exec script turns life₁ := by
      rw [Kept, hstep]
      simp only [Option.some.injEq, forall_eq']
    rw [ih h, step_act hstep, Revision.mem_act, mem_revision, keeps_revision, gained_cons hstep,
      hkept]
    tauto

/-- A script is registered if and only if some action has registered it, and none has dropped it
since. -/
theorem run_provenance {turns : List (Host × Action σ)} {world : σ}
    (h : run exec turns (start world) = some life) (script : Script) :
    script ∈ life.engine.registry.scripts ↔ Gained exec script turns (start world) := by
  have hempty : script ∉ (start world).engine.registry.scripts := List.not_mem_nil
  rw [run_gained h, or_iff_right fun hleft => hempty hleft.1]

end Life

theorem Life.run_provenance_rootAndScript : ∃ life script,
    Life.run quiet rootAndScript (.start ()) = some life ∧
      script ∈ life.engine.registry.scripts ∧
        Gained quiet script rootAndScript (.start ()) := by
  have hrun : ((Life.run quiet rootAndScript (.start ())).bind
      (·.engine.registry.scripts.head?)).isSome = true := by
    decide +kernel
  obtain ⟨script, hscript⟩ := Option.isSome_iff_exists.mp hrun
  obtain ⟨life, hlife, hhead⟩ := Option.bind_eq_some_iff.mp hscript
  have hmem := List.mem_of_mem_head? hhead
  exact ⟨life, script, hlife, hmem, (run_provenance hlife script).mp hmem⟩

end Luaml
