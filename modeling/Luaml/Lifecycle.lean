import Luaml.Lib.Revision
import Luaml.Reload
import Luaml.Tally

/-! The life of an engine: what an embedder calls in turn, while a watcher queues the changes of
files. -/

namespace Luaml

open Rust Res

namespace LuamlEngine

def new : LuamlEngine := ⟨.empty, [], .default, .zero⟩

def registerRoots (host : Host) : List PathBuf → Nat → LuamlEngine →
    Res LuamlError Nat × LuamlEngine
  | [], total, engine => (.ok total, engine)
  | root :: roots, total, engine =>
    match engine.addRoot host root with
    | (.ok count, engine) => registerRoots host roots (total + count) engine
    | failed => failed

end LuamlEngine

/-- What is done to an engine.  `watch` comes with the answer of the notification library, `send`
is done by its thread, with the changes of a batch, and `alter` stands for whatever the embedder
does to the Lua state and the bindings. -/
inductive Action (σ : Type)
  | register (sourcePath : PathBuf) (text : Str)
  | registerFile (path : PathBuf)
  | registerDir (dir : PathBuf)
  | registerRoots (roots : List PathBuf)
  | addRoot (root : PathBuf)
  | reloadRoots
  | unregister (sourcePath : PathBuf)
  | replaceFile (path : PathBuf)
  | clear
  | setCascadeConfig (config : CascadeConfig)
  | watch (answer : Except LuamlError Unit)
  | unwatch
  | send (batch : List FileChange)
  | alter (f : σ → σ)
  | dispatch (event : FieldMap)

/-- An engine, the changes that its watcher has queued, if it has a watcher, and the world of the
bodies. -/
structure Life (σ : Type) where
  engine : LuamlEngine
  queue : Option (List FileChange)
  world : σ

/-- What a call leaves, whether it fails or not.  A panic ends the run. -/
def left {α β : Type} : Res LuamlError α × β → Option β
  | (.panic _, _) => none
  | (.ok _, b) | (.err _, b) => some b

namespace Life

variable {σ : Type}

def start (world : σ) : Life σ := ⟨.new, none, world⟩

def withEngine (life : Life σ) (engine : LuamlEngine) : Life σ := { life with engine := engine }

def withRegistry (life : Life σ) (reg : ScriptRegistry) : Life σ :=
  life.withEngine { life.engine with registry := reg }

/-- The changes that are queued are applied. -/
def drain (host : Host) (life : Life σ) : Option (Life σ) :=
  match life.queue with
  | none => some life
  | some changes =>
    (left (ScriptWatcher.applyPending host changes life.engine.registry)).map fun reg =>
      { life.withRegistry reg with queue := some [] }

def step (exec : Exec σ) (host : Host) (life : Life σ) : Action σ → Option (Life σ)
  | .register sourcePath text =>
    (left (life.engine.registry.registerText sourcePath text)).map life.withRegistry
  | .registerFile path => (left (life.engine.registry.registerFile host path)).map life.withRegistry
  | .registerDir dir => (left (life.engine.registry.registerDir host dir)).map life.withRegistry
  | .registerRoots roots =>
    (left (LuamlEngine.registerRoots host roots 0 life.engine)).map life.withEngine
  | .addRoot root => (left (life.engine.addRoot host root)).map life.withEngine
  | .reloadRoots => (left (life.engine.reloadRoots host)).map life.withEngine
  | .unregister sourcePath =>
    some (life.withRegistry (life.engine.registry.unregister sourcePath).2)
  | .replaceFile path => (left (life.engine.replaceFile host path)).map life.withEngine
  | .clear => some (life.withRegistry life.engine.registry.clear)
  | .setCascadeConfig config => some (life.withEngine { life.engine with cascadeConfig := config })
  | .watch (.ok ()) => some { life with queue := some [] }
  | .watch (.error _) => some life
  | .unwatch => some { life with queue := none }
  | .send batch => some { life with queue := life.queue.map (· ++ batch) }
  | .alter f => some { life with world := f life.world }
  | .dispatch event => do
    let life ← life.drain host
    match life.engine.dispatch exec life.world event with
    | .ok run =>
      some { life.withEngine { life.engine with stats := run.stats } with world := run.world }
    | _ => none

def run (exec : Exec σ) : List (Host × Action σ) → Life σ → Option (Life σ)
  | [], life => some life
  | (host, action) :: turns, life => do
    let life ← step exec host life action
    run exec turns life

end Life

namespace ScriptRegistry

def without (path : PathBuf) : Revision Script := .keeping fun s => !s.sourcePath.same path

def loading : Res LuamlError Script → Revision Script
  | .ok script => .adding [script]
  | _ => .nothing

def changing (host : Host) : FileChange → Revision Script
  | .createOrModify path =>
    match host.readToString path with
    | .ok text => (without path).andThen (loading (Parser.parseLuaml path text))
    | _ => .nothing
  | .remove path => without path

def changingAll (host : Host) : List FileChange → Revision Script
  | [] => .nothing
  | change :: changes => (changing host change).andThen (changingAll host changes)

def newRootScripts (host : Host) : List PathBuf → List PathBuf → List Script
  | _, [] => []
  | tracked, root :: roots =>
    if tracked.any (PathBuf.same · root) then newRootScripts host tracked roots
    else
      match dirScripts host root with
      | (.ok (), scripts) => scripts ++ newRootScripts host (tracked ++ [root]) roots
      | (_, scripts) => scripts

variable {host : Host} {reg reg' : ScriptRegistry}

theorem registerText_act {path : PathBuf} {text : Str}
    (h : left (reg.registerText path text) = some reg') :
    reg'.scripts = (loading (Parser.parseLuaml path text)).act reg.scripts := by
  rw [registerText] at h
  cases hparse : Parser.parseLuaml path text with
  | panic c => simp [hparse, left] at h
  | ok script | err e =>
    simp only [hparse, left, Option.some.injEq] at h
    simp [← h, loading]

theorem registerFile_act {path : PathBuf} (h : left (reg.registerFile host path) = some reg') :
    reg'.scripts = (loading (load host path)).act reg.scripts := by
  rw [registerFile_eq] at h
  cases hload : load host path with
  | panic c => simp [hload, left] at h
  | ok script | err e =>
    simp only [hload, left, Option.some.injEq] at h
    simp [← h, loading]

theorem left_eq_some {α β : Type} {r : Res LuamlError α} {b b' : β} (h : left (r, b) = some b') :
    b = b' := by
  cases r <;> simp [left] at h
  all_goals exact h

theorem registerDir_act {dir : PathBuf} (h : left (reg.registerDir host dir) = some reg') :
    reg'.scripts = (Revision.adding (dirScripts host dir).2).act reg.scripts := by
  rw [registerDir_eq] at h
  simp [← left_eq_some h]

theorem unregister_act (path : PathBuf) :
    (reg.unregister path).2.scripts = (without path).act reg.scripts := by
  simp [unregister, without]

theorem replace_act {path : PathBuf} {text : Str} (h : left (reg.replace path text) = some reg') :
    reg'.scripts =
      ((without path).andThen (loading (Parser.parseLuaml path text))).act reg.scripts := by
  cases hparse : Parser.parseLuaml path text with
  | panic c => simp [replace_of_panic hparse, left] at h
  | ok script =>
    rw [replace_of_ok hparse] at h
    simp [← left_eq_some h, loading, unregister_act]
  | err e =>
    rw [replace_of_err hparse] at h
    simp [← left_eq_some h, loading, unregister_act]

theorem applyChange_act {change : FileChange}
    (h : left (ScriptWatcher.applyChange host reg change) = some reg') :
    reg'.scripts = (changing host change).act reg.scripts := by
  cases change with
  | remove path =>
    rw [← left_eq_some h, changing, unregister_act]
  | createOrModify path =>
    rw [ScriptWatcher.applyChange] at h
    rw [changing]
    cases hread : host.readToString path with
    | panic c => simp [hread, left] at h
    | err e =>
      simp only [hread, left, Option.some.injEq] at h
      simp [← h]
    | ok text =>
      refine replace_act ?_
      simp only [hread] at h
      cases hreplace : reg.replace path text with
      | mk result reg₁ =>
        rw [hreplace] at h
        cases result with
        | panic c => simp [left] at h
        | ok replaced => exact h
        | err e => exact h

theorem applyChange_ne_err (change : FileChange) (e : LuamlError) :
    (ScriptWatcher.applyChange host reg change).1 ≠ .err e := by
  cases change with
  | remove path => simp [ScriptWatcher.applyChange]
  | createOrModify path =>
    rw [ScriptWatcher.applyChange]
    split
    · split <;> simp
    · simp
    · simp

theorem left_applyPending_cons (host : Host) (change : FileChange) (changes : List FileChange)
    (reg : ScriptRegistry) :
    left (ScriptWatcher.applyPending host (change :: changes) reg) =
      (left (ScriptWatcher.applyChange host reg change)).bind fun reg =>
        left (ScriptWatcher.applyPending host changes reg) := by
  rw [ScriptWatcher.applyPending]
  have herr : ∀ e, (ScriptWatcher.applyChange host reg change).1 ≠ .err e :=
    applyChange_ne_err change
  cases hchange : ScriptWatcher.applyChange host reg change with
  | mk result reg₁ =>
    rw [hchange] at herr
    cases result with
    | panic c => rfl
    | err e => exact absurd rfl (herr e)
    | ok touched =>
      dsimp only [left, Option.bind_some]
      obtain ⟨result', reg₂⟩ := ScriptWatcher.applyPending host changes reg₁
      cases result' <;> rfl

theorem applyPending_act {changes : List FileChange}
    (h : left (ScriptWatcher.applyPending host changes reg) = some reg') :
    reg'.scripts = (changingAll host changes).act reg.scripts := by
  induction changes generalizing reg with
  | nil =>
    obtain rfl := Option.some.inj h
    simp [changingAll]
  | cons change changes ih =>
    rw [left_applyPending_cons] at h
    obtain ⟨reg₁, hreg₁, h⟩ := Option.bind_eq_some_iff.mp h
    rw [changingAll, Revision.andThen_act, ← applyChange_act hreg₁]
    exact ih h

end ScriptRegistry

open ScriptRegistry

theorem addRoot_act {host : Host} {engine engine' : LuamlEngine} {root : PathBuf}
    (h : left (engine.addRoot host root) = some engine') :
    engine'.registry.scripts =
      (Revision.adding (newRootScripts host engine.roots [root])).act engine.registry.scripts := by
  rw [LuamlEngine.addRoot] at h
  rw [newRootScripts]
  split_ifs at h ⊢
  · obtain rfl := left_eq_some h
    simp [newRootScripts]
  · rw [registerDir_eq] at h
    cases hdir : dirScripts host root with
    | mk result scripts =>
      rw [hdir] at h
      cases result <;> obtain rfl := left_eq_some h <;> simp [newRootScripts]

theorem registerRoots_act {host : Host} {roots : List PathBuf} {total : Nat}
    {engine engine' : LuamlEngine}
    (h : left (LuamlEngine.registerRoots host roots total engine) = some engine') :
    engine'.registry.scripts =
      (Revision.adding (newRootScripts host engine.roots roots)).act engine.registry.scripts := by
  induction roots generalizing total engine with
  | nil =>
    obtain rfl := Option.some.inj h
    simp [newRootScripts]
  | cons root roots ih =>
    rw [LuamlEngine.registerRoots, LuamlEngine.addRoot] at h
    rw [newRootScripts]
    split_ifs at h ⊢
    · exact ih h
    · rw [registerDir_eq] at h
      cases hdir : dirScripts host root with
      | mk result scripts =>
        rw [hdir] at h
        cases result with
        | ok u =>
          have hrest := ih h
          simp only [Revision.adding_act] at hrest ⊢
          rw [hrest, List.append_assoc]
        | err e | panic c =>
          obtain rfl := left_eq_some h
          simp

namespace Life

variable {σ : Type} {exec : Exec σ} {host : Host} {life life' : Life σ}

def revision (host : Host) (life : Life σ) : Action σ → Revision Script
  | .register sourcePath text => loading (Parser.parseLuaml sourcePath text)
  | .registerFile path => loading (load host path)
  | .registerDir dir => .adding (dirScripts host dir).2
  | .registerRoots roots => .adding (newRootScripts host life.engine.roots roots)
  | .addRoot root => .adding (newRootScripts host life.engine.roots [root])
  | .reloadRoots =>
    (Revision.keeping fun _ => false).andThen
      (.adding (LuamlEngine.rootScripts host life.engine.roots).2)
  | .unregister sourcePath => without sourcePath
  | .replaceFile path => changing host (.createOrModify path)
  | .clear => .keeping fun _ => false
  | .dispatch _ => changingAll host (life.queue.getD [])
  | _ => .nothing

theorem drain_act (h : life.drain host = some life') :
    life'.engine.registry.scripts =
      (changingAll host (life.queue.getD [])).act life.engine.registry.scripts := by
  rw [drain] at h
  split at h
  · rename_i hqueue
    obtain rfl := Option.some.inj h
    simp [hqueue, changingAll]
  · rename_i changes hqueue
    obtain ⟨reg, hreg, rfl⟩ := Option.map_eq_some_iff.mp h
    rw [hqueue]
    exact applyPending_act hreg

theorem replaceFile_act {engine engine' : LuamlEngine} {path : PathBuf}
    (h : left (engine.replaceFile host path) = some engine') :
    engine'.registry.scripts =
      (changing host (.createOrModify path)).act engine.registry.scripts := by
  rw [LuamlEngine.replaceFile] at h
  rw [changing]
  cases hread : host.readToString path with
  | panic c => simp [hread, left] at h
  | err e =>
    simp only [hread] at h
    simp [← left_eq_some h]
  | ok text =>
    simp only [hread] at h
    obtain rfl := left_eq_some h
    have hleft : left (engine.registry.replace path text) =
        some (engine.registry.replace path text).2 := by
      cases hreplace : engine.registry.replace path text with
      | mk result reg =>
        rw [hreplace] at h
        cases result with
        | panic c => simp [left] at h
        | ok replaced => rfl
        | err e => rfl
    exact replace_act hleft

theorem step_act {action : Action σ} (h : step exec host life action = some life') :
    life'.engine.registry.scripts =
      (life.revision host action).act life.engine.registry.scripts := by
  cases action with
  | register sourcePath text =>
    obtain ⟨reg, hreg, rfl⟩ := Option.map_eq_some_iff.mp h
    exact registerText_act hreg
  | registerFile path =>
    obtain ⟨reg, hreg, rfl⟩ := Option.map_eq_some_iff.mp h
    exact registerFile_act hreg
  | registerDir dir =>
    obtain ⟨reg, hreg, rfl⟩ := Option.map_eq_some_iff.mp h
    exact registerDir_act hreg
  | registerRoots roots =>
    obtain ⟨engine, hengine, rfl⟩ := Option.map_eq_some_iff.mp h
    exact registerRoots_act hengine
  | addRoot root =>
    obtain ⟨engine, hengine, rfl⟩ := Option.map_eq_some_iff.mp h
    exact addRoot_act hengine
  | reloadRoots =>
    obtain ⟨engine, hengine, rfl⟩ := Option.map_eq_some_iff.mp h
    rw [LuamlEngine.reloadRoots, LuamlEngine.registerDirs_eq] at hengine
    obtain rfl := left_eq_some hengine
    simp [revision, withEngine, clear, ScriptRegistry.empty]
  | unregister sourcePath =>
    obtain rfl := Option.some.inj h
    exact unregister_act sourcePath
  | replaceFile path =>
    obtain ⟨engine, hengine, rfl⟩ := Option.map_eq_some_iff.mp h
    exact replaceFile_act hengine
  | clear =>
    obtain rfl := Option.some.inj h
    simp [revision, withRegistry, withEngine, ScriptRegistry.clear, ScriptRegistry.empty]
  | setCascadeConfig config | unwatch | send batch | alter f =>
    obtain rfl := Option.some.inj h
    simp [revision, withEngine]
  | watch answer =>
    cases answer <;> obtain rfl := Option.some.inj h <;> simp [revision]
  | dispatch event =>
    obtain ⟨drained, hdrained, h⟩ := Option.bind_eq_some_iff.mp h
    dsimp only at h
    split at h
    · obtain rfl := Option.some.inj h
      have hact := drain_act hdrained
      exact hact
    · cases h

def history (exec : Exec σ) : List (Host × Action σ) → Life σ → List (Revision Script)
  | [], _ => []
  | (host, action) :: turns, life =>
    life.revision host action ::
      match step exec host life action with
      | some life => history exec turns life
      | none => []

theorem run_append (turns turns' : List (Host × Action σ)) (life : Life σ) :
    run exec (turns ++ turns') life = (run exec turns life).bind (run exec turns') := by
  induction turns generalizing life with
  | nil => rfl
  | cons turn turns ih =>
    rw [List.cons_append, run, run]
    simp only [Option.bind_eq_bind, Option.bind_assoc]
    congr 1
    funext life₁
    exact ih life₁

theorem run_replay {turns : List (Host × Action σ)} (h : run exec turns life = some life') :
    life'.engine.registry.scripts =
      Revision.replay (history exec turns life) life.engine.registry.scripts := by
  induction turns generalizing life with
  | nil =>
    obtain rfl := Option.some.inj h
    rfl
  | cons turn turns ih =>
    obtain ⟨host, action⟩ := turn
    obtain ⟨life₁, hstep, h⟩ := Option.bind_eq_some_iff.mp h
    rw [history, hstep, Revision.replay_cons, ← step_act hstep]
    exact ih h

end Life

end Luaml
