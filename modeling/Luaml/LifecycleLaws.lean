import Luaml.Lifecycle
import Luaml.Replies

namespace Luaml

open Rust Res ScriptRegistry

def Script.Parsed (script : Script) : Prop :=
  ∃ text, Parser.parseLuaml script.sourcePath text = .ok script

theorem parsed_of_parseLuaml {path : PathBuf} {text : Str} {script : Script}
    (h : Parser.parseLuaml path text = .ok script) : script.Parsed := by
  obtain ⟨_, _, _, _, haccepted⟩ := Parser.parseLuaml_eq_ok.mp h
  exact ⟨text, by rw [haccepted.sourcePath_eq]; exact h⟩

theorem parsed_of_load {host : Host} {path : PathBuf} {script : Script}
    (h : load host path = .ok script) : script.Parsed := by
  obtain ⟨text, -, hparse⟩ := bind_eq_ok.mp h
  exact parsed_of_parseLuaml hparse

section Adds

variable {host : Host} {script : Script}

theorem parsed_of_loading {r : Res LuamlError Script} (hr : ∀ s, r = .ok s → s.Parsed)
    (h : script ∈ (loading r).adds) : script.Parsed := by
  cases r with
  | ok s =>
    obtain rfl := List.mem_singleton.mp h
    exact hr _ rfl
  | err e | panic c => exact absurd h List.not_mem_nil

theorem parsed_of_changing {change : FileChange} (h : script ∈ (changing host change).adds) :
    script.Parsed := by
  cases change with
  | remove path => exact absurd h List.not_mem_nil
  | createOrModify path =>
    rw [changing] at h
    split at h
    · rcases Revision.mem_adds_andThen h with h | h
      · exact absurd h List.not_mem_nil
      · exact parsed_of_loading (fun s hs => parsed_of_parseLuaml hs) h
    · exact absurd h List.not_mem_nil

theorem parsed_of_changingAll {changes : List FileChange}
    (h : script ∈ (changingAll host changes).adds) : script.Parsed := by
  induction changes with
  | nil => exact absurd h List.not_mem_nil
  | cons change changes ih =>
    rcases Revision.mem_adds_andThen h with h | h
    · exact parsed_of_changing h
    · exact ih h

theorem parsed_of_loadAll {manifests : Manifests} {files : List PathBuf}
    (h : script ∈ (loadAll host manifests files).2) : script.Parsed := by
  induction files with
  | nil => exact absurd h List.not_mem_nil
  | cons entry files ih =>
    rw [loadAll] at h
    cases hload : load host entry with
    | err e | panic c => simp [hload] at h
    | ok s =>
      simp only [hload] at h
      split at h
      · obtain rfl := List.mem_singleton.mp h
        exact parsed_of_load hload
      · rcases List.mem_cons.mp h with rfl | h
        · exact parsed_of_load hload
        · exact ih h

theorem parsed_of_dirScripts {dir : PathBuf} (h : script ∈ (dirScripts host dir).2) :
    script.Parsed := by
  rw [dirScripts] at h
  split at h
  · exact absurd h List.not_mem_nil
  · split at h
    · exact absurd h List.not_mem_nil
    · exact absurd h List.not_mem_nil
    · exact parsed_of_loadAll h

theorem parsed_of_rootScripts {roots : List PathBuf}
    (h : script ∈ (LuamlEngine.rootScripts host roots).2) : script.Parsed := by
  induction roots with
  | nil => exact absurd h List.not_mem_nil
  | cons root roots ih =>
    rw [LuamlEngine.rootScripts] at h
    have hdir : script ∈ (dirScripts host root).2 → script.Parsed := parsed_of_dirScripts
    cases hscripts : dirScripts host root with
    | mk result scripts =>
      rw [hscripts] at h hdir
      cases result with
      | ok u => exact (List.mem_append.mp h).elim hdir ih
      | err e | panic c => exact hdir h

theorem parsed_of_newRootScripts {tracked roots : List PathBuf}
    (h : script ∈ newRootScripts host tracked roots) : script.Parsed := by
  induction roots generalizing tracked with
  | nil => exact absurd h List.not_mem_nil
  | cons root roots ih =>
    rw [newRootScripts] at h
    have hdir : script ∈ (dirScripts host root).2 → script.Parsed := parsed_of_dirScripts
    split at h
    · exact ih h
    · cases hscripts : dirScripts host root with
      | mk result scripts =>
        rw [hscripts] at h hdir
        cases result with
        | ok u => exact (List.mem_append.mp h).elim hdir ih
        | err e | panic c => exact hdir h

end Adds

structure ErrorsOf (P : List Component → Prop) (errors : ErrorsPerScript) : Prop where
  keys : (errors.map Prod.fst).Nodup
  kinds : ∀ e ∈ errors, e.2.kind = .body
  paths : ∀ e ∈ errors, P e.1

section Errors

variable {P : List Component → Prop} {errors : ErrorsPerScript}

theorem ErrorsOf.noteOutcome (h : ErrorsOf P errors) {o : ClauseOutcome}
    (ho : o.synthetic = false → P o.scriptPath.components) :
    ErrorsOf P (noteOutcome errors o) := by
  rw [Luaml.noteOutcome]
  cases hresult : o.result with
  | ok success => exact h
  | error e =>
    dsimp only
    split_ifs with hbody
    · have hpath := ho (by simp [ClauseOutcome.synthetic, ClauseOutcome.errKind, hresult, hbody])
      refine ⟨Map.nodup_keys_insert h.keys _ _, fun f hf => ?_, fun f hf => ?_⟩
      · rcases Map.mem_insert hf with rfl | hf
        · exact hbody
        · exact h.kinds f hf
      · rcases Map.mem_insert hf with rfl | hf
        · exact hpath
        · exact h.paths f hf
    · exact h

theorem ErrorsOf.noteOutcomes (h : ErrorsOf P errors) {outcomes : List (UInt32 × ClauseOutcome)}
    (houtcomes : ∀ o ∈ outcomes, o.2.synthetic = false → P o.2.scriptPath.components) :
    ErrorsOf P (noteOutcomes errors outcomes) := by
  induction outcomes generalizing errors with
  | nil => exact h
  | cons o outcomes ih =>
    rw [List.forall_mem_cons] at houtcomes
    exact ih (h.noteOutcome houtcomes.1) houtcomes.2

theorem LuamlEngine.dispatch_errors {σ : Type} {engine : LuamlEngine} {exec : Exec σ} {world : σ}
    {event : FieldMap} {run : Run σ} (h : engine.dispatch exec world event = .ok run)
    (hscripts : ∀ s ∈ engine.registry.scripts, P s.sourcePath.components)
    (herrors : ErrorsOf P engine.stats.lastErrorPerScript) :
    ErrorsOf P run.stats.lastErrorPerScript := by
  rw [(engine.counted_of_dispatch h).errors]
  refine herrors.noteOutcomes fun o ho hreal => ?_
  have hstart : Run.Traced engine.registry [] (engine.start world) := by
    simp [Run.Traced, start]
  obtain ⟨_, _, m, hm, hsource⟩ :=
    Run.dispatchWithin_traced exec _ _ _ _ _ _ h hstart o ho hreal
  have hpath : o.2.scriptPath = m.script.sourcePath := congrArg Prod.fst hsource
  rw [hpath]
  exact hscripts _ (ScriptRegistry.script_mem hm)

end Errors

def Distinct (roots : List PathBuf) : Prop := roots.Pairwise fun r r' => ¬r.same r'

theorem Distinct.add {roots : List PathBuf} (h : Distinct roots) {root : PathBuf}
    (hroot : ¬roots.any (PathBuf.same · root)) : Distinct (roots ++ [root]) := by
  refine List.pairwise_append.mpr ⟨h, List.pairwise_singleton _ _, fun r hr r' hr' hsame => ?_⟩
  obtain rfl := List.mem_singleton.mp hr'
  exact hroot (List.any_eq_true.mpr ⟨r, hr, hsame⟩)

structure Tracks (engine engine' : LuamlEngine) : Prop where
  stats : engine'.stats = engine.stats
  roots : Distinct engine.roots → Distinct engine'.roots

section Tracks

variable {host : Host} {engine engine' : LuamlEngine}

theorem Tracks.refl (engine : LuamlEngine) : Tracks engine engine := ⟨rfl, id⟩

theorem Tracks.trans {engine'' : LuamlEngine} (h : Tracks engine engine')
    (h' : Tracks engine' engine'') : Tracks engine engine'' :=
  ⟨h'.stats.trans h.stats, h'.roots ∘ h.roots⟩

theorem addRoot_tracks {root : PathBuf} (h : left (engine.addRoot host root) = some engine') :
    Tracks engine engine' := by
  rw [LuamlEngine.addRoot] at h
  split_ifs at h with hroot
  · obtain rfl := left_eq_some h
    exact .refl engine
  · split at h <;> obtain rfl := left_eq_some h
    · exact ⟨rfl, fun hroots => hroots.add hroot⟩
    · exact ⟨rfl, id⟩

theorem registerRoots_tracks {roots : List PathBuf} {total : Nat}
    (h : left (LuamlEngine.registerRoots host roots total engine) = some engine') :
    Tracks engine engine' := by
  induction roots generalizing total engine with
  | nil =>
    obtain rfl := Option.some.inj h
    exact .refl engine
  | cons root roots ih =>
    rw [LuamlEngine.registerRoots] at h
    split at h
    · rename_i count engine₁ heq
      have hfirst : left (engine.addRoot host root) = some engine₁ := by rw [heq]; rfl
      exact (addRoot_tracks hfirst).trans (ih h)
    · exact addRoot_tracks h

theorem reloadRoots_tracks (h : left (engine.reloadRoots host) = some engine') :
    Tracks engine engine' := by
  obtain rfl := left_eq_some h
  exact ⟨rfl, id⟩

theorem replaceFile_tracks {path : PathBuf}
    (h : left (engine.replaceFile host path) = some engine') : Tracks engine engine' := by
  rw [LuamlEngine.replaceFile] at h
  split at h <;> obtain rfl := left_eq_some h <;> exact ⟨rfl, id⟩

end Tracks

namespace Life

variable {σ : Type} {exec : Exec σ} {host : Host} {life life' : Life σ}

theorem parsed_of_revision {action : Action σ} {script : Script}
    (h : script ∈ (life.revision host action).adds) : script.Parsed := by
  cases action with
  | register sourcePath text => exact parsed_of_loading (fun s hs => parsed_of_parseLuaml hs) h
  | registerFile path => exact parsed_of_loading (fun s hs => parsed_of_load hs) h
  | registerDir dir => exact parsed_of_dirScripts h
  | registerRoots roots | addRoot root => exact parsed_of_newRootScripts h
  | reloadRoots =>
    rcases Revision.mem_adds_andThen h with h | h
    · exact absurd h List.not_mem_nil
    · exact parsed_of_rootScripts h
  | replaceFile path => exact parsed_of_changing h
  | dispatch event => exact parsed_of_changingAll h
  | _ => exact absurd h List.not_mem_nil

def dispatchCount : List (Host × Action σ) → Nat
  | [] => 0
  | (_, .dispatch _) :: turns => dispatchCount turns + 1
  | _ :: turns => dispatchCount turns

structure Sound (P : List Component → Prop) (life : Life σ) : Prop where
  parsed : ∀ s ∈ life.engine.registry.scripts, s.Parsed
  paths : ∀ s ∈ life.engine.registry.scripts, P s.sourcePath.components
  roots : Distinct life.engine.roots
  errors : ErrorsOf P life.engine.stats.lastErrorPerScript

variable {P : List Component → Prop}

theorem drain_tracks (h : life.drain host = some life') : Tracks life.engine life'.engine := by
  rw [drain] at h
  split at h
  · obtain rfl := Option.some.inj h
    exact .refl life.engine
  · obtain ⟨reg, -, rfl⟩ := Option.map_eq_some_iff.mp h
    exact ⟨rfl, id⟩

theorem step_dispatch {event : FieldMap}
    (h : step exec host life (.dispatch event) = some life') :
    ∃ drained run, life.drain host = some drained ∧
      drained.engine.dispatch exec drained.world event = .ok run ∧
      life' = { drained with
        engine := { drained.engine with stats := run.stats }, world := run.world } := by
  obtain ⟨drained, hdrained, h⟩ := Option.bind_eq_some_iff.mp h
  dsimp only at h
  split at h
  · rename_i run hrun
    exact ⟨drained, run, hdrained, hrun, (Option.some.inj h).symm⟩
  · cases h

theorem step_tracks {action : Action σ} (haction : ∀ event, action ≠ .dispatch event)
    (h : step exec host life action = some life') : Tracks life.engine life'.engine := by
  cases action with
  | register sourcePath text | registerFile path | registerDir dir =>
    obtain ⟨reg, -, rfl⟩ := Option.map_eq_some_iff.mp h
    exact ⟨rfl, id⟩
  | registerRoots roots =>
    obtain ⟨engine, hengine, rfl⟩ := Option.map_eq_some_iff.mp h
    exact registerRoots_tracks hengine
  | addRoot root =>
    obtain ⟨engine, hengine, rfl⟩ := Option.map_eq_some_iff.mp h
    exact addRoot_tracks hengine
  | reloadRoots =>
    obtain ⟨engine, hengine, rfl⟩ := Option.map_eq_some_iff.mp h
    exact reloadRoots_tracks hengine
  | replaceFile path =>
    obtain ⟨engine, hengine, rfl⟩ := Option.map_eq_some_iff.mp h
    exact replaceFile_tracks hengine
  | unregister sourcePath | clear | setCascadeConfig config | unwatch | send batch | alter f =>
    obtain rfl := Option.some.inj h
    exact ⟨rfl, id⟩
  | watch answer => cases answer <;> obtain rfl := Option.some.inj h <;> exact .refl life.engine
  | dispatch event => exact absurd rfl (haction event)

theorem step_scripts {Q : Script → Prop} {action : Action σ}
    (h : step exec host life action = some life')
    (hlife : ∀ s ∈ life.engine.registry.scripts, Q s)
    (hadds : ∀ s ∈ (life.revision host action).adds, Q s) :
    ∀ s ∈ life'.engine.registry.scripts, Q s := by
  rw [step_act h]
  intro s hs
  rcases Revision.mem_act.mp hs with ⟨hs, -⟩ | hs
  · exact hlife s hs
  · exact hadds s hs

theorem step_sound {action : Action σ} (h : step exec host life action = some life')
    (hadds : ∀ s ∈ (life.revision host action).adds, P s.sourcePath.components)
    (hlife : life.Sound P) : life'.Sound P := by
  have hparsed := step_scripts h hlife.parsed fun s hs => parsed_of_revision hs
  have hpaths := step_scripts (Q := fun s => P s.sourcePath.components) h hlife.paths hadds
  by_cases haction : ∃ event, action = .dispatch event
  · obtain ⟨event, rfl⟩ := haction
    obtain ⟨drained, run, hdrained, hrun, rfl⟩ := step_dispatch h
    have htracks := drain_tracks hdrained
    refine ⟨hparsed, hpaths, htracks.roots hlife.roots, ?_⟩
    exact LuamlEngine.dispatch_errors hrun hpaths (htracks.stats ▸ hlife.errors)
  · have htracks := step_tracks (fun event hevent => haction ⟨event, hevent⟩) h
    exact ⟨hparsed, hpaths, htracks.roots hlife.roots, htracks.stats ▸ hlife.errors⟩

theorem run_sound {turns : List (Host × Action σ)} (h : run exec turns life = some life')
    (hadds : ∀ r ∈ history exec turns life, ∀ s ∈ r.adds, P s.sourcePath.components)
    (hlife : life.Sound P) : life'.Sound P := by
  induction turns generalizing life with
  | nil =>
    obtain rfl := Option.some.inj h
    exact hlife
  | cons turn turns ih =>
    obtain ⟨host, action⟩ := turn
    obtain ⟨life₁, hstep, h⟩ := Option.bind_eq_some_iff.mp h
    rw [history, hstep, List.forall_mem_cons] at hadds
    exact ih h hadds.2 (step_sound hstep hadds.1 hlife)

theorem run_dispatches {turns : List (Host × Action σ)} (h : run exec turns life = some life') :
    life'.engine.stats.dispatches = life.engine.stats.dispatches + dispatchCount turns := by
  induction turns generalizing life with
  | nil =>
    obtain rfl := Option.some.inj h
    rfl
  | cons turn turns ih =>
    obtain ⟨host, action⟩ := turn
    obtain ⟨life₁, hstep, h⟩ := Option.bind_eq_some_iff.mp h
    rw [ih h]
    by_cases haction : ∃ event, action = .dispatch event
    · obtain ⟨event, rfl⟩ := haction
      obtain ⟨drained, run, hdrained, hrun, rfl⟩ := step_dispatch hstep
      rw [dispatchCount, (LuamlEngine.counted_of_dispatch hrun).dispatches,
        (drain_tracks hdrained).stats]
      omega
    · have hother : ∀ event, action ≠ .dispatch event := fun event hevent =>
        haction ⟨event, hevent⟩
      rw [(step_tracks hother hstep).stats, dispatchCount]
      exact fun _ event heq => hother event (Prod.mk.inj heq).2

theorem start_sound (world : σ) : (start world).Sound P where
  parsed := by simp [start, LuamlEngine.new, ScriptRegistry.empty]
  paths := by simp [start, LuamlEngine.new, ScriptRegistry.empty]
  roots := List.Pairwise.nil
  errors := ⟨List.nodup_nil, by simp [start, LuamlEngine.new, EngineStats.zero],
    by simp [start, LuamlEngine.new, EngineStats.zero]⟩

def AddedUnder (log : List (Revision Script)) (path : List Component) : Prop :=
  ∃ r ∈ log, ∃ s ∈ r.adds, s.sourcePath.components = path

/-- Whatever an engine has been through, its scripts are those of its history, in order, each is
what the parser makes of some text under its path, no root is tracked twice, the errors that are
noted are of bodies, one for a path, under paths at which scripts have been registered, and every
dispatch is counted. -/
theorem run_history {turns : List (Host × Action σ)} {world : σ}
    (h : run exec turns (start world) = some life) :
    life.engine.registry.scripts = Revision.replay (history exec turns (start world)) [] ∧
      life.Sound (AddedUnder (history exec turns (start world))) ∧
      life.engine.stats.dispatches = dispatchCount turns := by
  have hsound := run_sound h (fun r hr s hs => ⟨r, hr, s, hs, rfl⟩)
    (start_sound (P := AddedUnder (history exec turns (start world))) world)
  have hcount := run_dispatches h
  exact ⟨run_replay h, hsound, by simpa [start, LuamlEngine.new, EngineStats.zero] using hcount⟩

end Life

theorem registerRoots_of_distinct {host : Host} {roots : List PathBuf} (total : Nat)
    {engine : LuamlEngine} (h : Distinct (engine.roots ++ roots)) :
    (LuamlEngine.registerRoots host roots total engine).1 =
        ((LuamlEngine.rootScripts host roots).1 >>= fun _ =>
          .ok (total + (LuamlEngine.rootScripts host roots).2.length)) ∧
      (LuamlEngine.registerRoots host roots total engine).2.registry.scripts =
        engine.registry.scripts ++ (LuamlEngine.rootScripts host roots).2 ∧
      ((LuamlEngine.rootScripts host roots).1 = .ok () →
        (LuamlEngine.registerRoots host roots total engine).2.roots = engine.roots ++ roots) := by
  induction roots generalizing total engine with
  | nil => simp [LuamlEngine.registerRoots, LuamlEngine.rootScripts]
  | cons root roots ih =>
    have hroot : ¬engine.roots.any (PathBuf.same · root) := by
      intro hany
      obtain ⟨r, hr, hsame⟩ := List.any_eq_true.mp hany
      exact (List.pairwise_append.mp h).2.2 r hr root List.mem_cons_self hsame
    rw [LuamlEngine.registerRoots, LuamlEngine.addRoot, if_neg hroot, LuamlEngine.rootScripts,
      registerDir_eq]
    cases hdir : dirScripts host root with
    | mk result scripts =>
      cases result with
      | err e | panic c => simp
      | ok u =>
        rw [List.append_cons] at h
        let added : LuamlEngine :=
          { engine with
            registry := ⟨engine.registry.scripts ++ scripts⟩
            roots := engine.roots ++ [root] }
        have hadded : Distinct (added.roots ++ roots) := h
        obtain ⟨hresult, hscripts, hroots⟩ := ih (total + scripts.length) hadded
        simp only [ok_bind]
        refine ⟨?_, ?_, ?_⟩
        · rw [hresult]
          simp [Nat.add_assoc]
        · rw [hscripts]
          exact List.append_assoc _ _ _
        · intro hok
          rw [hroots hok]
          exact List.append_assoc _ _ _

theorem reloadRoots_eq (host : Host) (engine : LuamlEngine) :
    engine.reloadRoots host =
      ((LuamlEngine.rootScripts host engine.roots).1 >>= fun _ =>
          .ok (LuamlEngine.rootScripts host engine.roots).2.length,
        { engine with registry := ⟨(LuamlEngine.rootScripts host engine.roots).2⟩ }) := by
  rw [LuamlEngine.reloadRoots, LuamlEngine.registerDirs_eq]
  simp [ScriptRegistry.clear, ScriptRegistry.empty]

/-- Whatever an engine has been through, reloading its roots has the result, and leaves the scripts,
of registering these roots with a new engine, whose roots they then are; and it does not matter how
often it is done. -/
theorem Life.run_reload {σ : Type} {exec : Exec σ} {turns : List (Host × Action σ)} {world : σ}
    {life : Life σ} (h : run exec turns (start world) = some life) (host : Host) :
    (life.engine.reloadRoots host).1 =
        (LuamlEngine.registerRoots host life.engine.roots 0 .new).1 ∧
      (life.engine.reloadRoots host).2.registry =
        (LuamlEngine.registerRoots host life.engine.roots 0 .new).2.registry ∧
      (∀ n, (life.engine.reloadRoots host).1 = .ok n →
        (LuamlEngine.registerRoots host life.engine.roots 0 .new).2.roots = life.engine.roots ∧
          (life.engine.reloadRoots host).2.registry.scripts.length = n) ∧
      (life.engine.reloadRoots host).2.reloadRoots host = life.engine.reloadRoots host := by
  have hdistinct := (run_sound (P := fun _ => True) h (fun _ _ _ _ => trivial)
    (start_sound world)).roots
  have hnew : Distinct (LuamlEngine.new.roots ++ life.engine.roots) := by
    simpa [LuamlEngine.new] using hdistinct
  obtain ⟨hresult, hscripts, hroots⟩ := registerRoots_of_distinct 0 hnew
  have hregistry : (LuamlEngine.registerRoots host life.engine.roots 0 .new).2.registry =
      ⟨(LuamlEngine.rootScripts host life.engine.roots).2⟩ :=
    congrArg ScriptRegistry.mk (by simpa [LuamlEngine.new, ScriptRegistry.empty] using hscripts)
  rw [hresult, hregistry, reloadRoots_eq]
  refine ⟨by simp, rfl, fun n hn => ?_, by rw [reloadRoots_eq]⟩
  obtain ⟨u, hok, hn⟩ := bind_eq_ok.mp hn
  exact ⟨by simpa [LuamlEngine.new] using hroots hok, Res.ok.inj hn⟩

def rootAndScript : List (Host × Action Unit) :=
  [(ScriptWatcher.oneScript ScriptWatcher.plainText, .addRoot ⟨"d".toList⟩),
    (ScriptWatcher.oneScript ScriptWatcher.plainText,
      .register ⟨"c.luaml".toList⟩ ScriptWatcher.plainText)]

def quiet : Exec Unit := fun world _ => (world, .ok [])

theorem Life.run_reload_rootAndScript :
    ∃ life, Life.run quiet rootAndScript (.start ()) = some life ∧
      (life.engine.reloadRoots (ScriptWatcher.oneScript ScriptWatcher.plainText)).2.registry =
        (LuamlEngine.registerRoots (ScriptWatcher.oneScript ScriptWatcher.plainText)
          life.engine.roots 0 .new).2.registry := by
  have hrun : (Life.run quiet rootAndScript (.start ())).isSome = true := by decide +kernel
  obtain ⟨life, hlife⟩ := Option.isSome_iff_exists.mp hrun
  exact ⟨life, hlife, (run_reload hlife _).2.1⟩

theorem Life.run_history_rootAndScript :
    ∃ life, Life.run quiet rootAndScript (.start ()) = some life ∧
      life.engine.registry.scripts =
        Revision.replay (history quiet rootAndScript (.start ())) [] := by
  have hrun : (Life.run quiet rootAndScript (.start ())).isSome = true := by decide +kernel
  obtain ⟨life, hlife⟩ := Option.isSome_iff_exists.mp hrun
  exact ⟨life, hlife, (run_history hlife).1⟩

end Luaml
