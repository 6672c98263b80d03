import Luaml.Engine

namespace Luaml

open Rust Str

namespace ScriptRegistry

def Registered (reg : ScriptRegistry) (path : PathBuf) : Prop :=
  ∃ s ∈ reg.scripts, s.sourcePath.same path

def Rejected (path : PathBuf) (text : Str) : Prop := ∃ e, Parser.parseLuaml path text = .err e

theorem replace_of_ok {path : PathBuf} {text : Str} {script : Script}
    (h : Parser.parseLuaml path text = .ok script) (reg : ScriptRegistry) :
    reg.replace path text =
      (.ok (reg.unregister path).1, ⟨(reg.unregister path).2.scripts ++ [script]⟩) := by
  simp only [replace, registerText, h]

theorem replace_of_err {path : PathBuf} {text : Str} {e : LuamlError}
    (h : Parser.parseLuaml path text = .err e) (reg : ScriptRegistry) :
    reg.replace path text = (.err e, (reg.unregister path).2) := by
  simp only [replace, registerText, h]

theorem replace_of_panic {path : PathBuf} {text : Str} {c : Panic}
    (h : Parser.parseLuaml path text = .panic c) (reg : ScriptRegistry) :
    reg.replace path text = (.panic c, (reg.unregister path).2) := by
  simp only [replace, registerText, h]

theorem unregister_eq_self {reg : ScriptRegistry} {path : PathBuf} :
    (reg.unregister path).2 = reg ↔ ¬reg.Registered path := by
  cases reg with
  | mk scripts =>
    simp only [unregister, Registered, mk.injEq, List.filter_eq_self, not_exists, not_and]
    apply forall₂_congr
    intro s _
    simp

theorem replace_err_unchanged_iff (reg : ScriptRegistry) (path : PathBuf) (text : Str) :
    (∀ e, (reg.replace path text).1 = .err e → (reg.replace path text).2 = reg) ↔
      ¬(Rejected path text ∧ reg.Registered path) := by
  cases h : Parser.parseLuaml path text with
  | ok script => simp [replace_of_ok h, Rejected, h]
  | panic c => simp [replace_of_panic h, Rejected, h]
  | err e => simp [replace_of_err h, Rejected, h, unregister_eq_self]

end ScriptRegistry

open ScriptRegistry

theorem replaceFile_err_unchanged_iff (host : Host) (engine : LuamlEngine) (path : PathBuf) :
    (∀ e, (engine.replaceFile host path).1 = .err e →
        (engine.replaceFile host path).2.registry = engine.registry) ↔
      ∀ text, host.readToString path = .ok text →
        ¬(Rejected path text ∧ engine.registry.Registered path) := by
  cases h : host.readToString path with
  | ok text =>
    simp only [LuamlEngine.replaceFile, h, replace_err_unchanged_iff, Res.ok.injEq, forall_eq']
  | err e => simp [LuamlEngine.replaceFile, h]
  | panic c => simp [LuamlEngine.replaceFile, h]

theorem applyChange_unchanged_iff (host : Host) (reg : ScriptRegistry) (path : PathBuf) :
    (∀ text, host.readToString path = .ok text → Rejected path text →
        (ScriptWatcher.applyChange host reg (.createOrModify path)).2 = reg) ↔
      ∀ text, host.readToString path = .ok text →
        ¬(Rejected path text ∧ reg.Registered path) := by
  apply forall₂_congr
  intro text htext
  rw [not_and]
  apply imp_congr_right
  rintro ⟨e, he⟩
  simp only [ScriptWatcher.applyChange, htext, replace_of_err he, unregister_eq_self]

/-- The same of `replace`, of `replace_file` and of a reload by the watcher. -/
theorem failed_replacement_iff (host : Host) (engine : LuamlEngine) (path : PathBuf) (text : Str) :
    ((∀ e, (engine.registry.replace path text).1 = .err e →
        (engine.registry.replace path text).2 = engine.registry) ↔
      ¬(Rejected path text ∧ engine.registry.Registered path)) ∧
    ((∀ e, (engine.replaceFile host path).1 = .err e →
        (engine.replaceFile host path).2.registry = engine.registry) ↔
      ∀ text, host.readToString path = .ok text →
        ¬(Rejected path text ∧ engine.registry.Registered path)) ∧
    ((∀ text, host.readToString path = .ok text → Rejected path text →
        (ScriptWatcher.applyChange host engine.registry (.createOrModify path)).2 =
          engine.registry) ↔
      ∀ text, host.readToString path = .ok text →
        ¬(Rejected path text ∧ engine.registry.Registered path)) :=
  ⟨replace_err_unchanged_iff _ _ _, replaceFile_err_unchanged_iff _ _ _,
    applyChange_unchanged_iff _ _ _⟩

/-- A text without frontmatter, saved over a script that is registered. -/
theorem replace_err_drops_script :
    ¬∀ (reg : ScriptRegistry) (path : PathBuf) (text : Str) (e : LuamlError),
      (reg.replace path text).1 = .err e → (reg.replace path text).2.scripts = reg.scripts := by
  intro h
  have hdrop := h ⟨[⟨⟨"a.luaml".toList⟩, none, []⟩]⟩ ⟨"a.luaml".toList⟩ [] _ rfl
  exact absurd (congrArg List.length hdrop) (by decide)

namespace ScriptRegistry

def load (host : Host) (path : PathBuf) : Res LuamlError Script := do
  let text ← host.readToString path
  Parser.parseLuaml path text

def unlistedError (extName : Str) (entry : PathBuf) : LuamlError :=
  .parse ("script declares extension '".toList ++ extName
    ++ "' but is not listed in its manifest".toList) entry.text

def loadAll (host : Host) (manifests : Manifests) : List PathBuf → Res LuamlError Unit × List Script
  | [] => (.ok (), [])
  | entry :: entries =>
    match load host entry with
    | .err e => (.err e, [])
    | .panic c => (.panic c, [])
    | .ok script =>
      match unlisted manifests (canonical host entry) script with
      | some extName => (.err (unlistedError extName entry), [script])
      | none =>
        let (result, scripts) := loadAll host manifests entries
        (result, script :: scripts)

def toLoad (host : Host) (manifests : Manifests) (files : List PathBuf) : List PathBuf :=
  files.filter fun entry => !manifests.blockedPaths.any (PathBuf.same (canonical host entry))

theorem registerFile_eq (host : Host) (reg : ScriptRegistry) (path : PathBuf) :
    reg.registerFile host path =
      match load host path with
      | .ok script => (.ok (), ⟨reg.scripts ++ [script]⟩)
      | .err e => (.err e, reg)
      | .panic c => (.panic c, reg) := by
  unfold registerFile load
  cases host.readToString path with
  | ok text =>
    cases h : Parser.parseLuaml path text <;> simp [registerText, h]
  | err e => rfl
  | panic c => rfl

theorem registerFiles_eq (host : Host) (manifests : Manifests) (files : List PathBuf) (count : Nat)
    (reg : ScriptRegistry) :
    registerFiles host manifests files count reg =
      ((loadAll host manifests (toLoad host manifests files)).1 >>= fun _ =>
          .ok (count + (loadAll host manifests (toLoad host manifests files)).2.length),
        ⟨reg.scripts ++ (loadAll host manifests (toLoad host manifests files)).2⟩) := by
  induction files generalizing count reg with
  | nil => simp [registerFiles, toLoad, loadAll]
  | cons entry files ih =>
    rw [registerFiles]
    cases hblocked : manifests.blockedPaths.any (PathBuf.same (canonical host entry)) with
    | true =>
      have htail : toLoad host manifests (entry :: files) = toLoad host manifests files := by
        simp [toLoad, hblocked]
      simp only [if_true, ih, htail]
    | false =>
      have hcons : toLoad host manifests (entry :: files) =
          entry :: toLoad host manifests files := by
        simp [toLoad, hblocked]
      rw [hcons, loadAll, registerFile_eq]
      cases hload : load host entry with
      | err e => simp
      | panic c => simp
      | ok script =>
        have hlast : (reg.scripts ++ [script]).getLast? = some script := by simp
        simp only [Bool.false_eq_true, if_false, hlast, Option.bind_some]
        cases unlisted manifests (canonical host entry) script with
        | some extName => simp [unlistedError]
        | none =>
          simp only [ih]
          cases (loadAll host manifests (toLoad host manifests files)).1 <;>
            simp [Nat.add_comm, Nat.add_assoc]

def Loads (host : Host) (manifests : Manifests) (entry : PathBuf) : Prop :=
  ∃ script, load host entry = .ok script ∧
    unlisted manifests (canonical host entry) script = none

def Refused (host : Host) (manifests : Manifests) (entry : PathBuf) : Prop :=
  (∃ e, load host entry = .err e) ∨
    ∃ script extName, load host entry = .ok script ∧
      unlisted manifests (canonical host entry) script = some extName

theorem loadAll_append {host : Host} {manifests : Manifests} {pre : List PathBuf}
    (h : ∀ p ∈ pre, Loads host manifests p) (rest : List PathBuf) :
    ∃ scripts, scripts.length = pre.length ∧
      loadAll host manifests (pre ++ rest) =
        ((loadAll host manifests rest).1, scripts ++ (loadAll host manifests rest).2) := by
  induction pre with
  | nil => exact ⟨[], rfl, rfl⟩
  | cons p pre ih =>
    obtain ⟨⟨script, hload, hlisted⟩, hpre⟩ := List.forall_mem_cons.mp h
    obtain ⟨scripts, hlen, heq⟩ := ih hpre
    refine ⟨script :: scripts, by simp [hlen], ?_⟩
    simp only [List.cons_append, loadAll, hload, hlisted, heq]

theorem loadAll_refused {host : Host} {manifests : Manifests} {files : List PathBuf}
    {e : LuamlError} (h : (loadAll host manifests files).1 = .err e) :
    ∃ pre f post, files = pre ++ f :: post ∧ (∀ p ∈ pre, Loads host manifests p) ∧
      Refused host manifests f := by
  induction files with
  | nil => simp [loadAll] at h
  | cons entry files ih =>
    rw [loadAll] at h
    cases hload : load host entry with
    | err e' => exact ⟨[], entry, files, rfl, by simp, .inl ⟨e', hload⟩⟩
    | panic c => simp [hload] at h
    | ok script =>
      cases hlisted : unlisted manifests (canonical host entry) script with
      | some extName =>
        exact ⟨[], entry, files, rfl, by simp, .inr ⟨script, extName, hload, hlisted⟩⟩
      | none =>
        simp only [hload, hlisted] at h
        obtain ⟨pre, f, post, rfl, hpre, hf⟩ := ih h
        refine ⟨entry :: pre, f, post, rfl, ?_, hf⟩
        exact List.forall_mem_cons.mpr ⟨⟨script, hload, hlisted⟩, hpre⟩

theorem loadAll_clean_iff (host : Host) (manifests : Manifests) (files : List PathBuf) :
    (∀ e, (loadAll host manifests files).1 = .err e → (loadAll host manifests files).2 = []) ↔
      ∀ pre f post, files = pre ++ f :: post → (∀ p ∈ pre, Loads host manifests p) →
        Refused host manifests f → pre = [] ∧ ∃ e, load host f = .err e := by
  constructor
  · rintro h pre f post rfl hpre hf
    obtain ⟨scripts, hlen, heq⟩ := loadAll_append hpre (f :: post)
    rw [heq] at h
    rcases hf with ⟨e, he⟩ | ⟨script, extName, hload, hlisted⟩
    · have hnil := h e (by simp [loadAll, he])
      obtain ⟨rfl, -⟩ := List.append_eq_nil_iff.mp hnil
      exact ⟨List.length_eq_zero_iff.mp hlen.symm, e, he⟩
    · have hnil := h (unlistedError extName f) (by simp [loadAll, hload, hlisted])
      simp [loadAll, hload, hlisted] at hnil
  · intro h e he
    obtain ⟨pre, f, post, rfl, hpre, hf⟩ := loadAll_refused he
    obtain ⟨rfl, e', he'⟩ := h pre f post rfl hpre hf
    simp [loadAll, he']

def dirScripts (host : Host) (dir : PathBuf) : Res LuamlError Unit × List Script :=
  if !host.isDir dir then (.ok (), [])
  else
    match scanDir host dir with
    | .err e => (.err e, [])
    | .panic c => (.panic c, [])
    | .ok (manifests, luamlFiles) => loadAll host manifests (toLoad host manifests luamlFiles)

theorem registerDir_eq (host : Host) (reg : ScriptRegistry) (dir : PathBuf) :
    reg.registerDir host dir =
      ((dirScripts host dir).1 >>= fun _ => .ok (dirScripts host dir).2.length,
        ⟨reg.scripts ++ (dirScripts host dir).2⟩) := by
  unfold registerDir dirScripts
  split_ifs
  · simp
  · cases scanDir host dir with
    | err e => simp
    | panic c => simp
    | ok scanned =>
      obtain ⟨manifests, files⟩ := scanned
      simp only [registerFiles_eq, Nat.zero_add]

theorem registerDir_eq_err {host : Host} {reg : ScriptRegistry} {dir : PathBuf} {e : LuamlError} :
    (reg.registerDir host dir).1 = .err e ↔ (dirScripts host dir).1 = .err e := by
  rw [registerDir_eq]
  cases (dirScripts host dir).1 <;> simp

/-- No file of the directory is registered before another file, or it itself, is refused. -/
def CleanLoad (host : Host) (dir : PathBuf) : Prop :=
  host.isDir dir → ∀ manifests files, scanDir host dir = .ok (manifests, files) →
    ∀ pre f post, toLoad host manifests files = pre ++ f :: post →
      (∀ p ∈ pre, Loads host manifests p) → Refused host manifests f →
        pre = [] ∧ ∃ e, load host f = .err e

theorem dirScripts_clean_iff (host : Host) (dir : PathBuf) :
    (∀ e, (dirScripts host dir).1 = .err e → (dirScripts host dir).2 = []) ↔
      CleanLoad host dir := by
  unfold dirScripts CleanLoad
  cases host.isDir dir with
  | false => simp
  | true =>
    cases scanDir host dir with
    | err e => simp
    | panic c => simp
    | ok scanned =>
      obtain ⟨manifests, files⟩ := scanned
      simp only [Bool.not_true, Bool.false_eq_true, if_false, loadAll_clean_iff, forall_const,
        Res.ok.injEq, Prod.mk.injEq]
      constructor
      · rintro h _ _ ⟨rfl, rfl⟩
        exact h
      · intro h
        exact h manifests files ⟨rfl, rfl⟩

theorem registerDir_unchanged_iff (host : Host) (reg : ScriptRegistry) (dir : PathBuf) :
    (∀ e, (reg.registerDir host dir).1 = .err e → (reg.registerDir host dir).2 = reg) ↔
      CleanLoad host dir := by
  rw [← dirScripts_clean_iff]
  apply forall_congr'
  intro e
  rw [registerDir_eq_err]
  apply imp_congr_right
  intro _
  rw [registerDir_eq]
  cases reg with
  | mk scripts => simp

end ScriptRegistry

namespace LuamlEngine

theorem with_registry_eq_self {engine : LuamlEngine} {reg : ScriptRegistry} :
    { engine with registry := reg } = engine ↔ reg = engine.registry := by
  cases engine
  simp

theorem addRoot_unchanged_iff (host : Host) (engine : LuamlEngine) (root : PathBuf) :
    (∀ e, (engine.addRoot host root).1 = .err e → (engine.addRoot host root).2 = engine) ↔
      engine.roots.any (PathBuf.same · root) ∨ CleanLoad host root := by
  unfold addRoot
  split_ifs with hroot
  · simp [hroot]
  · rw [or_iff_right hroot, ← registerDir_unchanged_iff host engine.registry root]
    apply forall_congr'
    intro e
    cases hdir : engine.registry.registerDir host root with
    | mk result reg =>
      cases result with
      | ok count => simp
      | panic c => simp
      | err e' =>
        apply imp_congr_right
        intro _
        exact with_registry_eq_self

/-- What registering directories one after the other adds, up to the first that fails. -/
def rootScripts (host : Host) : List PathBuf → Res LuamlError Unit × List Script
  | [] => (.ok (), [])
  | root :: roots =>
    match dirScripts host root with
    | (.ok (), scripts) =>
      let (result, more) := rootScripts host roots
      (result, scripts ++ more)
    | failed => failed

theorem registerDirs_eq (host : Host) (roots : List PathBuf) (total : Nat) (reg : ScriptRegistry) :
    registerDirs host roots total reg =
      ((rootScripts host roots).1 >>= fun _ => .ok (total + (rootScripts host roots).2.length),
        ⟨reg.scripts ++ (rootScripts host roots).2⟩) := by
  induction roots generalizing total reg with
  | nil => simp [registerDirs, rootScripts]
  | cons root roots ih =>
    rw [registerDirs, rootScripts, registerDir_eq]
    cases hdir : dirScripts host root with
    | mk result scripts =>
      cases result with
      | err e => simp
      | panic c => simp
      | ok u =>
        simp only [Res.ok_bind, ih]
        cases (rootScripts host roots).1 <;> simp [Nat.add_assoc]

theorem reloadRoots_unchanged_iff (host : Host) (engine : LuamlEngine) :
    (∀ e, (engine.reloadRoots host).1 = .err e → (engine.reloadRoots host).2 = engine) ↔
      ∀ e, (rootScripts host engine.roots).1 = .err e →
        engine.registry.scripts = (rootScripts host engine.roots).2 := by
  apply forall_congr'
  intro e
  have herr : (engine.reloadRoots host).1 = .err e ↔
      (rootScripts host engine.roots).1 = .err e := by
    rw [reloadRoots, registerDirs_eq]
    cases (rootScripts host engine.roots).1 <;> simp
  rw [herr]
  apply imp_congr_right
  intro _
  rw [reloadRoots, registerDirs_eq]
  refine with_registry_eq_self.trans ?_
  cases engine.registry with
  | mk scripts =>
    simp only [clear, empty, List.nil_append, ScriptRegistry.mk.injEq]
    exact eq_comm

/-- When a failed `register_dir`, `add_root` and `reload_roots` leave all as it was. -/
theorem failed_load_unchanged_iff (host : Host) (engine : LuamlEngine) (dir : PathBuf) :
    ((∀ e, (engine.registry.registerDir host dir).1 = .err e →
        (engine.registry.registerDir host dir).2 = engine.registry) ↔ CleanLoad host dir) ∧
    ((∀ e, (engine.addRoot host dir).1 = .err e → (engine.addRoot host dir).2 = engine) ↔
      engine.roots.any (PathBuf.same · dir) ∨ CleanLoad host dir) ∧
    ((∀ e, (engine.reloadRoots host).1 = .err e → (engine.reloadRoots host).2 = engine) ↔
      ∀ e, (rootScripts host engine.roots).1 = .err e →
        engine.registry.scripts = (rootScripts host engine.roots).2) :=
  ⟨registerDir_unchanged_iff _ _ _, addRoot_unchanged_iff _ _ _, reloadRoots_unchanged_iff _ _⟩

def halfBroken : Host where
  isDir p := p.text == "d".toList
  readDir p :=
    if p.text = "d".toList then .ok [.ok ⟨"d/a.luaml".toList⟩, .ok ⟨"d/b.luaml".toList⟩]
    else .err (.io "not found".toList)
  readToString p :=
    if p.text = "d/a.luaml".toList then .ok "---\nk: *\n---\n".toList else .ok []
  canonicalize p := some p
  pathExists _ := true
  toml _ := .error []
  height p := if p.text = "d".toList then 1 else 0
  height_lt := by
    intro dir entries path hdir hmem hpath
    have htext : path.text = "d".toList := by simpa using hpath
    split_ifs at hdir with h
    obtain rfl := Res.ok.inj hdir
    rcases List.mem_pair.mp hmem with hp | hp <;>
      exact absurd (Res.ok.inj hp ▸ htext) (by decide)

/-- The script before the one that fails stays registered. -/
theorem registerDir_err_keeps_script :
    ¬∀ (host : Host) (engine : LuamlEngine) (dir : PathBuf) (e : LuamlError),
      (engine.registry.registerDir host dir).1 = .err e →
        (engine.registry.registerDir host dir).2.scripts = engine.registry.scripts := by
  intro h
  have hkeep := h halfBroken ⟨⟨[]⟩, [], .default, .zero⟩ ⟨"d".toList⟩
    (.parse "luaml file must start with frontmatter delimiter ---".toList "d/b.luaml".toList)
    (by decide +kernel)
  exact absurd (congrArg List.length hkeep) (by decide +kernel)

end LuamlEngine

end Luaml
