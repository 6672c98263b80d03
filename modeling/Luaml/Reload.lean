import Luaml.Extensions

namespace Luaml

open Rust Str Res

def FileChange.path : FileChange → PathBuf
  | .createOrModify path => path
  | .remove path => path

namespace ScriptWatcher

open ScriptRegistry

def Drops (host : Host) : FileChange → Prop
  | .createOrModify path => ∃ text, host.readToString path = .ok text
  | .remove _ => True

def Survives (host : Host) (changes : List FileChange) (script : Script) : Prop :=
  ∀ change ∈ changes, Drops host change → ¬script.sourcePath.same change.path

def Reloaded (host : Host) (changes : List FileChange) (script : Script) : Prop :=
  ∃ before path after, changes = before ++ .createOrModify path :: after ∧
    load host path = .ok script ∧ Survives host after script

def Changed (changes : List FileChange) (script : Script) : Prop :=
  ∃ change ∈ changes, script.sourcePath.same change.path

theorem survives_cons {host : Host} {change : FileChange} {changes : List FileChange}
    {script : Script} :
    Survives host (change :: changes) script ↔
      (Drops host change → ¬script.sourcePath.same change.path) ∧
        Survives host changes script :=
  List.forall_mem_cons

theorem reloaded_cons {host : Host} {change : FileChange} {changes : List FileChange}
    {script : Script} :
    Reloaded host (change :: changes) script ↔
      (∃ path, change = .createOrModify path ∧ load host path = .ok script ∧
        Survives host changes script) ∨ Reloaded host changes script := by
  constructor
  · rintro ⟨before, path, after, hchanges, hload, hafter⟩
    cases before with
    | nil =>
      obtain ⟨rfl, rfl⟩ := List.cons.inj hchanges
      exact .inl ⟨path, rfl, hload, hafter⟩
    | cons first before =>
      obtain ⟨rfl, rfl⟩ := List.cons.inj hchanges
      exact .inr ⟨before, path, after, rfl, hload, hafter⟩
  · rintro (⟨path, rfl, hload, hafter⟩ | ⟨before, path, after, rfl, hload, hafter⟩)
    · exact ⟨[], path, changes, rfl, hload, hafter⟩
    · exact ⟨change :: before, path, after, rfl, hload, hafter⟩

theorem mem_applyChange {host : Host} {reg : ScriptRegistry} {change : FileChange}
    {touched : Option PathBuf} (h : (applyChange host reg change).1 = .ok touched)
    (script : Script) :
    script ∈ (applyChange host reg change).2.scripts ↔
      script ∈ reg.scripts ∧ (Drops host change → ¬script.sourcePath.same change.path) ∨
        ∃ path, change = .createOrModify path ∧ load host path = .ok script := by
  cases change with
  | remove path => simp [applyChange, Drops, unregister, FileChange.path]
  | createOrModify path =>
    simp only [applyChange, Drops, FileChange.path, load, FileChange.createOrModify.injEq,
      exists_eq_left'] at h ⊢
    cases hread : host.readToString path with
    | err e => simp
    | panic c => simp [hread] at h
    | ok text =>
      cases hparse : Parser.parseLuaml path text with
      | err e => simp [replace_of_err hparse, unregister, hparse]
      | panic c => simp [hread, replace_of_panic hparse] at h
      | ok s =>
        have hs : s = script ↔ script = s := eq_comm
        simp [replace_of_ok hparse, unregister, hparse, hs]

theorem applyPending_cons {host : Host} {change : FileChange} {changes : List FileChange}
    {reg : ScriptRegistry} {touched : List PathBuf}
    (h : (applyPending host (change :: changes) reg).1 = .ok touched) :
    ∃ path changed, (applyChange host reg change).1 = .ok path ∧
      (applyPending host changes (applyChange host reg change).2).1 = .ok changed ∧
        (applyPending host (change :: changes) reg).2 =
          (applyPending host changes (applyChange host reg change).2).2 := by
  rw [applyPending] at h ⊢
  cases hchange : applyChange host reg change with
  | mk result reg' =>
    cases result with
    | err e => simp [hchange] at h
    | panic c => simp [hchange] at h
    | ok path =>
      cases hrest : applyPending host changes reg' with
      | mk result' reg'' =>
        cases result' with
        | err e => simp [hchange, hrest] at h
        | panic c => simp [hchange, hrest] at h
        | ok changed => exact ⟨path, changed, rfl, rfl, by simp [hrest]⟩

theorem mem_applyPending {host : Host} {changes : List FileChange} {reg : ScriptRegistry}
    {touched : List PathBuf} (h : (applyPending host changes reg).1 = .ok touched)
    (script : Script) :
    script ∈ (applyPending host changes reg).2.scripts ↔
      script ∈ reg.scripts ∧ Survives host changes script ∨ Reloaded host changes script := by
  induction changes generalizing reg touched with
  | nil => simp [applyPending, Survives, Reloaded]
  | cons change changes ih =>
    rw [survives_cons, reloaded_cons]
    obtain ⟨_, _, hchange, hrest, heq⟩ := applyPending_cons h
    rw [heq, ih hrest, mem_applyChange hchange]
    simp only [← and_assoc, exists_and_right]
    rw [or_and_right, or_assoc]

/-- A script registered before, of a file that has changed but was neither read nor removed. -/
def Unread (host : Host) (changes : List FileChange) (script : Script) : Prop :=
  Changed changes script ∧ Survives host changes script

theorem same_refl (path : PathBuf) : path.same path := by
  simp [PathBuf.same]

/-- A batch leaves registered, of the files that it changes, just what registering the directory
would, exactly when every script that it loads passes the checks of the directory, and when so does
every script whose file could not be read. -/
theorem reload_admits_iff {host : Host} {changes : List FileChange} {reg : ScriptRegistry}
    {touched : List PathBuf} (h : (applyPending host changes reg).1 = .ok touched)
    (dir : PathBuf) :
    (∀ script ∈ (applyPending host changes reg).2.scripts, Changed changes script →
        Admits host dir script) ↔
      (∀ script, Reloaded host changes script → Passes host dir script) ∧
        ∀ script ∈ reg.scripts, Unread host changes script → Admits host dir script := by
  simp only [mem_applyPending h]
  constructor
  · intro hall
    constructor
    · rintro script ⟨before, path, after, rfl, hload, hafter⟩
      have hpath := sourcePath_of_load hload
      have hchanged : Changed (before ++ .createOrModify path :: after) script :=
        ⟨.createOrModify path, by simp, by rw [hpath]; exact same_refl path⟩
      exact (admits_iff.mp (hall script (.inr ⟨before, path, after, rfl, hload, hafter⟩)
        hchanged)).2
    · rintro script hmem ⟨hchanged, hsurvives⟩
      exact hall script (.inl ⟨hmem, hsurvives⟩) hchanged
  · rintro ⟨hreloaded, hunread⟩ script (⟨hmem, hsurvives⟩ | hload) hchanged
    · exact hunread script hmem ⟨hchanged, hsurvives⟩
    · obtain ⟨before, path, after, -, hscript, -⟩ := id hload
      have hpath := sourcePath_of_load hscript
      exact admits_iff.mpr ⟨by rw [hpath]; exact hscript, hreloaded script hload⟩

structure Edits (before after : Host) (changes : List FileChange) : Prop where
  luaml : ∀ change ∈ changes, change.path.hasExtension "luaml".toList
  isDir : after.isDir = before.isDir
  toml : after.toml = before.toml
  unchanged : ∀ path : PathBuf, (∀ change ∈ changes, ¬path.same change.path) →
    after.readToString path = before.readToString path ∧
      after.pathExists path = before.pathExists path ∧
        after.canonicalize path = before.canonicalize path
  entries : ∀ dir entries, before.readDir dir = .ok entries →
    ∃ entries', after.readDir dir = .ok entries' ∧
      ∀ path : PathBuf, (∀ change ∈ changes, ¬path.same change.path) →
        (.ok path ∈ entries' ↔ .ok path ∈ entries)

def oneManifest : Str := "name = 'x'\nscripts = ['a.luaml']\n".toList

def oneScript (text : Str) : Host :=
  flat [("a.luaml".toList, "---\n! x\nk: *\n---\n".toList), ("b.luaml".toList, text),
      ("x.extension.toml".toList, oneManifest)]
    [(oneManifest, ⟨"x".toList, ["a.luaml".toList]⟩)]

def plainText : Str := "---\nk: *\n---\n".toList

def strayText : Str := "---\n! x\nk: *\n---\n".toList

def edit : List FileChange := [.createOrModify ⟨"d/b.luaml".toList⟩]

theorem edits_oneScript (text text' : Str) : Edits (oneScript text) (oneScript text') edit := by
  have hother : ∀ path : PathBuf, (∀ change ∈ edit, ¬path.same change.path) →
      ¬"d/".toList ++ "b.luaml".toList = path.text := by
    rintro ⟨t⟩ h rfl
    exact h _ (List.mem_singleton_self _) (same_refl _)
  constructor
  · decide
  · rfl
  · rfl
  · intro path h
    have hb := hother path h
    refine ⟨?_, ?_, ?_⟩
    · simp only [oneScript, flat, List.find?_cons, hb, decide_false]
    · simp only [oneScript, flat, List.any_cons, hb, decide_false]
    · simp only [oneScript, flat, List.any_cons, hb, decide_false]
  · intro dir entries h
    exact ⟨entries, h, fun _ _ => Iff.rfl⟩

theorem reload_admits_oneScript :
    (∀ script ∈ (applyPending (oneScript strayText) edit
          (empty.registerDir (oneScript plainText) ⟨"d".toList⟩).2).2.scripts,
        Changed edit script → Admits (oneScript strayText) ⟨"d".toList⟩ script) ↔
      (∀ script, Reloaded (oneScript strayText) edit script →
          Passes (oneScript strayText) ⟨"d".toList⟩ script) ∧
        ∀ script ∈ (empty.registerDir (oneScript plainText) ⟨"d".toList⟩).2.scripts,
          Unread (oneScript strayText) edit script →
            Admits (oneScript strayText) ⟨"d".toList⟩ script :=
  reload_admits_iff (by decide +kernel : (applyPending (oneScript strayText) edit
    (empty.registerDir (oneScript plainText) ⟨"d".toList⟩).2).1 = .ok [⟨"d/b.luaml".toList⟩]) _

/-- A script that is changed to declare an extension whose manifest does not list it. -/
theorem stray_script_reloaded :
    ¬∀ (before after : Host) (dir : PathBuf) (n : Nat) (changes : List FileChange)
      (touched : List PathBuf),
      (empty.registerDir before dir).1 = .ok n → Edits before after changes →
        (applyPending after changes (empty.registerDir before dir).2).1 = .ok touched →
          ∀ script ∈ (applyPending after changes (empty.registerDir before dir).2).2.scripts,
            Changed changes script → Admits after dir script := by
  intro h
  have hadmits := h (oneScript plainText) (oneScript strayText) ⟨"d".toList⟩ 2 edit
    [⟨"d/b.luaml".toList⟩] (by decide +kernel) (edits_oneScript _ _) (by decide +kernel)
  have hany : (applyPending (oneScript strayText) edit
      (empty.registerDir (oneScript plainText) ⟨"d".toList⟩).2).2.scripts.any
        (fun script => script.sourcePath.text = "d/b.luaml".toList ∧
          script.extension = some "x".toList) = true := by
    decide +kernel
  obtain ⟨script, hmem, hscript⟩ := List.any_eq_true.mp hany
  obtain ⟨hpath, hname⟩ := of_decide_eq_true hscript
  have hpath' : script.sourcePath = ⟨"d/b.luaml".toList⟩ := by
    cases hp : script.sourcePath with
    | mk text => rw [hp] at hpath; exact congrArg PathBuf.mk hpath
  have hchanged : Changed edit script :=
    ⟨_, List.mem_singleton_self _, by rw [hpath']; exact same_refl _⟩
  obtain ⟨-, files, ⟨-, hfiles⟩, -, -, -, howned⟩ := admits_iff.mp (hadmits script hmem hchanged)
  have hall : walkdir (oneScript strayText) ⟨"d".toList⟩ = .ok
      [⟨"d/a.luaml".toList⟩, ⟨"d/b.luaml".toList⟩, ⟨"d/x.extension.toml".toList⟩] := by
    decide +kernel
  obtain rfl := Res.ok.inj (hall.symm.trans hfiles)
  have hlast : LastOf (oneScript strayText) "x".toList
      ([⟨"d/a.luaml".toList⟩, ⟨"d/b.luaml".toList⟩,
        ⟨"d/x.extension.toml".toList⟩].filter isManifest)
      ⟨"d/x.extension.toml".toList⟩ ⟨"x".toList, ["a.luaml".toList]⟩ := by
    have hfilter : [⟨"d/a.luaml".toList⟩, ⟨"d/b.luaml".toList⟩,
        ⟨"d/x.extension.toml".toList⟩].filter isManifest = [⟨"d/x.extension.toml".toList⟩] := by
      decide +kernel
    rw [hfilter]
    refine .here rfl rfl ?_ ?_
    · rintro ⟨rel, hrel, hmissing⟩
      obtain rfl := List.mem_singleton.mp hrel
      exact absurd hmissing (by decide +kernel)
    · rintro ⟨path, manifest, hnil, -⟩
      exact absurd hnil (List.not_mem_nil)
  obtain ⟨rel, hrel, hsame⟩ := howned _ hname _ _ hlast
  obtain rfl := List.mem_singleton.mp hrel
  rw [hpath'] at hsame
  exact absurd hsame (by decide +kernel)

end ScriptWatcher

end Luaml
