import Luaml.RegistryLaws
import Luaml.Sections

namespace Luaml

open Rust Str Res

namespace ScriptRegistry

def manifestAt (host : Host) (path : PathBuf) : Res LuamlError ExtensionManifest := do
  let text ← host.readToString path
  parseManifest host text path

def listed (host : Host) (manifestPath : PathBuf) (relPath : Str) : PathBuf :=
  canonical host ((manifestPath.parent.getD ⟨['.']⟩).join relPath)

def Lists (host : Host) (path : PathBuf) (manifest : ExtensionManifest) (entry : PathBuf) : Prop :=
  ∃ relPath ∈ manifest.scripts, (canonical host entry).same (listed host path relPath)

def Incomplete (host : Host) (path : PathBuf) (manifest : ExtensionManifest) : Prop :=
  ∃ relPath ∈ manifest.scripts, host.pathExists (listed host path relPath) = false

def Blocked (host : Host) (files : List PathBuf) (entry : PathBuf) : Prop :=
  ∃ path ∈ files, ∃ manifest, manifestAt host path = .ok manifest ∧
    Incomplete host path manifest ∧ Lists host path manifest entry

def CompleteOf (host : Host) (files : List PathBuf) (name : Str) (path : PathBuf)
    (manifest : ExtensionManifest) : Prop :=
  path ∈ files ∧ manifestAt host path = .ok manifest ∧ manifest.name = name ∧
    ¬Incomplete host path manifest

theorem resolve_eq (host : Host) (path : PathBuf) (relPaths : List Str) :
    (resolve host (path.parent.getD ⟨['.']⟩) relPaths = none ∧
        ∃ rel ∈ relPaths, host.pathExists (listed host path rel) = false) ∨
      resolve host (path.parent.getD ⟨['.']⟩) relPaths = some (relPaths.map (listed host path)) ∧
        ¬∃ rel ∈ relPaths, host.pathExists (listed host path rel) = false := by
  induction relPaths with
  | nil => exact .inr ⟨rfl, by simp⟩
  | cons rel rels ih =>
    rw [resolve]
    change (ite (!host.pathExists (listed host path rel)) _ _ = _ ∧ _) ∨
      ite (!host.pathExists (listed host path rel)) _ _ = _ ∧ _
    cases hexists : host.pathExists (listed host path rel) with
    | false => exact .inl ⟨rfl, rel, List.mem_cons_self .., hexists⟩
    | true =>
      rcases ih with ⟨hnone, rel', hrel', hmissing⟩ | ⟨hsome, hall⟩
      · exact .inl ⟨by simp [hnone], rel', List.mem_cons_of_mem _ hrel', hmissing⟩
      · exact .inr ⟨by simp [hsome, listed], by simpa [hexists] using hall⟩

theorem readManifest_eq_ok {host : Host} {manifests r : Manifests} {path : PathBuf}
    (h : readManifest host manifests path = .ok r) :
    ∃ manifest, manifestAt host path = .ok manifest ∧
      (Incomplete host path manifest ∧
          r = ⟨manifests.blockedPaths ++ manifest.scripts.map (listed host path),
            manifests.extensionScripts⟩ ∨
        ¬Incomplete host path manifest ∧
          r = ⟨manifests.blockedPaths, Map.insert manifests.extensionScripts manifest.name
            (manifest.scripts.map (listed host path))⟩) := by
  obtain ⟨text, htext, h⟩ := bind_eq_ok.mp h
  obtain ⟨manifest, hmanifest, h⟩ := bind_eq_ok.mp h
  refine ⟨manifest, by rw [manifestAt, htext]; exact hmanifest, ?_⟩
  dsimp only at h
  rcases resolve_eq host path manifest.scripts with ⟨hnone, hmissing⟩ | ⟨hsome, hall⟩
  · rw [hnone] at h
    exact .inl ⟨hmissing, (Res.ok.inj h).symm⟩
  · rw [hsome] at h
    exact .inr ⟨hall, (Res.ok.inj h).symm⟩

theorem readManifests_blocked {host : Host} {manifests r : Manifests} {paths : List PathBuf}
    (h : readManifests host manifests paths = .ok r) (entry : PathBuf) :
    r.blockedPaths.any (PathBuf.same (canonical host entry)) ↔
      manifests.blockedPaths.any (PathBuf.same (canonical host entry)) ∨
        Blocked host paths entry := by
  induction paths generalizing manifests with
  | nil =>
    obtain rfl := Res.ok.inj h
    simp [Blocked]
  | cons path paths ih =>
    obtain ⟨r₁, hr₁, h⟩ := bind_eq_ok.mp h
    obtain ⟨manifest, hmanifest, hadd⟩ := readManifest_eq_ok hr₁
    have hcons : Blocked host (path :: paths) entry ↔
        Incomplete host path manifest ∧ Lists host path manifest entry ∨
          Blocked host paths entry := by
      simp [Blocked, hmanifest]
    rw [ih h, hcons]
    rcases hadd with ⟨hincomplete, rfl⟩ | ⟨hcomplete, rfl⟩
    · have hlists : (manifest.scripts.map (listed host path)).any
          (PathBuf.same (canonical host entry)) ↔ Lists host path manifest entry := by
        simp [Lists]
      rw [List.any_append, Bool.or_eq_true, hlists, and_iff_right hincomplete, or_assoc]
    · rw [iff_false_intro hcomplete, false_and, false_or]

/-- The manifest is the last complete one of the name, and so the one that counts. -/
inductive LastOf (host : Host) (name : Str) : List PathBuf → PathBuf → ExtensionManifest → Prop
  | here {path paths manifest} (hat : manifestAt host path = .ok manifest)
    (hname : manifest.name = name) (hcomplete : ¬Incomplete host path manifest)
    (hlast : ¬∃ path' manifest', CompleteOf host paths name path' manifest') :
    LastOf host name (path :: paths) path manifest
  | later {p paths path manifest} (hrest : LastOf host name paths path manifest) :
    LastOf host name (p :: paths) path manifest

theorem CompleteOf.of_lastOf {host : Host} {files : List PathBuf} {name : Str} {path : PathBuf}
    {manifest : ExtensionManifest} (h : LastOf host name files path manifest) :
    CompleteOf host files name path manifest := by
  induction h with
  | here hat hname hcomplete _ => exact ⟨List.mem_cons_self .., hat, hname, hcomplete⟩
  | later _ ih => exact ⟨List.mem_cons_of_mem _ ih.1, ih.2⟩

theorem exists_lastOf {host : Host} {files : List PathBuf} {name : Str} :
    (∃ path manifest, LastOf host name files path manifest) ↔
      ∃ path manifest, CompleteOf host files name path manifest := by
  constructor
  · rintro ⟨path, manifest, h⟩
    exact ⟨path, manifest, .of_lastOf h⟩
  · induction files with
    | nil => simp [CompleteOf]
    | cons p paths ih =>
      rintro ⟨path, manifest, hmem, hat, hname, hcomplete⟩
      by_cases hlater : ∃ path' manifest', CompleteOf host paths name path' manifest'
      · obtain ⟨path', manifest', h⟩ := ih hlater
        exact ⟨path', manifest', .later h⟩
      · rcases List.mem_cons.mp hmem with rfl | hmem
        · exact ⟨path, manifest, .here hat hname hcomplete hlater⟩
        · exact absurd ⟨path, manifest, hmem, hat, hname, hcomplete⟩ hlater

theorem exists_lastOf_cons {host : Host} {path : PathBuf} {manifest : ExtensionManifest}
    (hat : manifestAt host path = .ok manifest) (name : Str) (paths : List PathBuf)
    (P : PathBuf → ExtensionManifest → Prop) :
    (∃ path' manifest', LastOf host name (path :: paths) path' manifest' ∧ P path' manifest') ↔
      (∃ path' manifest', LastOf host name paths path' manifest' ∧ P path' manifest') ∨
        (manifest.name = name ∧ ¬Incomplete host path manifest) ∧
          (¬∃ path' manifest', LastOf host name paths path' manifest') ∧ P path manifest := by
  constructor
  · rintro ⟨path', manifest', hlast, hP⟩
    cases hlast with
    | here hat' hname hcomplete hnone =>
      obtain rfl := Res.ok.inj (hat.symm.trans hat')
      exact .inr ⟨⟨hname, hcomplete⟩, mt exists_lastOf.mp hnone, hP⟩
    | later hrest => exact .inl ⟨path', manifest', hrest, hP⟩
  · rintro (⟨path', manifest', hrest, hP⟩ | ⟨⟨hname, hcomplete⟩, hnone, hP⟩)
    · exact ⟨path', manifest', .later hrest, hP⟩
    · exact ⟨path, manifest, .here hat hname hcomplete (mt exists_lastOf.mpr hnone), hP⟩

theorem readManifests_extension {host : Host} {manifests r : Manifests} {paths : List PathBuf}
    (h : readManifests host manifests paths = .ok r) (name : Str) (scripts : List PathBuf) :
    Map.get r.extensionScripts name = some scripts ↔
      (∃ path manifest, LastOf host name paths path manifest ∧
          manifest.scripts.map (listed host path) = scripts) ∨
        (¬∃ path manifest, LastOf host name paths path manifest) ∧
          Map.get manifests.extensionScripts name = some scripts := by
  induction paths generalizing manifests with
  | nil =>
    obtain rfl := Res.ok.inj h
    have hnone : ∀ path manifest, ¬LastOf host name [] path manifest := nofun
    simp [hnone]
  | cons path paths ih =>
    obtain ⟨r₁, hr₁, h⟩ := bind_eq_ok.mp h
    obtain ⟨manifest, hmanifest, hadd⟩ := readManifest_eq_ok hr₁
    have hcons := exists_lastOf_cons hmanifest name paths fun _ _ => True
    simp only [and_true] at hcons
    rw [ih h, exists_lastOf_cons hmanifest, hcons]
    by_cases hhere : manifest.name = name ∧ ¬Incomplete host path manifest
    · have hget : Map.get r₁.extensionScripts name =
          some (manifest.scripts.map (listed host path)) := by
        rcases hadd with ⟨hincomplete, -⟩ | ⟨-, rfl⟩
        · exact absurd hincomplete hhere.2
        · rw [Map.get_insert, if_pos hhere.1]
      rw [hget, Option.some.injEq, iff_true_intro hhere]
      simp only [true_and, em, not_true_eq_false, false_and, or_false]
    · have hget : Map.get r₁.extensionScripts name = Map.get manifests.extensionScripts name := by
        rcases hadd with ⟨-, rfl⟩ | ⟨hcomplete, rfl⟩
        · rfl
        · rw [Map.get_insert, if_neg fun hname => hhere ⟨hname, hcomplete⟩]
      rw [hget, iff_false_intro hhere]
      simp only [false_and, or_false]

def Owned (host : Host) (files : List PathBuf) (script : Script) : Prop :=
  ∀ name, script.extension = some name →
    ∀ path manifest, LastOf host name files path manifest →
      Lists host path manifest script.sourcePath

theorem unlisted_eq_none {host : Host} {files : List PathBuf} {manifests : Manifests}
    (h : readManifests host ⟨[], []⟩ files = .ok manifests) (script : Script) :
    unlisted manifests (canonical host script.sourcePath) script = none ↔
      Owned host files script := by
  have hget : ∀ name scripts, Map.get manifests.extensionScripts name = some scripts ↔
      ∃ path manifest, LastOf host name files path manifest ∧
        manifest.scripts.map (listed host path) = scripts := by
    intro name scripts
    simp only [readManifests_extension h, Map.get, reduceCtorEq, and_false, or_false]
  have hlists : ∀ path (manifest : ExtensionManifest),
      (manifest.scripts.map (listed host path)).any
        (PathBuf.same (canonical host script.sourcePath)) ↔
          Lists host path manifest script.sourcePath := by
    simp [Lists]
  have hnone : unlisted manifests (canonical host script.sourcePath) script = none ↔
      ∀ name, script.extension = some name → ∀ scripts,
        Map.get manifests.extensionScripts name = some scripts →
          scripts.any (PathBuf.same (canonical host script.sourcePath)) := by
    simp only [unlisted, Option.bind_eq_none_iff, ite_eq_left_iff, reduceCtorEq, imp_false,
      Decidable.not_not]
  rw [hnone]
  apply forall₂_congr
  intro name _
  constructor
  · intro hall path manifest hlast
    exact (hlists _ _).mp (hall _ ((hget _ _).mpr ⟨path, manifest, hlast, rfl⟩))
  · intro hall scripts hscripts
    obtain ⟨path, manifest, hlast, rfl⟩ := (hget _ _).mp hscripts
    exact (hlists _ _).mpr (hall path manifest hlast)

theorem sourcePath_of_load {host : Host} {entry : PathBuf} {script : Script}
    (h : load host entry = .ok script) : script.sourcePath = entry := by
  obtain ⟨text, -, hparse⟩ := bind_eq_ok.mp h
  obtain ⟨_, _, _, _, haccepted⟩ := Parser.parseLuaml_eq_ok.mp hparse
  exact haccepted.sourcePath_eq

/-- Registering the directory registers the script: it is in one of its files, and what the
manifests say is not against it. -/
def Admits (host : Host) (dir : PathBuf) (script : Script) : Prop :=
  host.isDir dir ∧ ∃ manifests files, scanDir host dir = .ok (manifests, files) ∧
    script.sourcePath ∈ toLoad host manifests files ∧ load host script.sourcePath = .ok script ∧
      unlisted manifests (canonical host script.sourcePath) script = none

theorem mem_loadAll {host : Host} {manifests : Manifests} {files : List PathBuf}
    (h : (loadAll host manifests files).1 = .ok ()) (script : Script) :
    script ∈ (loadAll host manifests files).2 ↔
      script.sourcePath ∈ files ∧ load host script.sourcePath = .ok script ∧
        unlisted manifests (canonical host script.sourcePath) script = none := by
  induction files with
  | nil => simp [loadAll]
  | cons entry files ih =>
    rw [loadAll] at h ⊢
    cases hload : load host entry with
    | err e => simp [hload] at h
    | panic c => simp [hload] at h
    | ok s =>
      cases hlisted : unlisted manifests (canonical host entry) s with
      | some extName => simp [hload, hlisted] at h
      | none =>
        simp only [hload, hlisted] at h ⊢
        have hpath := sourcePath_of_load hload
        rw [List.mem_cons, List.mem_cons, ih h]
        constructor
        · rintro (rfl | ⟨hmem, hrest⟩)
          · exact ⟨.inl hpath, by rw [hpath]; exact hload, by rw [hpath]; exact hlisted⟩
          · exact ⟨.inr hmem, hrest⟩
        · rintro ⟨heq | hmem, hscript, hnone⟩
          · rw [heq, hload] at hscript
            exact .inl (Res.ok.inj hscript).symm
          · exact .inr ⟨hmem, hscript, hnone⟩

def registered (host : Host) (reg : ScriptRegistry) (dir : PathBuf) : List Script :=
  (reg.registerDir host dir).2.scripts.drop reg.scripts.length

theorem registered_eq (host : Host) (reg : ScriptRegistry) (dir : PathBuf) :
    registered host reg dir = (dirScripts host dir).2 := by
  rw [registered, registerDir_eq]
  simp

theorem scanned_of_ok {host : Host} {reg : ScriptRegistry} {dir : PathBuf} {n : Nat}
    (h : (reg.registerDir host dir).1 = .ok n) (hdir : host.isDir dir) :
    ∃ manifests files, scanDir host dir = .ok (manifests, files) ∧
      (loadAll host manifests (toLoad host manifests files)).1 = .ok () ∧
        registered host reg dir = (loadAll host manifests (toLoad host manifests files)).2 := by
  rw [registered_eq]
  rw [registerDir_eq] at h
  obtain ⟨_, hok, -⟩ := bind_eq_ok.mp h
  simp only [dirScripts, hdir, Bool.not_true, Bool.false_eq_true, if_false] at hok ⊢
  cases hscan : scanDir host dir with
  | err e => simp [hscan] at hok
  | panic c => simp [hscan] at hok
  | ok scanned =>
    rw [hscan] at hok
    exact ⟨scanned.1, scanned.2, rfl, hok, rfl⟩

theorem mem_registered {host : Host} {reg : ScriptRegistry} {dir : PathBuf} {n : Nat}
    (h : (reg.registerDir host dir).1 = .ok n) (script : Script) :
    script ∈ registered host reg dir ↔ Admits host dir script := by
  cases hdir : host.isDir dir with
  | false => simp [registered_eq, dirScripts, Admits, hdir]
  | true =>
    obtain ⟨manifests, files, hscan, hok, heq⟩ := scanned_of_ok h hdir
    rw [heq, mem_loadAll hok]
    constructor
    · exact fun hmem => ⟨hdir, manifests, files, hscan, hmem⟩
    · rintro ⟨-, _, _, hscan', hmem⟩
      obtain ⟨rfl, rfl⟩ := Prod.mk.inj (Res.ok.inj (hscan.symm.trans hscan'))
      exact hmem

def Contains (host : Host) (dir : PathBuf) (files : List PathBuf) : Prop :=
  host.isDir dir ∧ walkdir host dir = .ok files

theorem scanDir_eq_ok {host : Host} {dir : PathBuf} {manifests : Manifests}
    {scripts : List PathBuf} :
    scanDir host dir = .ok (manifests, scripts) ↔
      ∃ files, walkdir host dir = .ok files ∧
        readManifests host ⟨[], []⟩ (files.filter isManifest) = .ok manifests ∧
          files.filter (fun path => path.hasExtension "luaml".toList) = scripts := by
  simp only [scanDir, bind_eq_ok, Res.ok.injEq, Prod.mk.injEq]
  constructor
  · rintro ⟨files, hfiles, manifests', hread, rfl, hscripts⟩
    exact ⟨files, hfiles, hread, hscripts⟩
  · rintro ⟨files, hfiles, hread, hscripts⟩
    exact ⟨files, hfiles, manifests, hread, rfl, hscripts⟩

theorem mem_toLoad {host : Host} {files : List PathBuf} {manifests : Manifests}
    (h : readManifests host ⟨[], []⟩ (files.filter isManifest) = .ok manifests)
    (entry : PathBuf) :
    entry ∈ toLoad host manifests (files.filter fun path => path.hasExtension "luaml".toList) ↔
      (entry ∈ files ∧ entry.hasExtension "luaml".toList) ∧
        ¬Blocked host (files.filter isManifest) entry := by
  have hblocked := readManifests_blocked h entry
  rw [toLoad, List.mem_filter, List.mem_filter]
  simp only [List.any_nil, Bool.false_eq_true, false_or] at hblocked
  rw [← hblocked, Bool.not_eq_true', Bool.not_eq_true]

theorem readManifests_isOk {host : Host} {manifests : Manifests} {paths : List PathBuf} :
    (∃ r, readManifests host manifests paths = .ok r) ↔
      ∀ path ∈ paths, ∃ manifest, manifestAt host path = .ok manifest := by
  induction paths generalizing manifests with
  | nil => simp [readManifests]
  | cons path paths ih =>
    rw [List.forall_mem_cons]
    constructor
    · rintro ⟨r, h⟩
      obtain ⟨r₁, hr₁, h⟩ := bind_eq_ok.mp h
      obtain ⟨manifest, hmanifest, -⟩ := readManifest_eq_ok hr₁
      exact ⟨⟨manifest, hmanifest⟩, ih.mp ⟨r, h⟩⟩
    · rintro ⟨⟨manifest, hmanifest⟩, hrest⟩
      obtain ⟨text, htext, hparse⟩ := bind_eq_ok.mp hmanifest
      have hread : ∃ r₁, readManifest host manifests path = .ok r₁ := by
        rw [readManifest, htext, Res.ok_bind, hparse, Res.ok_bind]
        dsimp only
        cases resolve host (path.parent.getD ⟨['.']⟩) manifest.scripts with
        | none => exact ⟨_, rfl⟩
        | some resolved => exact ⟨_, rfl⟩
      obtain ⟨r₁, hr₁⟩ := hread
      obtain ⟨r, hr⟩ := ih.mpr hrest
      exact ⟨r, bind_eq_ok.mpr ⟨r₁, hr₁, hr⟩⟩

/-- The checks that registering a directory makes of the script in one of its files: the manifests
can be read, no incomplete one lists the script, and the last complete one of the name that the
script declares does. -/
def Passes (host : Host) (dir : PathBuf) (script : Script) : Prop :=
  ∃ files, Contains host dir files ∧
    (∀ path ∈ files.filter isManifest, ∃ manifest, manifestAt host path = .ok manifest) ∧
      (script.sourcePath ∈ files ∧ script.sourcePath.hasExtension "luaml".toList) ∧
        ¬Blocked host (files.filter isManifest) script.sourcePath ∧
          Owned host (files.filter isManifest) script

theorem admits_iff {host : Host} {dir : PathBuf} {script : Script} :
    Admits host dir script ↔
      load host script.sourcePath = .ok script ∧ Passes host dir script := by
  constructor
  · rintro ⟨hdir, manifests, _, hscan, hmem, hload, hnone⟩
    obtain ⟨files, hfiles, hread, rfl⟩ := scanDir_eq_ok.mp hscan
    obtain ⟨hentry, hblocked⟩ := (mem_toLoad hread _).mp hmem
    exact ⟨hload, files, ⟨hdir, hfiles⟩, readManifests_isOk.mp ⟨manifests, hread⟩, hentry, hblocked,
      (unlisted_eq_none hread script).mp hnone⟩
  · rintro ⟨hload, files, ⟨hdir, hfiles⟩, hmanifests, hentry, hblocked, howned⟩
    obtain ⟨manifests, hread⟩ := readManifests_isOk.mpr hmanifests
    exact ⟨hdir, manifests, _, scanDir_eq_ok.mpr ⟨files, hfiles, hread, rfl⟩,
      (mem_toLoad hread _).mpr ⟨hentry, hblocked⟩, hload,
        (unlisted_eq_none hread script).mpr howned⟩

/-- An extension is skipped that has a script missing: no script is registered that its manifest
lists or that declares its name, unless a complete manifest of the name lists the script. -/
def SkipsIncomplete (host : Host) (dir : PathBuf) (new : List Script) : Prop :=
  ∀ files, Contains host dir files → ∀ path ∈ files.filter isManifest,
    ∀ manifest, manifestAt host path = .ok manifest → Incomplete host path manifest →
      ∀ script ∈ new,
        Lists host path manifest script.sourcePath ∨ script.extension = some manifest.name →
          ∃ path' manifest', CompleteOf host (files.filter isManifest) manifest.name path'
            manifest' ∧ Lists host path' manifest' script.sourcePath

/-- Every script that declares the name of an incomplete extension is listed in an incomplete
manifest, or there is a complete manifest of the name as well. -/
def StrayFree (host : Host) (dir : PathBuf) : Prop :=
  ∀ files, Contains host dir files → ∀ path ∈ files.filter isManifest,
    ∀ manifest, manifestAt host path = .ok manifest → Incomplete host path manifest →
      ∀ entry ∈ files, entry.hasExtension "luaml".toList →
        ∀ script, load host entry = .ok script → script.extension = some manifest.name →
          Blocked host (files.filter isManifest) entry ∨
            ∃ path' manifest', CompleteOf host (files.filter isManifest) manifest.name path'
              manifest'

theorem loads_of_loadAll {host : Host} {manifests : Manifests} {files : List PathBuf}
    (h : (loadAll host manifests files).1 = .ok ()) : ∀ p ∈ files, Loads host manifests p := by
  induction files with
  | nil => simp
  | cons entry files ih =>
    rw [loadAll] at h
    cases hload : load host entry with
    | err e => simp [hload] at h
    | panic c => simp [hload] at h
    | ok script =>
      cases hlisted : unlisted manifests (canonical host entry) script with
      | some extName => simp [hload, hlisted] at h
      | none =>
        simp only [hload, hlisted] at h
        exact List.forall_mem_cons.mpr ⟨⟨script, hload, hlisted⟩, ih h⟩

theorem registered_of_load {host : Host} {reg : ScriptRegistry} {dir : PathBuf} {n : Nat}
    (h : (reg.registerDir host dir).1 = .ok n) {files : List PathBuf}
    (hfiles : Contains host dir files) {entry : PathBuf} (hentry : entry ∈ files)
    (hluaml : entry.hasExtension "luaml".toList)
    (hblocked : ¬Blocked host (files.filter isManifest) entry) {script : Script}
    (hload : load host entry = .ok script) : script ∈ registered host reg dir := by
  obtain ⟨manifests, _, hscan, hok, heq⟩ := scanned_of_ok h hfiles.1
  obtain ⟨files', hfiles', hread, rfl⟩ := scanDir_eq_ok.mp hscan
  obtain rfl := Res.ok.inj (hfiles.2.symm.trans hfiles')
  have hmem := (mem_toLoad hread entry).mpr ⟨⟨hentry, hluaml⟩, hblocked⟩
  obtain ⟨script', hload', hnone⟩ := loads_of_loadAll hok entry hmem
  obtain rfl := Res.ok.inj (hload.symm.trans hload')
  obtain rfl := sourcePath_of_load hload
  rw [heq, mem_loadAll hok]
  exact ⟨hmem, hload, hnone⟩

theorem skipsIncomplete_iff {host : Host} {reg : ScriptRegistry} {dir : PathBuf} {n : Nat}
    (h : (reg.registerDir host dir).1 = .ok n) :
    SkipsIncomplete host dir (registered host reg dir) ↔ StrayFree host dir := by
  constructor
  · intro hskips files hfiles path hpath manifest hat hincomplete entry hentry hluaml script hload
      hname
    by_cases hblocked : Blocked host (files.filter isManifest) entry
    · exact .inl hblocked
    · have hnew := registered_of_load h hfiles hentry hluaml hblocked hload
      obtain ⟨path', manifest', hof, -⟩ :=
        hskips files hfiles path hpath manifest hat hincomplete script hnew (.inr hname)
      exact .inr ⟨path', manifest', hof⟩
  · intro hstray files hfiles path hpath manifest hat hincomplete script hnew hmember
    obtain ⟨hload, files', hfiles', -, ⟨hentry, hluaml⟩, hblocked, howned⟩ :=
      admits_iff.mp ((mem_registered h script).mp hnew)
    obtain rfl := Res.ok.inj (hfiles.2.symm.trans hfiles'.2)
    rcases hmember with hlists | hname
    · exact absurd ⟨path, hpath, manifest, hat, hincomplete, hlists⟩ hblocked
    · rcases hstray files hfiles path hpath manifest hat hincomplete _ hentry hluaml script hload
        hname with hblocked' | hcomplete
      · exact absurd hblocked' hblocked
      · obtain ⟨path', manifest', hlast⟩ := exists_lastOf.mpr hcomplete
        exact ⟨path', manifest', .of_lastOf hlast, howned _ hname path' manifest' hlast⟩

def flat (files : List (Str × Str)) (manifests : List (Str × ExtensionManifest)) : Host where
  isDir p := p.text == "d".toList
  readDir p :=
    if p.text = "d".toList then .ok (files.map fun f => .ok ⟨"d/".toList ++ f.1⟩)
    else .err (.io "not found".toList)
  readToString p :=
    match files.find? fun f => "d/".toList ++ f.1 = p.text with
    | some f => .ok f.2
    | none => .err (.io "not found".toList)
  canonicalize p := if files.any fun f => "d/".toList ++ f.1 = p.text then some p else none
  pathExists p := files.any fun f => "d/".toList ++ f.1 = p.text
  toml text :=
    match Map.get manifests text with
    | some manifest => .ok manifest
    | none => .error "invalid".toList
  height p := if p.text = "d".toList then 1 else 0
  height_lt := by
    intro dir entries path hdir hmem hpath
    have htext : path.text = "d".toList := by simpa using hpath
    split_ifs at hdir with h
    obtain rfl := Res.ok.inj hdir
    obtain ⟨f, -, hf⟩ := List.mem_map.mp hmem
    rw [← Res.ok.inj hf] at htext
    exact absurd (congrArg List.length htext) (by simp)

def brokenManifest : Str := "name = 'x'\nscripts = ['a.luaml', 'gone.luaml']\n".toList

def broken : Host :=
  flat [("a.luaml".toList, "---\n! x\nk: *\n---\n".toList),
      ("b.luaml".toList, "---\n! x\nk: *\n---\n".toList),
      ("x.extension.toml".toList, brokenManifest)]
    [(brokenManifest, ⟨"x".toList, ["a.luaml".toList, "gone.luaml".toList]⟩)]

theorem skipsIncomplete_broken :
    SkipsIncomplete broken ⟨"d".toList⟩ (registered broken empty ⟨"d".toList⟩) ↔
      StrayFree broken ⟨"d".toList⟩ :=
  skipsIncomplete_iff (n := 1) (by decide +kernel)

theorem broken_files : Contains broken ⟨"d".toList⟩
    [⟨"d/a.luaml".toList⟩, ⟨"d/b.luaml".toList⟩, ⟨"d/x.extension.toml".toList⟩] :=
  ⟨rfl, by decide +kernel⟩

/-- The script is registered that declares the name, though it is not listed. -/
theorem stray_script_registered :
    ¬∀ (host : Host) (reg : ScriptRegistry) (dir : PathBuf) (n : Nat),
      (reg.registerDir host dir).1 = .ok n →
        SkipsIncomplete host dir (registered host reg dir) := by
  intro h
  have hskips := h broken empty ⟨"d".toList⟩ 1 (by decide +kernel) _ broken_files
    ⟨"d/x.extension.toml".toList⟩ (by decide +kernel)
    ⟨"x".toList, ["a.luaml".toList, "gone.luaml".toList]⟩ rfl
    ⟨"gone.luaml".toList, by simp, by decide +kernel⟩
  have hany :
      (registered broken empty ⟨"d".toList⟩).any (·.extension = some "x".toList) = true := by
    decide +kernel
  obtain ⟨script, hnew, hname⟩ := List.any_eq_true.mp hany
  obtain ⟨path, manifest, ⟨hmem, hat, -, hcomplete⟩, -⟩ :=
    hskips script hnew (.inr (of_decide_eq_true hname))
  have hfiles : [⟨"d/a.luaml".toList⟩, ⟨"d/b.luaml".toList⟩, ⟨"d/x.extension.toml".toList⟩].filter
      isManifest = [⟨"d/x.extension.toml".toList⟩] := by
    decide +kernel
  rw [hfiles, List.mem_singleton] at hmem
  subst hmem
  obtain rfl : _ = manifest := Res.ok.inj hat
  exact hcomplete ⟨"gone.luaml".toList, by simp, by decide +kernel⟩

end ScriptRegistry

end Luaml
