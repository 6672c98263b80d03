import Luaml.Guard
import Luaml.Parser
import Luaml.PatternMatch

namespace Luaml

open Rust Str

structure ExtensionManifest where
  name : Str
  scripts : List Str

/-- What the file system and the TOML library answer.  Every directory is of finite height. -/
structure Host where
  isDir : PathBuf → Bool
  readDir : PathBuf → Res LuamlError (List (Res LuamlError PathBuf))
  readToString : PathBuf → Res LuamlError Str
  canonicalize : PathBuf → Option PathBuf
  pathExists : PathBuf → Bool
  toml : Str → Except Str ExtensionManifest
  height : PathBuf → Nat
  height_lt : ∀ dir entries path, readDir dir = .ok entries → Res.ok path ∈ entries →
    isDir path → height path < height dir

def parseManifest (host : Host) (text : Str) (manifestPath : PathBuf) :
    Res LuamlError ExtensionManifest :=
  match host.toml text with
  | .ok manifest => .ok manifest
  | .error e => .err (.parse ("invalid extension manifest: ".toList ++ e) manifestPath.text)

/-- `walkdir` with a bound on the height of the directory. -/
def walkWithin (host : Host) : Nat → PathBuf → Res LuamlError (List PathBuf)
  | 0, _ => .panic .recursion
  | n + 1, dir => do
    let entries ← host.readDir dir
    let files ← Res.collect (fun entry => do
      let path ← entry
      if host.isDir path then walkWithin host n path else .ok [path]) entries
    .ok files.flatten

def walkdir (host : Host) (dir : PathBuf) : Res LuamlError (List PathBuf) :=
  walkWithin host (host.height dir + 1) dir

structure ScriptRegistry where
  scripts : List Script

structure ClauseMatch where
  script : Script
  clause : Clause
  bindings : FieldBindings

structure QueryResult where
  script : Script
  clauseIndex : Nat
  clause : Clause

namespace ScriptRegistry

def empty : ScriptRegistry := ⟨[]⟩

def registerText (reg : ScriptRegistry) (sourcePath : PathBuf) (text : Str) :
    Res LuamlError Unit × ScriptRegistry :=
  match Parser.parseLuaml sourcePath text with
  | .ok script => (.ok (), ⟨reg.scripts ++ [script]⟩)
  | .err e => (.err e, reg)
  | .panic c => (.panic c, reg)

def registerFile (host : Host) (reg : ScriptRegistry) (path : PathBuf) :
    Res LuamlError Unit × ScriptRegistry :=
  match host.readToString path with
  | .ok text => reg.registerText path text
  | .err e => (.err e, reg)
  | .panic c => (.panic c, reg)

def isManifest (path : PathBuf) : Bool :=
  path.fileName.any fun name => ".extension.toml".toList.isSuffixOf name

/-- `full.canonicalize().unwrap_or(full)` -/
def canonical (host : Host) (full : PathBuf) : PathBuf := (host.canonicalize full).getD full

/-- The scripts of a manifest, unless one of them does not exist. -/
def resolve (host : Host) (manifestDir : PathBuf) : List Str → Option (List PathBuf)
  | [] => some []
  | relPath :: relPaths =>
    let path := canonical host (manifestDir.join relPath)
    if !host.pathExists path then none
    else (resolve host manifestDir relPaths).map (path :: ·)

/-- What the manifests of a directory say: the paths of the extensions that are skipped, and the
scripts of the others. -/
structure Manifests where
  blockedPaths : List PathBuf
  extensionScripts : List (Str × List PathBuf)

def readManifest (host : Host) (manifests : Manifests) (manifestPath : PathBuf) :
    Res LuamlError Manifests := do
  let text ← host.readToString manifestPath
  let manifest ← parseManifest host text manifestPath
  let manifestDir := manifestPath.parent.getD ⟨['.']⟩
  match resolve host manifestDir manifest.scripts with
  | some resolved =>
    .ok { manifests with
      extensionScripts := Map.insert manifests.extensionScripts manifest.name resolved }
  | none =>
    .ok { manifests with
      blockedPaths := manifests.blockedPaths ++
        manifest.scripts.map fun rel => canonical host (manifestDir.join rel) }

def readManifests (host : Host) : Manifests → List PathBuf → Res LuamlError Manifests
  | manifests, [] => .ok manifests
  | manifests, path :: paths => do
    let manifests ← readManifest host manifests path
    readManifests host manifests paths

def unlisted (manifests : Manifests) (canonicalPath : PathBuf) (script : Script) : Option Str :=
  script.extension.bind fun extName =>
    (Map.get manifests.extensionScripts extName).bind fun manifestPaths =>
      if manifestPaths.any (PathBuf.same canonicalPath) then none else some extName

/-- The loop over the `.luaml` files, with the count so far. -/
def registerFiles (host : Host) (manifests : Manifests) : List PathBuf → Nat → ScriptRegistry →
    Res LuamlError Nat × ScriptRegistry
  | [], count, reg => (.ok count, reg)
  | entry :: entries, count, reg =>
    let canonicalPath := canonical host entry
    if manifests.blockedPaths.any (PathBuf.same canonicalPath) then
      registerFiles host manifests entries count reg
    else
      match registerFile host reg entry with
      | (.err e, reg) => (.err e, reg)
      | (.panic c, reg) => (.panic c, reg)
      | (.ok (), reg) =>
        match reg.scripts.getLast?.bind (unlisted manifests canonicalPath) with
        | some extName =>
          (.err (.parse ("script declares extension '".toList ++ extName
            ++ "' but is not listed in its manifest".toList) entry.text), reg)
        | none => registerFiles host manifests entries (count + 1) reg

def scanDir (host : Host) (dir : PathBuf) : Res LuamlError (Manifests × List PathBuf) := do
  let allFiles ← walkdir host dir
  let manifests ← readManifests host ⟨[], []⟩ (allFiles.filter isManifest)
  .ok (manifests, allFiles.filter fun path => path.hasExtension "luaml".toList)

def registerDir (host : Host) (reg : ScriptRegistry) (dir : PathBuf) :
    Res LuamlError Nat × ScriptRegistry :=
  if !host.isDir dir then (.ok 0, reg)
  else
    match scanDir host dir with
    | .err e => (.err e, reg)
    | .panic c => (.panic c, reg)
    | .ok (manifests, luamlFiles) => registerFiles host manifests luamlFiles 0 reg

def unregister (reg : ScriptRegistry) (sourcePath : PathBuf) : Bool × ScriptRegistry :=
  let scripts := reg.scripts.filter fun s => !s.sourcePath.same sourcePath
  (scripts.length != reg.scripts.length, ⟨scripts⟩)

def replace (reg : ScriptRegistry) (sourcePath : PathBuf) (text : Str) :
    Res LuamlError Bool × ScriptRegistry :=
  match reg.unregister sourcePath with
  | (replaced, reg) =>
    match reg.registerText sourcePath text with
    | (.ok (), reg) => (.ok replaced, reg)
    | (.err e, reg) => (.err e, reg)
    | (.panic c, reg) => (.panic c, reg)

def clear (_reg : ScriptRegistry) : ScriptRegistry := empty

def passes (guard : Option Str) (bindings : FieldBindings) : Bool :=
  match guard with
  | none => true
  | some guardExpr =>
    match Guard.evaluateGuard guardExpr bindings with
    | .ok b => b
    | _ => false

def matchFirstClause (script : Script) (event : FieldMap) : Option ClauseMatch :=
  script.clauses.findSome? fun clause =>
    match Pattern.matchFields clause.policy.fields event with
    | none => none
    | some bindings =>
      if passes clause.guard bindings then some ⟨script, clause, bindings⟩ else none

/-- At most one match a script. -/
def matchClauses (reg : ScriptRegistry) (event : FieldMap) : List ClauseMatch :=
  reg.scripts.filterMap (matchFirstClause · event)

def subsetMatches (query : FieldMap) (patternFields : List (Str × Pattern)) : Bool :=
  query.all fun (queryField, queryValue) =>
    match patternFields.find? fun (k, _) => k = queryField with
    | none => false
    | some (_, pattern) => (Pattern.matchFieldValue pattern queryValue).isSome

def querySubset (reg : ScriptRegistry) (query : FieldMap) : List QueryResult :=
  reg.scripts.flatMap fun script =>
    script.clauses.zipIdx.filterMap fun (clause, clauseIndex) =>
      if subsetMatches query clause.policy.fields then some ⟨script, clauseIndex, clause⟩ else none

end ScriptRegistry

inductive FileChange
  | createOrModify (path : PathBuf)
  | remove (path : PathBuf)

namespace ScriptWatcher

/-- One pending change, and the path if the registry was touched. -/
def applyChange (host : Host) (reg : ScriptRegistry) :
    FileChange → Res LuamlError (Option PathBuf) × ScriptRegistry
  | .createOrModify path =>
    match host.readToString path with
    | .ok text =>
      match reg.replace path text with
      | (.ok _, reg) => (.ok (some path), reg)
      | (.err _, reg) => (.ok none, reg)
      | (.panic c, reg) => (.panic c, reg)
    | .err _ => (.ok none, reg)
    | .panic c => (.panic c, reg)
  | .remove path => (.ok (some path), (reg.unregister path).2)

def applyPending (host : Host) : List FileChange → ScriptRegistry →
    Res LuamlError (List PathBuf) × ScriptRegistry
  | [], reg => (.ok [], reg)
  | change :: changes, reg =>
    match applyChange host reg change with
    | (.ok touched, reg) =>
      match applyPending host changes reg with
      | (.ok changed, reg) => (.ok (touched.toList ++ changed), reg)
      | failed => failed
    | (.err e, reg) => (.err e, reg)
    | (.panic c, reg) => (.panic c, reg)

end ScriptWatcher

end Luaml
