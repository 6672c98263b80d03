import Luaml.Lib.Path
import Luaml.Pattern

namespace Luaml

open Rust Str

structure ExecutionPolicy where
  fields : List (Str × Pattern)

structure Behavior where
  luaSource : Str

abbrev Annotations := List (Str × Str)

structure Clause where
  policy : ExecutionPolicy
  guard : Option Str
  behavior : Behavior
  annotations : Annotations
  fieldAnnotations : List (Str × Annotations)

structure Script where
  sourcePath : PathBuf
  extension : Option Str
  clauses : List Clause

namespace Parser

def dashes : Str := ['-', '-', '-']

inductive Line
  | blank
  | note (key value : Str)
  | guard (expr : Str)
  | field (key value : Str)

def readLine (line : Str) : Res LuamlError Line :=
  let trimmed := trim line
  if trimmed.isEmpty then .ok .blank
  else if startsWith trimmed '!' then
    .err (.parse "extension `!` must appear at the top of the first frontmatter block".toList
      "frontmatter".toList)
  else
    match stripPrefix '@' trimmed, stripPrefix '?' trimmed with
    | some rest, _ =>
      match splitOnce ':' rest with
      | none =>
        .err (.parse ("annotation line missing value: ".toList ++ trimmed) "frontmatter".toList)
      | some (key, value) => .ok (.note (trim key) (trim value))
    | none, some expr =>
      let expr := trim expr
      if expr.isEmpty then
        .err (.parse "guard line '?' has no expression".toList "frontmatter".toList)
      else .ok (.guard expr)
    | none, none =>
      match splitOnce ':' trimmed with
      | none =>
        .err (.parse ("invalid frontmatter line: ".toList ++ line) "frontmatter".toList)
      | some (key, value) =>
        let key := trim key
        let value := trim value
        if value.isEmpty then
          .err (.parse ("frontmatter field '".toList ++ key ++ "' has no value".toList)
            "frontmatter".toList)
        else .ok (.field key value)

/-- What the loop of `parse_frontmatter_block` carries from one line to the next. -/
structure Frontmatter where
  fields : List (Str × Pattern)
  guards : List Str
  topAnnotations : Annotations
  fieldAnnotations : List (Str × Annotations)
  pendingAnnotations : Annotations
  firstFieldSeen : Bool

def Frontmatter.start : Frontmatter := ⟨[], [], [], [], [], false⟩

/-- In a base block the annotations before the first field are top-level, and any
others annotate the field. -/
def Frontmatter.flush (st : Frontmatter) (isChild : Bool) (key : Str) : Frontmatter :=
  if !st.firstFieldSeen && !isChild then
    { st with topAnnotations := st.pendingAnnotations, pendingAnnotations := [],
              firstFieldSeen := true }
  else if !st.pendingAnnotations.isEmpty then
    { st with fieldAnnotations := Map.insert st.fieldAnnotations key st.pendingAnnotations,
              pendingAnnotations := [], firstFieldSeen := true }
  else { st with firstFieldSeen := true }

def Frontmatter.take (isChild : Bool) (st : Frontmatter) : Line → Res LuamlError Frontmatter
  | .blank => .ok st
  | .note key value =>
    .ok { st with pendingAnnotations := st.pendingAnnotations ++ [(key, value)] }
  | .guard expr => .ok { st with guards := st.guards ++ [expr], pendingAnnotations := [] }
  | .field key value => do
    let st := st.flush isChild key
    let pattern ← (Pattern.parsePatternValue value).mapErr .pattern
    .ok { st with fields := st.fields ++ [(key, pattern)] }

def Frontmatter.read (isChild : Bool) : Frontmatter → List Str → Res LuamlError Frontmatter
  | st, [] => .ok st
  | st, line :: lines => do
    let form ← readLine line
    let st ← st.take isChild form
    st.read isChild lines

structure FrontmatterBlock where
  fields : List (Str × Pattern)
  guard : Option Str
  annotations : Annotations
  fieldAnnotations : List (Str × Annotations)

def Frontmatter.finish (st : Frontmatter) : FrontmatterBlock where
  fields := st.fields
  guard := if st.guards.isEmpty then none else some (join " and ".toList st.guards)
  annotations := if !st.firstFieldSeen then st.pendingAnnotations else st.topAnnotations
  fieldAnnotations := st.fieldAnnotations

def parseFrontmatterBlock (lines : List Str) (isChild : Bool) :
    Res LuamlError FrontmatterBlock := do
  let st ← Frontmatter.start.read isChild lines
  .ok st.finish

/-- The loop of `extract_extension`: the declaration, and the number of lines it takes up. -/
def extensionLines (sourceName : Str) : Option Str → Nat → List Str →
    Res LuamlError (Option Str × Nat)
  | extension, consumed, [] => .ok (extension, consumed)
  | extension, consumed, line :: lines =>
    let trimmed := trim line
    if trimmed.isEmpty then extensionLines sourceName extension (consumed + 1) lines
    else
      match stripPrefix '!' trimmed with
      | some name =>
        let name := trim name
        if name.isEmpty then
          .err (.parse "extension declaration `!` has no name".toList sourceName)
        else if extension.isSome then
          .err (.parse "only one extension declaration `!` is allowed per script".toList sourceName)
        else extensionLines sourceName (some name) (consumed + 1) lines
      | none => .ok (extension, consumed)

def extractExtension (lines : List Str) (sourceName : Str) :
    Res LuamlError (Option Str × List Str) := do
  let (extension, consumed) ← extensionLines sourceName none 0 lines
  let rest ← sliceList lines consumed lines.length
  .ok (extension, rest)

def looksLikeFrontmatter : List Str → Bool
  | [] => false
  | line :: lines =>
    let trimmed := trim line
    if trimmed.isEmpty then looksLikeFrontmatter lines
    else trimmed.contains ':' || startsWith trimmed '?' || startsWith trimmed '@'

def position (lines : List Str) : Option Nat := lines.findIdx? (· == dashes)

/-- The loop of `find_clause_boundaries` from line `i` on, for so many rounds. -/
def boundariesFrom (lines : List Str) : Nat → Nat → Res LuamlError (List Nat)
  | 0, _ => .panic .recursion
  | n + 1, i =>
    if i < lines.length then do
      let line ← getList lines i
      let close ← if line = dashes then do
          let after ← sliceList lines (i + 1) lines.length
          .ok (position after)
        else .ok none
      match close with
      | some close => do
        let between ← sliceList lines (i + 1) (i + 1 + close)
        if looksLikeFrontmatter between then do
          let boundaries ← boundariesFrom lines n (i + 1 + close + 1)
          .ok (i :: boundaries)
        else boundariesFrom lines n (i + 1)
      | none => boundariesFrom lines n (i + 1)
    else .ok []

def findClauseBoundaries (lines : List Str) : Res LuamlError (List Nat) :=
  boundariesFrom lines (lines.length + 1) 0

def mergeFields (base child : List (Str × Pattern)) : List (Str × Pattern) :=
  child.foldl (fun merged (key, pattern) => Map.insert merged key pattern) base

def mergeFieldAnnotations (base child : List (Str × Annotations))
    (mergedFields : List (Str × Pattern)) : List (Str × Annotations) :=
  mergedFields.foldl (fun merged (fieldName, _) =>
    match Map.get child fieldName, Map.get base fieldName with
    | some annotations, _ => Map.insert merged fieldName annotations
    | none, some annotations => Map.insert merged fieldName annotations
    | none, none => merged) []

/-- The `i`-th round of the loop over the clause boundaries. -/
def childClause (sourceName : Str) (rest : List Str) (boundaries : List Nat)
    (base : FrontmatterBlock) (i boundaryStart : Nat) : Res LuamlError Clause := do
  let fmStart := boundaryStart + 1
  let after ← sliceList rest fmStart rest.length
  match position after with
  | none =>
    .err (.parse ("multi-clause block ".toList ++ (Nat.repr (i + 2)).toList
      ++ " did not close frontmatter with ---".toList) sourceName)
  | some j => do
    let fmEnd := fmStart + j
    let childFmLines ← sliceList rest fmStart fmEnd
    let child ← parseFrontmatterBlock childFmLines true
    let bodyEnd := boundaries[i + 1]?.getD rest.length
    let body ← sliceList rest (fmEnd + 1) bodyEnd
    let mergedFields := mergeFields base.fields child.fields
    .ok {
      policy := ⟨mergedFields⟩
      guard := child.guard
      behavior := ⟨join ['\n'] body⟩
      annotations := child.annotations
      fieldAnnotations :=
        mergeFieldAnnotations base.fieldAnnotations child.fieldAnnotations mergedFields }

def parseLuaml (sourcePath : PathBuf) (text : Str) : Res LuamlError Script := do
  let allLines := lines text
  let sourceName := sourcePath.text
  let open_ ← if allLines.isEmpty then .ok false else do
    let first ← getList allLines 0
    .ok (first == dashes)
  if !open_ then
    .err (.parse "luaml file must start with frontmatter delimiter ---".toList sourceName)
  else do
    let afterOpen ← sliceList allLines 1 allLines.length
    match position afterOpen with
    | none => .err (.parse "luaml file did not close frontmatter with ---".toList sourceName)
    | some i => do
      let firstClose := i + 1
      let fmLines ← sliceList allLines 1 firstClose
      let (extension, fmLines) ← extractExtension fmLines sourceName
      let base ← parseFrontmatterBlock fmLines false
      let rest ← sliceList allLines (firstClose + 1) allLines.length
      let boundaries ← findClauseBoundaries rest
      let firstBodyEnd := boundaries.head?.getD rest.length
      let firstBody ← sliceList rest 0 firstBodyEnd
      let first : Clause := {
        policy := ⟨base.fields⟩
        guard := base.guard
        behavior := ⟨join ['\n'] firstBody⟩
        annotations := base.annotations
        fieldAnnotations := base.fieldAnnotations }
      let children ← Res.collect
        (fun (boundaryStart, i) => childClause sourceName rest boundaries base i boundaryStart)
        boundaries.zipIdx
      .ok ⟨sourcePath, extension, first :: children⟩

end Parser

end Luaml
