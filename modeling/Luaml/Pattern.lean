import Luaml.Lib.Unicode
import Luaml.Types

namespace Luaml

open Rust Str

mutual
inductive Pattern
  | wildcard
  | enum (name : Str)
  | stringLiteral (text : Str)
  | numberLiteral (n : Int64)
  | boolLiteral (b : Bool)
  | variable (name : Str)
  | pin (name : Str)
  | list (p : ListPattern)
  | map (fields : List (Str × Pattern))

inductive ListPattern
  | empty
  | headTail (head tail : Pattern)
  | elements (ps : List Pattern)
end

namespace Pattern

def isIdentifier : Str → Bool
  | [] => false
  | first :: rest =>
    (Char.isAlphabetic first || first == '_') &&
      rest.all fun c => Char.isAlphanumeric c || c == '_'

/-- The loop of `find_pipe`; the result is an offset from where the loop stands. -/
def findPipeFrom (depth : Int) : Str → Res PatternParseError (Option Nat)
  | [] => .ok none
  | ch :: s =>
    if ch = '[' ∨ ch = '{' then do
      let depth ← checkedI32 (depth + 1)
      let i ← findPipeFrom depth s
      .ok (i.map (ch.utf8Size + ·))
    else if ch = ']' ∨ ch = '}' then do
      let depth ← checkedI32 (depth - 1)
      let i ← findPipeFrom depth s
      .ok (i.map (ch.utf8Size + ·))
    else if ch = '|' ∧ depth = 0 then .ok (some 0)
    else do
      let i ← findPipeFrom depth s
      .ok (i.map (ch.utf8Size + ·))

def findPipe (s : Str) : Res PatternParseError (Option Nat) := findPipeFrom 0 s

structure Split where
  parts : List Str
  depth : Int
  current : Str
  inQuotes : Bool
  quoteChar : Char

def Split.push (st : Split) (ch : Char) : Split := { st with current := st.current ++ [ch] }

def Split.step (delim : Char) (st : Split) (ch : Char) : Res PatternParseError Split :=
  if st.inQuotes then
    if ch = st.quoteChar then .ok { st.push ch with inQuotes := false } else .ok (st.push ch)
  else if ch = '"' ∨ ch = '\'' then .ok { st.push ch with inQuotes := true, quoteChar := ch }
  else if ch = '[' ∨ ch = '{' then do
    let depth ← checkedI32 (st.depth + 1)
    .ok { st.push ch with depth := depth }
  else if ch = ']' ∨ ch = '}' then do
    let depth ← checkedI32 (st.depth - 1)
    .ok { st.push ch with depth := depth }
  else if ch = delim ∧ st.depth = 0 then
    .ok { st with parts := st.parts ++ [st.current], current := [] }
  else .ok (st.push ch)

def Split.read (delim : Char) : Split → Str → Res PatternParseError Split
  | st, [] => .ok st
  | st, ch :: s => do
    let st ← st.step delim ch
    Split.read delim st s

def Split.start : Split := ⟨[], 0, [], false, '"'⟩

def Split.finish (st : Split) : List Str :=
  if st.current.isEmpty then st.parts else st.parts ++ [st.current]

def splitTopLevel (s : Str) (delim : Char) : Res PatternParseError (List Str) := do
  let st ← Split.read delim Split.start s
  .ok st.finish

def parseListPattern (value : Str → Res PatternParseError Pattern) (input : Str) :
    Res PatternParseError Pattern := do
  let inner := trim (← slice input 1 (byteLen input - 1))
  if inner.isEmpty then .ok (.list .empty)
  else
    match ← findPipe inner with
    | some pipePos => do
      let headStr := trim (← sliceTo inner pipePos)
      let tailStr := trim (← sliceFrom inner (pipePos + 1))
      let head ← value headStr
      let tail ← value tailStr
      .ok (.list (.headTail head tail))
    | none => do
      let elements ← splitTopLevel inner ','
      let patterns ← Res.collect (fun e => value (trim e)) elements
      .ok (.list (.elements patterns))

def parseMapEntry (value : Str → Res PatternParseError Pattern) (pair : Str) :
    Res PatternParseError (Str × Pattern) :=
  let pair := trim pair
  match find ':' pair with
  | none => .err (parseErr "map pattern entry missing ':'".toList pair)
  | some colonPos => do
    let key := trim (← sliceTo pair colonPos)
    let val := trim (← sliceFrom pair (colonPos + 1))
    if isIdentifier key then do
      let pattern ← value val
      .ok (key, pattern)
    else .err (parseErr "invalid map key".toList key)

def parseMapPattern (value : Str → Res PatternParseError Pattern) (input : Str) :
    Res PatternParseError Pattern := do
  let inner := trim (← slice input 1 (byteLen input - 1))
  if inner.isEmpty then .ok (.map [])
  else do
    let pairs ← splitTopLevel inner ','
    let fields ← Res.collect (parseMapEntry value) pairs
    .ok (.map fields)

def parseName (make : Str → Pattern) (message name input : Str) : Res PatternParseError Pattern :=
  let name := trim name
  if isIdentifier name then .ok (make name) else .err (parseErr message input)

def parseValue (value : Str → Res PatternParseError Pattern) (input : Str) :
    Res PatternParseError Pattern :=
  let trimmed := trim input
  if trimmed.isEmpty then .err (parseErr "empty pattern".toList input)
  else if trimmed = ['*'] ∨ trimmed = ['_'] then .ok .wildcard
  else if startsWith trimmed ':' && endsWith trimmed ':' && 3 ≤ byteLen trimmed then do
    let inner ← slice trimmed 1 (byteLen trimmed - 1)
    if isIdentifier inner then .ok (.enum inner)
    else .err (parseErr "invalid enum name".toList input)
  else if startsWith trimmed '"' && endsWith trimmed '"'
      || startsWith trimmed '\'' && endsWith trimmed '\'' then do
    let inner ← slice trimmed 1 (byteLen trimmed - 1)
    .ok (.stringLiteral inner)
  else if trimmed = "true".toList then .ok (.boolLiteral true)
  else if trimmed = "false".toList then .ok (.boolLiteral false)
  else
    match parseI64 trimmed, stripPrefix '$' trimmed, stripPrefix '^' trimmed with
    | some n, _, _ => .ok (.numberLiteral n)
    | none, some name, _ => parseName .variable "invalid variable name".toList name input
    | none, none, some name => parseName .pin "invalid pin variable name".toList name input
    | none, none, none =>
      if startsWith trimmed '[' && endsWith trimmed ']' then parseListPattern value trimmed
      else if startsWith trimmed '{' && endsWith trimmed '}' then parseMapPattern value trimmed
      else
        .err (parseErr
          "bare words not allowed — use :enum:, \"string\", $var, or *".toList input)

/-- `parse_pattern_value` with a bound on the depth of the recursion. -/
def parseWithin : Nat → Str → Res PatternParseError Pattern
  | 0, _ => .panic .recursion
  | n + 1, input => parseValue (parseWithin n) input

def parsePatternValue (input : Str) : Res PatternParseError Pattern :=
  parseWithin (byteLen input + 1) input

mutual
def collectVariables : Pattern → List Str
  | .variable name => [name]
  | .list p => collectListVariables p
  | .map fields => collectFieldVariables fields
  | .wildcard | .enum _ | .stringLiteral _ | .numberLiteral _ | .boolLiteral _ | .pin _ => []

def collectListVariables : ListPattern → List Str
  | .empty => []
  | .headTail head tail => collectVariables head ++ collectVariables tail
  | .elements elements => collectElementVariables elements

def collectElementVariables : List Pattern → List Str
  | [] => []
  | p :: ps => collectVariables p ++ collectElementVariables ps

def collectFieldVariables : List (Str × Pattern) → List Str
  | [] => []
  | (_, p) :: fields => collectVariables p ++ collectFieldVariables fields
end

def debugNames (names : List Str) : Str :=
  '[' :: join ", ".toList (names.map fun name => '"' :: name ++ ['"']) ++ [']']

def checkUnseen (all : List Str) : List Str → List Str → Res PatternParseError Unit
  | _, [] => .ok ()
  | seen, var :: vars =>
    if var ∈ seen then
      .err (parseErr ("duplicate variable name '".toList ++ var ++ "' in pattern".toList)
        (debugNames all))
    else checkUnseen all (var :: seen) vars

def checkDuplicateVariables (fields : List (Str × Pattern)) : Res PatternParseError Unit :=
  let all := collectFieldVariables fields
  checkUnseen all [] all

end Pattern

end Luaml
