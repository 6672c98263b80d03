import Luaml.Lib.Json
import Luaml.Lua
import Mathlib.Data.List.Sort

/-! `src/stdlib/json.rs`: Lua values to JSON values and back, and the canonical order. -/

namespace Luaml

open Rust Serde Lua

namespace Lua

/-- What the host does with the heap, if it recurs no deeper than it may. -/
def RecM (H α : Type) := Heap H → Option (Except Str α × Heap H)

namespace RecM

variable {H α β : Type}

def bind (x : RecM H α) (f : α → RecM H β) : RecM H β := fun h =>
  match x h with
  | none => none
  | some (.ok a, h) => f a h
  | some (.error e, h) => some (.error e, h)

instance : Monad (RecM H) where
  pure a := fun h => some (.ok a, h)
  bind := bind

def lift (x : LuaM H α) : RecM H α := fun h => some (x h)

def ofExcept (r : Except Str α) : RecM H α := fun h => some (r, h)

end RecM

def pairs {H : Type} (t : Ref) : LuaM H (List (LuaValue × LuaValue)) := fun h =>
  match h[t]? with
  | some (.table entries _) => (.ok entries, h)
  | _ => (.ok [], h)

end Lua

namespace Json

/-- The texts in the errors: of a float, of a JSON number, and of what `to_str` says of a string
that is not UTF-8. -/
structure Texts where
  float : F64 → Str
  number : JsonNumber → Str
  notUtf8 : NotUtf8 → Str

def noTexts : Texts := ⟨fun _ => [], fun _ => [], fun _ => []⟩

/-- What the first pass over the keys of a table has found. -/
structure KeyShape where
  maxInt : Int64
  intCount : Nat
  hasNonInt : Bool

def KeyShape.empty : KeyShape := ⟨0, 0, false⟩

def keyKind (texts : Texts) : LuaValue → Except Str (Option Int64)
  | .integer i =>
    if 1 ≤ i then .ok (some i)
    else
      .error ("invalid JSON object key: integer ".toList ++ intText i.toInt ++
        " (must be >= 1 for array or string for object)".toList)
  | .number n =>
    if n.isFinite && n.isWhole && n.ge (F64.ofInt 1) then .ok (some n.toI64)
    else .error ("invalid JSON object key: non-integer number ".toList ++ texts.float n)
  | .string _ | .bytes _ => .ok none
  | other =>
    .error ("invalid JSON object key: ".toList ++ other.typeName ++
      " (must be string or positive integer)".toList)

def KeyShape.add (shape : KeyShape) : Option Int64 → KeyShape
  | some i =>
    { shape with
      intCount := shape.intCount + 1, maxInt := if shape.maxInt < i then i else shape.maxInt }
  | none => { shape with hasNonInt := true }

def keyShape (texts : Texts) : List (LuaValue × LuaValue) → KeyShape → Except Str KeyShape
  | [], shape => .ok shape
  | (k, _) :: pairs, shape => do
    let kind ← keyKind texts k
    keyShape texts pairs (shape.add kind)

def objectKey (texts : Texts) : LuaValue → Except Str Str
  | .string s => .ok s
  | .bytes b => .error (texts.notUtf8 b)
  | other =>
    .error ("invalid JSON object key: ".toList ++ other.typeName ++
      " (object requires string keys)".toList)

section

variable {H : Type} (texts : Texts) (vm : Vm H) (convert : LuaValue → RecM H JsonValue)

def encodeItems (t : Ref) : Nat → Int64 → RecM H (List JsonValue)
  | 0, _ => pure []
  | n + 1, i => do
    let v ← .lift (Lua.get vm t (.integer i))
    let item ← convert v
    let items ← encodeItems t n (i + 1)
    pure (item :: items)

def encodeMembers :
    List (LuaValue × LuaValue) → List (Str × JsonValue) → RecM H (List (Str × JsonValue))
  | [], obj => pure obj
  | (k, v) :: pairs, obj => do
    let key ← .ofExcept (objectKey texts k)
    let value ← convert v
    encodeMembers pairs (BTreeMap.insert Str.cmp obj key value)

def luaTableToJson (t : Ref) : RecM H JsonValue := do
  let entries ← .lift (pairs t)
  let shape ← .ofExcept (keyShape texts entries .empty)
  let total := entries.length
  if total = 0 then pure (.array [])
  else if shape.hasNonInt && decide (0 < shape.intCount) then
    .ofExcept (.error "invalid JSON object key: table mixes integer and string keys".toList)
  else if !shape.hasNonInt && shape.intCount == total &&
      shape.maxInt.toUInt64.toNat == total then do
    let out ← encodeItems vm convert t total 1
    pure (.array out)
  else do
    let obj ← encodeMembers texts convert entries []
    pure (.object obj)

end

def luaToJson {H : Type} (texts : Texts) (vm : Vm H) : Nat → LuaValue → RecM H JsonValue
  | 0, _ => fun _ => none
  | n + 1, value =>
    match value with
    | .nil => pure .null
    | .boolean b => pure (.bool b)
    | .integer i => pure (.number (.ofI64 i))
    | .number f =>
      match JsonNumber.fromF64 f with
      | some n => pure (.number n)
      | none => .ofExcept (.error ("invalid JSON number: ".toList ++ texts.float f))
    | .string s => pure (.string s)
    | .bytes b => .ofExcept (.error (texts.notUtf8 b))
    | .table t => luaTableToJson texts vm (luaToJson texts vm n) t
    | other =>
      .ofExcept (.error ("cannot encode Lua value as JSON: ".toList ++ other.typeName))

section

variable {H : Type} (vm : Vm H) (outOfRange : JsonNumber → Str)

mutual
def jsonToLua : JsonValue → LuaM H LuaValue
  | .null => pure .nil
  | .bool b => pure (.boolean b)
  | .number n =>
    match n.asI64, n.asF64 with
    | some i, _ => pure (.integer i)
    | none, some f => pure (.number f)
    | none, none => .throw (outOfRange n)
  | .string s => pure (.string s)
  | .array items => do
    let table ← createTable
    setArray table 1 items
    pure (.table table)
  | .object members => do
    let table ← createTable
    setMembers table members
    pure (.table table)

def setArray (table : Ref) (i : Int64) : List JsonValue → LuaM H Unit
  | [] => pure ()
  | item :: items => do
    let value ← jsonToLua item
    Lua.set vm table (.integer i) value
    setArray table (i + 1) items

def setMembers (table : Ref) : List (Str × JsonValue) → LuaM H Unit
  | [] => pure ()
  | (k, v) :: members => do
    let value ← jsonToLua v
    Lua.set vm table (.string k) value
    setMembers table members
end

end

def outOfRange (texts : Texts) (n : JsonNumber) : Str :=
  "JSON number out of range: ".toList ++ texts.number n

def sortMembers (members : List (Str × JsonValue)) : List (Str × JsonValue) :=
  members.insertionSort fun a b => Str.le a.1 b.1

mutual
/-- The members are sorted by their keys alone, so it is no matter that their values are
canonicalized first. -/
def canonicalize : JsonValue → JsonValue
  | .object obj => .object (BTreeMap.extend Str.cmp [] (sortMembers (canonicalizeMembers obj)))
  | .array arr => .array (canonicalizeItems arr)
  | other => other

def canonicalizeItems : List JsonValue → List JsonValue
  | [] => []
  | v :: arr => canonicalize v :: canonicalizeItems arr

def canonicalizeMembers : List (Str × JsonValue) → List (Str × JsonValue)
  | [] => []
  | (k, v) :: obj => (k, canonicalize v) :: canonicalizeMembers obj
end

def encodeCanonical {H : Type} (texts : Texts) (vm : Vm H) (n : Nat) (value : LuaValue) :
    RecM H JsonValue := do
  let json ← luaToJson texts vm n value
  pure (canonicalize json)

end Json

end Luaml
