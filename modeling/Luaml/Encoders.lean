import Luaml.JsonTables

/-! The encoders of `src/stdlib/rpc.rs` and `src/stdlib/http.rs`, which are copies of that of
`src/stdlib/json.rs` with some differences. -/

namespace Luaml

open Rust Serde Lua

namespace Json

/-- What the copies differ in. -/
structure Dialect where
  keyKind : LuaValue → Except Str (Option Int64)
  objectKey : LuaValue → Except Str Str
  /-- What a table without entries is. -/
  emptyTable : JsonValue
  mixedKeys : Str
  badNumber : F64 → Str
  notUtf8 : NotUtf8 → Str
  badValue : LuaValue → Str

namespace Dialect

variable {H : Type} (d : Dialect) (vm : Vm H) (convert : LuaValue → RecM H JsonValue)

def kindOf (badInteger : Int64 → Str) (badKey : LuaValue → Str) :
    LuaValue → Except Str (Option Int64)
  | .integer i => if 1 ≤ i then .ok (some i) else .error (badInteger i)
  | .string _ | .bytes _ => .ok none
  | other => .error (badKey other)

def keyShape : List (LuaValue × LuaValue) → KeyShape → Except Str KeyShape
  | [], shape => .ok shape
  | (k, _) :: pairs, shape => do
    let kind ← d.keyKind k
    keyShape pairs (shape.add kind)

def encodeMembers :
    List (LuaValue × LuaValue) → List (Str × JsonValue) → RecM H (List (Str × JsonValue))
  | [], obj => pure obj
  | (k, v) :: pairs, obj => do
    let key ← .ofExcept (d.objectKey k)
    let value ← convert v
    encodeMembers pairs (BTreeMap.insert Str.cmp obj key value)

def luaTableToJson (t : Ref) : RecM H JsonValue := do
  let entries ← .lift (pairs t)
  let shape ← .ofExcept (d.keyShape entries .empty)
  let total := entries.length
  if total = 0 then pure d.emptyTable
  else if shape.hasNonInt && decide (0 < shape.intCount) then .ofExcept (.error d.mixedKeys)
  else if !shape.hasNonInt && shape.intCount == total &&
      shape.maxInt.toUInt64.toNat == total then do
    let out ← encodeItems vm convert t total 1
    pure (.array out)
  else do
    let obj ← d.encodeMembers convert entries []
    pure (.object obj)

def luaToJson : Nat → LuaValue → RecM H JsonValue
  | 0, _ => fun _ => none
  | n + 1, value =>
    match value with
    | .nil => pure .null
    | .boolean b => pure (.bool b)
    | .integer i => pure (.number (.ofI64 i))
    | .number f =>
      match JsonNumber.fromF64 f with
      | some n => pure (.number n)
      | none => .ofExcept (.error (d.badNumber f))
    | .string s => pure (.string s)
    | .bytes b => .ofExcept (.error (d.notUtf8 b))
    | .table t => d.luaTableToJson vm (luaToJson n) t
    | other => .ofExcept (.error (d.badValue other))

end Dialect

end Json

namespace Rpc

open Json

def keyKind : LuaValue → Except Str (Option Int64) :=
  Dialect.kindOf (fun i => "rpc: invalid JSON object key: integer ".toList ++ intText i.toInt)
    fun other => "rpc: invalid JSON object key: ".toList ++ other.typeName

def objectKey (texts : Texts) : LuaValue → Except Str Str
  | .string s => .ok s
  | .bytes b => .error (texts.notUtf8 b)
  | other => .error ("rpc: invalid JSON object key: ".toList ++ other.typeName)

def dialect (texts : Texts) : Dialect where
  keyKind := keyKind
  objectKey := objectKey texts
  emptyTable := .array []
  mixedKeys := "rpc: invalid JSON object key: table mixes integer and string keys".toList
  badNumber f := "rpc: invalid JSON number: ".toList ++ texts.float f
  notUtf8 := texts.notUtf8
  badValue v := "rpc: cannot encode Lua value as JSON: ".toList ++ v.typeName

def luaToJson {H : Type} (texts : Texts) (vm : Vm H) : Nat → LuaValue → RecM H JsonValue :=
  (dialect texts).luaToJson vm

end Rpc

namespace Http

open Json

def keyKind : LuaValue → Except Str (Option Int64) :=
  Dialect.kindOf (fun _ => "http: table body keys must be string or positive integer".toList)
    fun _ => "http: table body keys must be string or positive integer".toList

/-- `String::from_lua`, with what `mlua` says of a value that it does not take for one. -/
def stringOf (texts : Texts) (notString : LuaValue → Str) : LuaValue → Except Str Str
  | .string s => .ok s
  | .bytes b => .error (texts.notUtf8 b)
  | .integer i => .ok (intText i.toInt)
  | .number f => .ok (texts.float f)
  | other => .error (notString other)

def dialect (texts : Texts) (notString : LuaValue → Str) : Dialect where
  keyKind := keyKind
  objectKey := stringOf texts notString
  emptyTable := .object []
  mixedKeys := "http: table body mixes string and integer keys".toList
  badNumber f := "http: invalid JSON number: ".toList ++ texts.float f
  notUtf8 := texts.notUtf8
  badValue v := "http: cannot encode Lua ".toList ++ v.typeName ++ " as JSON".toList

def luaValueToJson {H : Type} (texts : Texts) (notString : LuaValue → Str) (vm : Vm H) :
    Nat → LuaValue → RecM H JsonValue :=
  (dialect texts notString).luaToJson vm

end Http

end Luaml
