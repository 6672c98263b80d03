import Luaml.Executor
import Luaml.Json

/-! `src/stdlib/rpc.rs`: replies to a batch, and what Lua gets of them. -/

namespace Luaml

open Rust Serde Lua

namespace Rpc

open Json

structure ServerError where
  code : Int64
  message : Str
  data : JsonValue

inductive BatchEntry
  | ok (value : JsonValue)
  | err (error : ServerError)

def parseServerError (err : JsonValue) : ServerError where
  code := ((err.get "code".toList).bind JsonValue.asI64).getD 0
  message := ((err.get "message".toList).bind JsonValue.asStr).getD "<unknown>".toList
  data := (err.get "data".toList).getD .null

/-- `item.get("id").and_then(|v| v.as_u64())` -/
def replyId (item : JsonValue) : Option UInt64 := (item.get "id".toList).bind JsonValue.asU64

def byId : List JsonValue → List (UInt64 × JsonValue) → List (UInt64 × JsonValue)
  | [], map => map
  | item :: arr, map =>
    match replyId item with
    | some id => byId arr (Map.insert map id item)
    | none => byId arr map

def replyEntry (id : UInt64) : Option JsonValue → BatchEntry
  | some item =>
    match (item.get "error".toList).filter (! ·.isNull), item.get "result".toList with
    | some err, _ => .err (parseServerError err)
    | none, some result => .ok result
    | none, none => .err ⟨0, "response missing both result and error".toList, .null⟩
  | none => .err ⟨0, "no response for request id ".toList ++ intText id.toNat, .null⟩

def correlateBatchResponse (resp : JsonValue) (ids : List UInt64) :
    Except Str (List BatchEntry) :=
  match resp.asArray with
  | none => .error "batch response is not an array".toList
  | some arr => .ok (ids.map fun id => replyEntry id (Map.get (byId arr []) id))

section

variable (texts : Texts)

mutual
def jsonToField : JsonValue → FieldValue
  | .null => .null
  | .bool b => .bool b
  | .number n =>
    match n.asI64, n.asF64 with
    | some i, _ => .number i
    | none, some f => .float f
    | none, none => .string (texts.number n)
  | .string s => .string s
  | .array arr => .list (jsonToFieldItems arr)
  | .object obj => .map (Map.extend [] (jsonToFieldMembers obj))

def jsonToFieldItems : List JsonValue → List FieldValue
  | [] => []
  | v :: arr => jsonToField v :: jsonToFieldItems arr

def jsonToFieldMembers : List (Str × JsonValue) → List (Str × FieldValue)
  | [] => []
  | (k, v) :: obj => (k, jsonToField v) :: jsonToFieldMembers obj
end

def batchEntryToField : BatchEntry → FieldValue
  | .ok v => .map [("ok".toList, .bool true), ("value".toList, jsonToField texts v)]
  | .err e =>
    .map [("ok".toList, .bool false),
      ("error".toList, .map [("code".toList, .number e.code), ("message".toList, .string e.message),
        ("data".toList, jsonToField texts e.data)])]

def batchEntriesToField (entries : List BatchEntry) : FieldValue :=
  .list (entries.map (batchEntryToField texts))

end

def outOfRange (texts : Texts) (n : JsonNumber) : Str :=
  "rpc: number out of range: ".toList ++ texts.number n

section

variable {H : Type} (texts : Texts) (vm : Vm H)

def batchEntryToLua (entry : BatchEntry) : LuaM H LuaValue := do
  let t ← createTable
  match entry with
  | .ok v => do
    Lua.set vm t (.string "ok".toList) (.boolean true)
    let value ← jsonToLua vm (outOfRange texts) v
    Lua.set vm t (.string "value".toList) value
  | .err e => do
    Lua.set vm t (.string "ok".toList) (.boolean false)
    let errTbl ← createTable
    Lua.set vm errTbl (.string "code".toList) (.integer e.code)
    Lua.set vm errTbl (.string "message".toList) (.string e.message)
    let data ← jsonToLua vm (outOfRange texts) e.data
    Lua.set vm errTbl (.string "data".toList) data
    Lua.set vm t (.string "error".toList) (.table errTbl)
  pure (.table t)

def setBatchEntries (out : Ref) (i : Int64) : List BatchEntry → LuaM H Unit
  | [] => pure ()
  | entry :: entries => do
    let t ← batchEntryToLua texts vm entry
    Lua.set vm out (.integer i) t
    setBatchEntries out (i + 1) entries

def batchEntriesToLua (entries : List BatchEntry) : LuaM H LuaValue := do
  let out ← createTable
  setBatchEntries texts vm out 1 entries
  pure (.table out)

end

end Rpc

end Luaml
