import Luaml.Encoders
import Luaml.Rpc

/-! The JSON-RPC client of `src/stdlib/rpc.rs`: what its methods send, and what they make of the
responses. -/

namespace Luaml

open Rust Serde Lua

namespace Lua

/-- What the host does with the heap and a counter, which is as many as have been taken of it: one
that has been taken stays so where the host fails later. -/
def CountM (H α : Type) := Nat → Heap H → Option (Except Str α × Nat × Heap H)

namespace CountM

variable {H α β : Type}

def bind (x : CountM H α) (f : α → CountM H β) : CountM H β := fun taken h =>
  match x taken h with
  | none => none
  | some (.ok a, taken, h) => f a taken h
  | some (.error e, taken, h) => some (.error e, taken, h)

instance : Monad (CountM H) where
  pure a := fun taken h => some (.ok a, taken, h)
  bind := bind

def lift (x : RecM H α) : CountM H α := fun taken h => (x h).map fun (r, h) => (r, taken, h)

def throw (message : Str) : CountM H α := fun taken h => some (.error message, taken, h)

def abort : CountM H α := fun _ _ => none

end CountM

def LuaM.ofExcept {H α : Type} (r : Except Str α) : LuaM H α := fun h => (r, h)

def LuaM.mapErr {H α : Type} (f : Str → Str) (x : LuaM H α) : LuaM H α := fun h =>
  ((x h).1.mapError f, (x h).2)

def LuaM.unwrapOr {H α : Type} (default : α) (x : LuaM H α) : LuaM H α := fun h =>
  match x h with
  | (.ok a, h) => (.ok a, h)
  | (.error _, h) => (.ok default, h)

end Lua

namespace Rpc

open Json

/-- What the client has of its host: the texts, with how Lua writes a float, what `mlua` says of a
value that it does not take for a table or for a string and how a JSON value is displayed, and
`Table::len`. -/
structure Host (H : Type) where
  texts : Texts
  float : F64 → Str
  notTable : LuaValue → Str
  notString : LuaValue → Str
  display : JsonValue → Str
  len : Ref → LuaM H Int64

/-- The ids of a client are an `AtomicU64` that starts with one. -/
def idOf (taken : Nat) : UInt64 := UInt64.ofNat (taken + 1)

def fetchAdd {H : Type} : CountM H UInt64 := fun taken h => some (.ok (idOf taken), taken + 1, h)

def buildRequest (id : Option UInt64) (method : Str) (params : JsonValue) : JsonValue :=
  match id with
  | some id =>
    .object (BTreeMap.extend Str.cmp []
      [("jsonrpc".toList, .string "2.0".toList), ("method".toList, .string method),
        ("params".toList, params), ("id".toList, .number (.posInt id))])
  | none =>
    .object (BTreeMap.extend Str.cmp []
      [("jsonrpc".toList, .string "2.0".toList), ("method".toList, .string method),
        ("params".toList, params)])

/-- Which part of the response a method waits for, and by which ids. -/
inductive Awaited
  | result (id : UInt64)
  | nothing
  | entries (ids : List UInt64)

structure Request where
  awaited : Awaited
  body : JsonValue

section

variable {H : Type} (host : Host H) (vm : Vm H) (n : Nat)

def tableOf : LuaValue → Except Str Ref
  | .table t => .ok t
  | other => .error (host.notTable other)

def stringOf : LuaValue → Except Str Str
  | .string s => .ok s
  | .bytes b => .error (host.texts.notUtf8 b)
  | .integer i => .ok (intText i.toInt)
  | .number f => .ok (host.float f)
  | other => .error (host.notString other)

/-- An element of a batch: `{method, params}`. -/
def element (batch : Ref) (i : Int64) : RecM H (Str × JsonValue) := do
  let entry ← .lift <| .mapErr ("rpc: batch[".toList ++ intText i.toInt ++ "]: ".toList ++ ·) do
    let entry ← Lua.get vm batch (.integer i)
    .ofExcept (tableOf host entry)
  let method ← .lift <|
    .mapErr ("rpc: batch[".toList ++ intText i.toInt ++ "].method: ".toList ++ ·) do
      let method ← Lua.get vm entry (.integer 1)
      .ofExcept (stringOf host method)
  let paramsVal ← .lift (.unwrapOr .nil (Lua.get vm entry (.integer 2)))
  let paramsJson ← luaToJson host.texts vm n paramsVal
  pure (method, paramsJson)

def elements (batch : Ref) : Nat → Int64 → CountM H (List JsonValue × List UInt64)
  | 0, _ => pure ([], [])
  | count + 1, i => do
    let (method, params) ← .lift (element host vm n batch i)
    let id ← fetchAdd
    let (arr, ids) ← elements batch count (i + 1)
    pure (buildRequest (some id) method params :: arr, id :: ids)

def buildBatchBody (batch : Ref) : CountM H (JsonValue × List UInt64) := do
  let len ← .lift (.lift (host.len batch))
  if len = 0 then .throw "rpc: batch is empty".toList
  else if len < 0 then
    -- in `Vec::with_capacity`
    .abort
  else do
    let (arr, ids) ← elements host vm n batch len.toInt.toNat 1
    pure (.array arr, ids)

inductive Method
  | call (method : Str) (params : LuaValue)
  | notify (method : Str) (params : LuaValue)
  | batch (t : Ref)

def Method.request : Method → CountM H Request
  | .call method params => do
    let paramsJson ← .lift (luaToJson host.texts vm n params)
    let id ← fetchAdd
    pure ⟨.result id, buildRequest (some id) method paramsJson⟩
  | .notify method params => do
    let paramsJson ← .lift (luaToJson host.texts vm n params)
    pure ⟨.nothing, buildRequest none method paramsJson⟩
  | .batch t => do
    let (body, ids) ← buildBatchBody host vm n t
    pure ⟨.entries ids, body⟩

end

/-- What comes of a POST: an error of the transport, a status that is no success and the text with
it, or a success and its body as JSON or as the error of parsing that. -/
inductive Response
  | sendError (e : Str)
  | status (status text : Str)
  | success (body : Except Str JsonValue)

def postNotify : Response → Except Str Unit
  | .sendError e => .error ("http send error: ".toList ++ e)
  | .status status text =>
    .error ("http status ".toList ++ status ++ ": ".toList ++ text)
  | .success _ => .ok ()

def postJson : Response → Except Str JsonValue
  | .sendError e => .error ("http send error: ".toList ++ e)
  | .status status text =>
    .error ("http status ".toList ++ status ++ ": ".toList ++ text)
  | .success (.ok body) => .ok body
  | .success (.error e) => .error ("parse response: ".toList ++ e)

def rpcError {α : Type} (r : Except Str α) : Except Str α := r.mapError ("rpc: ".toList ++ ·)

def formatServerError (err : JsonValue) : Str :=
  "server error ".toList ++ intText (parseServerError err).code.toInt ++ ": ".toList ++
    (parseServerError err).message

section

variable {H : Type} (host : Host H)

def extractSingleResult (resp : JsonValue) (expectedId : UInt64) : Except Str JsonValue :=
  match (resp.get "error".toList).filter (! ·.isNull) with
  | some err => .error (formatServerError err)
  | none =>
    match resp.get "id".toList with
    | some v =>
      if v.asU64 = some expectedId then
        match resp.get "result".toList with
        | some result => .ok result
        | none => .error "response missing result field".toList
      else
        .error ("response id ".toList ++ host.display v ++ " does not match request id ".toList ++
          intText expectedId.toNat)
    | none => .error "response missing id field".toList

/-- What the task of a method that does not block ends with. -/
def Awaited.settle : Awaited → Response → Except Str FieldValue
  | .result id, response => do
    let resp ← rpcError (postJson response)
    let result ← extractSingleResult host resp id
    pure (jsonToField host.texts result)
  | .nothing, response => do
    rpcError (postNotify response)
    pure .null
  | .entries ids, response => do
    let resp ← rpcError (postJson response)
    let entries ← correlateBatchResponse resp ids
    pure (batchEntriesToField host.texts entries)

variable (vm : Vm H)

def Awaited.toLua : Awaited → Response → LuaM H LuaValue
  | .result id, response => do
    let resp ← .ofExcept (rpcError (postJson response))
    let result ← .ofExcept (extractSingleResult host resp id)
    jsonToLua vm (outOfRange host.texts) result
  | .nothing, response => do
    .ofExcept (rpcError (postNotify response))
    pure .nil
  | .entries ids, response => do
    let resp ← .ofExcept (rpcError (postJson response))
    let entries ← .ofExcept (correlateBatchResponse resp ids)
    batchEntriesToLua host.texts vm entries

def Method.blocking (n : Nat) (post : JsonValue → Response) (m : Method) : CountM H LuaValue := do
  let request ← m.request host vm n
  .lift (.lift (request.awaited.toLua host vm (post request.body)))

end

end Rpc

end Luaml
