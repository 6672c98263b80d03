import Luaml.Api
import Luaml.Engine

/-! A connection of the service: requests, and the calls that go back to the client while a
request is served, over one stream of lines. -/

namespace Luaml.Service

open Rust Str

structure Request (J : Type) where
  jsonrpc : Str
  method : Str
  params : J
  id : UInt64

structure RpcError where
  code : Int
  message : Str

structure Response (ρ : Type) where
  jsonrpc : Str
  result : Option ρ
  error : Option RpcError
  id : UInt64

def parseError : Int := -32700
def methodNotFound : Int := -32601
def invalidParams : Int := -32602
def luamlError : Int := -32000

def Request.new {J : Type} (method : Str) (params : J) (id : UInt64) : Request J :=
  ⟨"2.0".toList, method, params, id⟩

def Response.ok {ρ : Type} (id : UInt64) (result : ρ) : Response ρ :=
  ⟨"2.0".toList, some result, none, id⟩

def Response.err {ρ : Type} (id : UInt64) (code : Int) (message : Str) : Response ρ :=
  ⟨"2.0".toList, none, some ⟨code, message⟩, id⟩

structure RegisterParams where
  sourcePath : Str
  text : Str

structure RegisterApiParams (J : Type) where
  ns : Str
  pattern : List (Str × J)

structure DispatchParams (J : Type) where
  event : List (Str × J)

structure ApiCallParams where
  ns : Str
  method : Str
  args : List FieldValue

structure DispatchMatch where
  scriptPath : Str
  bindings : FieldBindings

structure SubsetQueryMatch where
  scriptPath : Str
  clauseIndex : Nat
  annotations : Annotations
  fieldAnnotations : List (Str × Annotations)

inductive Reply
  | done
  | dispatch (ms : List DispatchMatch)
  | subset (ms : List SubsetQueryMatch)

/-- What the JSON library makes of a line, and of a JSON value that is to be of some type. -/
structure Serde (J : Type) where
  request : Str → Except Str (Request J)
  response : Str → Except Str (Response J)
  registerParams : J → Except Str RegisterParams
  registerApiParams : J → Except Str (RegisterApiParams J)
  dispatchParams : J → Except Str (DispatchParams J)
  fieldValue : J → Except Str FieldValue
  display : LuamlError → Str

/-- What happens on the stream.  A call is logged with the lines that are unread when its answer is
read. -/
inductive Event
  | received (line : Except Str Str)
  | response (r : Response Reply)
  | apiCall (request : Request ApiCallParams) (unread : List (Except Str Str))
  | returned (id : UInt64) (result : Except ApiError FieldValue)

/-- The lines that the client writes, in order, as far as they are unread; what has happened; and
the id of the next call.  What is written is in the log, and writing does not fail. -/
structure RemoteApiHandler where
  reader : List (Except Str Str)
  log : List Event
  nextId : UInt64

namespace RemoteApiHandler

def new (reader : List (Except Str Str)) : RemoteApiHandler := ⟨reader, [], 1000000⟩

def note (h : RemoteApiHandler) (event : Event) : RemoteApiHandler :=
  { h with log := h.log ++ [event] }

/-- `read_line`: at the end of the stream the line is empty. -/
def readLine (h : RemoteApiHandler) : Except Str Str × RemoteApiHandler :=
  match h.reader with
  | [] => (.ok [], h)
  | line :: reader => (line, { h with reader := reader })

end RemoteApiHandler

section

variable {J : Type} (serde : Serde J)

def Response.value (response : Response J) : Except ApiError FieldValue :=
  match response.error with
  | some err => .error ⟨err.message⟩
  | none =>
    match response.result with
    | some json =>
      (serde.fieldValue json).mapError fun e => ⟨"invalid api_call result: ".toList ++ e⟩
    | none => .ok .null

def answer (id : UInt64) : Except Str Str → Except ApiError FieldValue
  | .error e => .error ⟨"failed to read api_call response: ".toList ++ e⟩
  | .ok line =>
    if line.isEmpty then .error ⟨"connection closed during api_call".toList⟩
    else
      match serde.response line with
      | .error e => .error ⟨"invalid api_call response: ".toList ++ e⟩
      | .ok response =>
        if response.id ≠ id then
          .error ⟨"api_call response id mismatch: expected ".toList ++ (Nat.repr id.toNat).toList
            ++ ", got ".toList ++ (Nat.repr response.id.toNat).toList⟩
        else response.value serde

def RemoteApiHandler.call (h : RemoteApiHandler) (ns method : Str) (args : List FieldValue) :
    Except ApiError FieldValue × RemoteApiHandler :=
  let id := h.nextId
  let h := { h with nextId := h.nextId + 1 }
  let h := h.note (.apiCall (Request.new "api_call".toList ⟨ns, method, args⟩ id) h.reader)
  let (line, h) := h.readLine
  let result := answer serde id line
  (result, h.note (.returned id result))

end

/-- A computation that calls the handler, and goes on with what it returns. -/
inductive Talk (α : Type)
  | done (a : α)
  | call (ns method : Str) (args : List FieldValue) (k : Except ApiError FieldValue → Talk α)

def Talk.run {J α : Type} (serde : Serde J) : Talk α → RemoteApiHandler → α × RemoteApiHandler
  | .done a, h => (a, h)
  | .call ns method args k, h =>
    let (result, h) := h.call serde ns method args
    (k result).run serde h

/-- What the body of a match does under the API bindings: to the Lua state, by calls, and by the
events it emits or its error. -/
abbrev Bodies (W : Type) :=
  List (ApiBindingEntry Unit) → W → ClauseMatch → Talk (W × Except Str (List FieldMap))

/-- A connection has an engine of its own.  Every API binding has the connection's handler. -/
structure Connection (W : Type) where
  engine : LuamlEngine
  apiBindings : ApiBindings Unit
  lua : W
  handler : RemoteApiHandler

section

variable {J W : Type} (serde : Serde J) (bodies : Bodies W)

def execute (apiBindings : List (ApiBindingEntry Unit)) : Exec (W × RemoteApiHandler) :=
  fun (lua, handler) m =>
    let ((lua, result), handler) := (bodies apiBindings lua m).run serde handler
    ((lua, handler), result)

def fieldValueToPattern : FieldValue → Option Pattern
  | .enum s => some (.enum s)
  | .string s => some (.stringLiteral s)
  | .number n => some (.numberLiteral n)
  | .bool b => some (.boolLiteral b)
  | _ => none

def jsonMapToPattern : List (Str × J) → Except Str (List (Str × Pattern))
  | [] => .ok []
  | (key, value) :: map => do
    let fieldValue ← (serde.fieldValue value).mapError fun e =>
      "invalid pattern value for '".toList ++ key ++ "': ".toList ++ e
    let pattern ← match fieldValueToPattern fieldValue with
      | some pattern => .ok pattern
      | none => .error ("pattern value for '".toList ++ key
          ++ "' must be a literal (Enum, String, Number, or Bool)".toList)
    let patterns ← jsonMapToPattern map
    .ok ((key, pattern) :: patterns)

def jsonMapToFieldMap (map : List (Str × J)) : Except Str FieldMap :=
  map.foldlM (fun fieldMap (key, value) => do
    let fieldValue ← (serde.fieldValue value).mapError fun e =>
      "invalid field value for '".toList ++ key ++ "': ".toList ++ e
    .ok (Map.insert fieldMap key fieldValue)) []

def handleRegister (conn : Connection W) (request : Request J) :
    Res Empty (Response Reply × Connection W) :=
  match serde.registerParams request.params with
  | .error e => .ok (.err request.id invalidParams e, conn)
  | .ok params =>
    match conn.engine.registry.registerText ⟨params.sourcePath⟩ params.text with
    | (.ok (), reg) =>
      .ok (.ok request.id .done, { conn with engine := { conn.engine with registry := reg } })
    | (.err e, reg) =>
      .ok (.err request.id luamlError (serde.display e),
        { conn with engine := { conn.engine with registry := reg } })
    | (.panic c, _) => .panic c

def handleRegisterApi (conn : Connection W) (request : Request J) :
    Response Reply × Connection W :=
  match serde.registerApiParams request.params with
  | .error e => (.err request.id invalidParams e, conn)
  | .ok params =>
    match jsonMapToPattern serde params.pattern with
    | .error e => (.err request.id invalidParams e, conn)
    | .ok pattern =>
      let (_, apiBindings) := conn.apiBindings.registerApi ⟨params.ns, pattern, ()⟩
      (.ok request.id .done, { conn with apiBindings := apiBindings })

def eventParam (request : Request J) : Except Str FieldMap := do
  let params ← serde.dispatchParams request.params
  jsonMapToFieldMap serde params.event

def handleDispatch (conn : Connection W) (request : Request J) :
    Res Empty (Response Reply × Connection W) :=
  match eventParam serde request with
  | .error e => .ok (.err request.id invalidParams e, conn)
  | .ok event => do
    let run ← conn.engine.dispatch (execute serde bodies conn.apiBindings.entries)
      (conn.lua, conn.handler) event
    let ms := run.outcomes.map fun (_, o) => ⟨o.scriptPath.text, o.bindings⟩
    .ok (.ok request.id (.dispatch ms),
      { conn with
        engine := { conn.engine with stats := run.stats }
        lua := run.world.1
        handler := run.world.2 })

def handleQuery (conn : Connection W) (request : Request J) : Response Reply :=
  match eventParam serde request with
  | .error e => .err request.id invalidParams e
  | .ok event =>
    .ok request.id (.dispatch ((conn.engine.query event).map fun m =>
      ⟨m.script.sourcePath.text, m.bindings⟩))

def handleQuerySubset (conn : Connection W) (request : Request J) : Response Reply :=
  match eventParam serde request with
  | .error e => .err request.id invalidParams e
  | .ok event =>
    .ok request.id (.subset ((conn.engine.registry.querySubset event).map fun r =>
      ⟨r.script.sourcePath.text, r.clauseIndex, r.clause.annotations, r.clause.fieldAnnotations⟩))

def processRequest (conn : Connection W) (request : Request J) :
    Res Empty (Response Reply × Connection W) :=
  if request.method = "register".toList then handleRegister serde conn request
  else if request.method = "register_api".toList then .ok (handleRegisterApi serde conn request)
  else if request.method = "dispatch".toList then handleDispatch serde bodies conn request
  else if request.method = "query".toList then .ok (handleQuery serde conn request, conn)
  else if request.method = "query_subset".toList then
    .ok (handleQuerySubset serde conn request, conn)
  else .ok (.err request.id methodNotFound ("unknown method: ".toList ++ request.method), conn)

namespace Connection

def note (conn : Connection W) (event : Event) : Connection W :=
  { conn with handler := conn.handler.note event }

/-- The loop of `handle_stream`, with a bound on the number of lines. -/
def serve : Nat → Connection W → Res Empty (Connection W)
  | 0, _ => .panic .recursion
  | n + 1, conn =>
    match conn.handler.readLine with
    | (.error e, handler) => .ok ({ conn with handler := handler }.note (.received (.error e)))
    | (.ok [], handler) => .ok { conn with handler := handler }
    | (.ok text, handler) =>
      let conn := { conn with handler := handler }.note (.received (.ok text))
      let line := trim text
      if line.isEmpty then serve n conn
      else
        match serde.request line with
        | .error e =>
          serve n (conn.note (.response (.err 0 parseError ("invalid JSON: ".toList ++ e))))
        | .ok request => do
          let (response, conn) ← processRequest serde bodies conn request
          serve n (conn.note (.response response))

end Connection

/-- `handle_stream` on the lines of the client, with the engine and the Lua state of a new
connection. -/
def handleStream (engine : LuamlEngine) (lua : W) (reader : List (Except Str Str)) :
    Res Empty (Connection W) :=
  Connection.serve serde bodies (reader.length + 1) ⟨engine, .empty, lua, .new reader⟩

end

end Luaml.Service
