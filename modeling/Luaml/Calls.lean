import Luaml.Protocol
import Luaml.Remote

namespace Luaml

open Rust Res Serde

namespace Service

def readArgs : JsonValue → Option (List FieldValue)
  | .array items => FieldValue.fromJsonItems items
  | _ => none

def ApiCallParams.read (d : JsonValue) : Option ApiCallParams := do
  let parts ← Parts.ofStruct 3 d
  let ns ← parts.get 0 (.required "namespace".toList JsonValue.asStr)
  let method ← parts.get 1 (.required "method".toList JsonValue.asStr)
  let args ← parts.get 2 (.required "args".toList readArgs)
  some ⟨ns, method, args⟩

theorem ApiCallParams.read_toJson (params : ApiCallParams) :
    read params.toJson = (FieldValue.fromJsonItems (FieldValue.toJsonItems params.args)).map
      fun args => ⟨params.ns, params.method, args⟩ :=
  Option.map_eq_bind.symm

theorem ApiCallParams.toJson_ascends (params : ApiCallParams) : params.toJson.Ascends := by
  apply JsonValue.object_ascends
  simp only [List.forall_mem_cons]
  exact ⟨trivial, trivial, ⟨trivial, FieldValue.toJsonItems_ascend params.args⟩,
    List.forall_mem_nil _⟩

def Request.document (r : Request ApiCallParams) : JsonValue :=
  Request.write ⟨r.jsonrpc, r.method, r.params.toJson, r.id⟩

/-- The library's reading and writing of texts: the document that a text is, the text of a document,
and what it says of a document that is no value of a type. -/
structure TextLayer where
  parse : Str → Except Str JsonValue
  print : JsonValue → Str
  mismatch : Str → JsonValue → Str
  display : LuamlError → Str

namespace TextLayer

variable (t : TextLayer) (api : Str → Str → List FieldValue → Except ApiError FieldValue)

def expect {α : Type} (type : Str) (read : JsonValue → Option α) (d : JsonValue) : Except Str α :=
  match read d with
  | some a => .ok a
  | none => .error (t.mismatch type d)

def serde : Service.Serde JsonValue where
  request line := t.parse line >>= t.expect "Request".toList Request.read
  response line := t.parse line >>= t.expect "Response".toList Response.read
  registerParams := t.expect "RegisterParams".toList RegisterParams.read
  registerApiParams := t.expect "RegisterApiParams".toList RegisterApiParams.read
  dispatchParams := t.expect "DispatchParams".toList DispatchParams.read
  fieldValue := t.expect "FieldValue".toList FieldValue.fromJson
  display := t.display

def write (d : JsonValue) : Str := t.print d ++ ['\n']

def Keeps (d : JsonValue) : Prop := t.parse (t.write d) = .ok d

def outcome (params : JsonValue) : Except ApiError FieldValue :=
  match t.expect "ApiCallParams".toList ApiCallParams.read params with
  | .ok params => api params.ns params.method params.args
  | .error e => .error ⟨e⟩

/-- The function as it is seen over the text. -/
def remote (ns method : Str) (args : List FieldValue) : Except ApiError FieldValue :=
  t.outcome api (ApiCallParams.toJson ⟨ns, method, args⟩) >>= fun value =>
    (t.serde.fieldValue value.toJson).mapError fun e =>
      ⟨"invalid api_call result: ".toList ++ e⟩

def client : Client JsonValue where
  api := t.remote api
  toJson := FieldValue.toJson
  write response := t.write response.write

/-- The line with which the client answers the line of a call. -/
def attend (line : Str) : Except Str Str := do
  let request ← t.serde.request line
  (t.client api).line request.id (t.outcome api request.params)

/-- What the function returns is well formed, and its responses are kept. -/
structure Serves : Prop where
  value : ∀ {ns method args v}, api ns method args = .ok v → v.Keyed ∧ v.Finite
  kept : ∀ {ns method args v}, api ns method args = .ok v →
    ∀ id, t.Keeps (Response.write (.ok id v.toJson))
  refused : ∀ {params e}, t.outcome api params = .error e →
    ∀ id, t.Keeps (Response.write (.err id luamlError e.message))

end TextLayer

inductive SameResult : Except ApiError FieldValue → Except ApiError FieldValue → Prop
  | ok {v w : FieldValue} : v.Same w → SameResult (.ok v) (.ok w)
  | error (e : ApiError) : SameResult (.error e) (.error e)

variable {t : TextLayer} {api : Str → Str → List FieldValue → Except ApiError FieldValue}

theorem outcome_value {params : JsonValue} {v : FieldValue} (h : t.outcome api params = .ok v) :
    ∃ ns method args, api ns method args = .ok v := by
  rw [TextLayer.outcome] at h
  split at h
  · exact ⟨_, _, _, h⟩
  · cases h

theorem outcome_toJson (t : TextLayer)
    (api : Str → Str → List FieldValue → Except ApiError FieldValue) {args : List FieldValue}
    (hkeyed : FieldValue.KeyedList args) (hfinite : FieldValue.FiniteItems args)
    (ns method : Str) : ∃ args',
      FieldValue.SameItems args args' ∧
        t.outcome api (ApiCallParams.toJson ⟨ns, method, args⟩) = api ns method args' := by
  obtain ⟨args', hargs', hsame⟩ := FieldValue.fromJsonItems_toJsonItems args hkeyed hfinite
  have hread := ApiCallParams.read_toJson ⟨ns, method, args⟩
  rw [hargs', Option.map_some] at hread
  refine ⟨args', hsame, ?_⟩
  rw [TextLayer.outcome, TextLayer.expect, hread]

theorem remote_cases (hserves : t.Serves api) (ns method : Str) (args : List FieldValue) :
    (∃ e, t.outcome api (ApiCallParams.toJson ⟨ns, method, args⟩) = .error e ∧
      t.remote api ns method args = .error e) ∨
    ∃ v w, t.outcome api (ApiCallParams.toJson ⟨ns, method, args⟩) = .ok v ∧
      t.remote api ns method args = .ok w ∧ v.Same w ∧ w.toJson = v.toJson ∧
        FieldValue.fromJson w.toJson = some w := by
  rw [TextLayer.remote]
  cases houtcome : t.outcome api (ApiCallParams.toJson ⟨ns, method, args⟩) with
  | error e => exact .inl ⟨e, rfl, rfl⟩
  | ok v =>
    obtain ⟨ns', method', args', hv⟩ := outcome_value houtcome
    obtain ⟨hkeyed, hfinite⟩ := hserves.value hv
    obtain ⟨w, hw, hsame⟩ := FieldValue.fromJson_toJson v hkeyed hfinite
    have hjson := (FieldValue.toJson_of_same hkeyed hsame).symm
    refine .inr ⟨v, w, rfl, ?_, hsame, hjson, hjson ▸ hw⟩
    change (t.expect _ FieldValue.fromJson v.toJson).mapError _ = _
    rw [TextLayer.expect, hw]
    rfl

theorem remote_same (hserves : t.Serves api) (ns method : Str) (args : List FieldValue) :
    SameResult (t.outcome api (ApiCallParams.toJson ⟨ns, method, args⟩))
      (t.remote api ns method args) := by
  obtain ⟨e, houtcome, hremote⟩ | ⟨v, w, houtcome, hremote, hsame, -⟩ :=
    remote_cases hserves ns method args
  · rw [houtcome, hremote]
    exact .error e
  · rw [houtcome, hremote]
    exact .ok hsame

theorem respond_writable (c : Client JsonValue) (hc : c.toJson = FieldValue.toJson) (id : UInt64)
    (result : Except ApiError FieldValue) :
    (c.respond id result).Writable ∧ (c.respond id result).settled = c.respond id result := by
  cases result with
  | ok v =>
    have hvalue : v.toJson.isNull = false := by cases v <;> rfl
    rw [Client.respond, hc]
    exact Response.ok_settled id v.toJson_ascends hvalue
  | error e => exact Response.err_settled id (by decide) (by decide) e.message

theorem response_respond {c : Client JsonValue} (hc : c.toJson = FieldValue.toJson) {id : UInt64}
    {result : Except ApiError FieldValue} (hkeeps : t.Keeps (c.respond id result).write) :
    t.serde.response (t.write (c.respond id result).write) = .ok (c.respond id result) := by
  obtain ⟨hwritable, hsettled⟩ := respond_writable c hc id result
  have hread := Response.read_write hwritable
  change (t.parse _ >>= t.expect _ Response.read) = _
  rw [hkeeps]
  change t.expect _ Response.read _ = _
  rw [TextLayer.expect, hread, hsettled]

theorem client_understood (hserves : t.Serves api) : (t.client api).Understood t.serde where
  write_ne _ _ _ _ := List.append_ne_nil_of_right_ne_nil _ (List.cons_ne_nil _ _)
  read id ns method args := by
    apply response_respond (c := t.client api) rfl
    change t.Keeps ((t.client api).respond id (t.remote api ns method args)).write
    obtain ⟨e, houtcome, hremote⟩ | ⟨v, w, houtcome, hremote, -, hjson, -⟩ :=
      remote_cases hserves ns method args
    · rw [hremote]
      exact hserves.refused houtcome id
    · obtain ⟨ns', method', args', hv⟩ := outcome_value houtcome
      rw [hremote]
      change t.Keeps (Response.write (.ok id w.toJson))
      rw [hjson]
      exact hserves.kept hv id
  value ns method args value h := by
    obtain ⟨e, -, hremote⟩ | ⟨v, w, -, hremote, -, -, hread⟩ := remote_cases hserves ns method args
    · cases hremote.symm.trans h
    · obtain rfl : w = value := Except.ok.inj (hremote.symm.trans h)
      change t.expect _ FieldValue.fromJson w.toJson = _
      rw [TextLayer.expect, hread]

theorem attend_call (hserves : t.Serves api) {r : Request ApiCallParams}
    (hkeeps : t.Keeps r.document) :
    t.attend api (t.write r.document) = (t.client api).line r.id
      ((t.client api).api r.params.ns r.params.method r.params.args) := by
  have hrequest : t.serde.request (t.write r.document) =
      .ok ⟨r.jsonrpc, r.method, r.params.toJson, r.id⟩ := by
    change (t.parse _ >>= t.expect _ Request.read) = _
    rw [hkeeps]
    change t.expect "Request".toList Request.read r.document = _
    rw [TextLayer.expect, Request.document, Request.read_write r.params.toJson_ascends]
  rw [TextLayer.attend, hrequest]
  change (t.client api).line r.id (t.outcome api r.params.toJson) =
    (t.client api).line r.id (t.remote api r.params.ns r.params.method r.params.args)
  obtain ⟨e, houtcome, hremote⟩ | ⟨v, w, houtcome, hremote, -, hjson, -⟩ :=
    remote_cases hserves r.params.ns r.params.method r.params.args
  · rw [houtcome, hremote]
  · rw [houtcome, hremote]
    change Except.ok (t.write (Response.write (.ok r.id v.toJson))) =
      .ok (t.write (Response.write (.ok r.id w.toJson)))
    rw [hjson]

variable {W : Type} {lines : List (Except Str Str)} {conn : Connection W}

/-- A client that reads each call from its line, calls its function and answers is followed by the
session in which that function is called in its place, as it is seen over the text: for the same
arguments it has the same result. -/
theorem handleStream_attended (hserves : t.Serves api) (bodies : Bodies W) (engine : LuamlEngine)
    (lua : W)
    (hlocal : handleStream t.serde (bodies.resolve (t.remote api)) engine lua lines = .ok conn) :
    (∃ reader conn', (t.client api).Writes lines reader ∧
      handleStream t.serde bodies engine lua reader = .ok conn' ∧ conn'.engine = conn.engine ∧
        conn'.apiBindings = conn.apiBindings ∧ conn'.lua = conn.lua ∧
          responses conn'.handler.log = responses conn.handler.log ∧
            ∀ request unread, .apiCall request unread ∈ conn'.handler.log →
              t.Keeps request.document →
                unread.head? = some (t.attend api (t.write request.document))) ∧
    ∀ ns method args, FieldValue.KeyedList args → FieldValue.FiniteItems args →
      ∃ args', FieldValue.SameItems args args' ∧
        SameResult (api ns method args') (t.remote api ns method args) := by
  have hc := client_understood hserves
  constructor
  · obtain ⟨reader, hwrites, hfollows⟩ := serve_resolved hc bodies _ hlocal 1000000
    obtain ⟨h', hserve, htold, -⟩ :=
      hfollows (.new reader) (reader.length + 1) rfl rfl ⟨rfl, rfl, List.forall_mem_nil _⟩
        (Nat.lt_succ_self _)
    refine ⟨reader, conn.over h', hwrites, hserve, rfl, rfl, rfl, htold.responses, ?_⟩
    intro request unread hcall hkeeps
    rw [attend_call hserves hkeeps]
    exact htold.attended _ hcall
  · intro ns method args hkeyed hfinite
    obtain ⟨args', hargs, houtcome⟩ := outcome_toJson t api hkeyed hfinite ns method
    have hsame := remote_same hserves ns method args
    rw [houtcome] at hsame
    exact ⟨args', hargs, hsame⟩

def saveParams : ApiCallParams := ⟨"client".toList, "save".toList, []⟩

def savingRequests : List (Request JsonValue × Str) :=
  [(.new "register".toList (.object [("source_path".toList, .string "a.luaml".toList),
      ("text".toList, .string "---\n---\nclient.save()\n".toList)]) 1,
    requestText sessionRequests[0]),
  (.new "register_api".toList (.object [("namespace".toList, .string "client".toList)]) 2,
    requestText sessionRequests[1]),
  (.new "dispatch".toList (.object [("event".toList, .object [])]) 3,
    requestText sessionRequests[2]),
  (.new "query".toList (.object [("event".toList, .object [])]) 4,
    requestText sessionRequests[3]),
  (.new "api_call".toList saveParams.toJson 1000000,
    requestText (.new "api_call".toList (object [("args", "[]".toList),
      ("method", "\"save\"".toList), ("namespace", "\"client\"".toList)]) 1000000))]

def savedHead : Str := "\x7b\"jsonrpc\":\"2.0\",\"result\":\"Null\",\"id\":".toList

def refusedHead : Str :=
  "\x7b\"jsonrpc\":\"2.0\",\"error\":\x7b\"code\":-32000,".toList ++
    "\"message\":\"invalid type\"\x7d,\"id\":".toList

def idText (id : UInt64) : Str := Nat.toDigits 10 id.toNat ++ ['\x7d']

def readId (text : Str) : UInt64 := UInt64.ofNat (natOfDigits (text.filter isDigit))

def savingText : TextLayer where
  parse text :=
    if text.take savedHead.length = savedHead then
      .ok (Response.write (.ok (readId (text.drop savedHead.length)) FieldValue.null.toJson))
    else if text.take refusedHead.length = refusedHead then
      .ok (Response.write
        (.err (readId (text.drop refusedHead.length)) luamlError "invalid type".toList))
    else
      match savingRequests.find? fun e => e.2 = text ∨ e.2 ++ ['\n'] = text with
      | some e => .ok e.1.write
      | none => .error "expected value".toList
  print d :=
    match Response.read d with
    | some ⟨_, some _, _, id⟩ => savedHead ++ idText id
    | some ⟨_, none, some _, id⟩ => refusedHead ++ idText id
    | some ⟨_, none, none, id⟩ => ((savingRequests.find? fun e => e.1.id = id).map Prod.snd).getD []
    | none => []
  mismatch _ _ := "invalid type".toList
  display _ := []

theorem readId_idText (id : UInt64) : readId (idText id ++ ['\n']) = id := by
  have hdigits : (Nat.toDigits 10 id.toNat).filter isDigit = Nat.toDigits 10 id.toNat :=
    List.filter_eq_self.mpr fun _ hc => isDigit_of_mem_toDigits hc
  rw [readId, idText, List.append_assoc, List.filter_append, hdigits]
  change UInt64.ofNat (natOfDigits (_ ++ [])) = id
  rw [List.append_nil, natOfDigits_toDigits, UInt64.ofNat_toNat]

theorem savingText_serves : savingText.Serves fun _ _ _ => .ok .null where
  value h := by
    cases h
    exact ⟨trivial, trivial⟩
  kept h id := by
    cases h
    change savingText.parse (savedHead ++ idText id ++ ['\n']) = _
    rw [List.append_assoc]
    simp only [savingText, List.take_left, if_true, List.drop_left, readId_idText]
  refused {params e} h id := by
    have he : e = ⟨"invalid type".toList⟩ := by
      rw [TextLayer.outcome] at h
      split at h
      · cases h
      · rename_i e' hread
        cases h
        rw [TextLayer.expect] at hread
        split at hread
        · cases hread
        · cases hread
          rfl
    subst he
    change savingText.parse (refusedHead ++ idText id ++ ['\n']) = _
    have hsaved : (refusedHead ++ (idText id ++ ['\n'])).take savedHead.length ≠ savedHead := by
      rw [List.take_append_of_le_length (by decide)]
      decide
    rw [List.append_assoc]
    simp only [savingText, if_neg hsaved, List.take_left, if_true, List.drop_left, readId_idText]

theorem savingText_resolved : ∃ (conn : Connection Unit) (reader : List (Except Str Str))
    (conn' : Connection Unit), (savingText.client fun _ _ _ => .ok .null).Writes
      [sessionLine 0, sessionLine 1, sessionLine 2, sessionLine 3] reader ∧
    handleStream savingText.serde sessionBodies newEngine () reader = .ok conn' ∧
      conn'.engine = conn.engine ∧ conn'.apiBindings = conn.apiBindings ∧ conn'.lua = conn.lua ∧
        conn'.handler.reader = conn.handler.reader ∧
          responses conn'.handler.log = responses conn.handler.log ∧
            returned conn'.handler.log =
              conn'.handler.log.filterMap (savingText.client fun _ _ _ => .ok .null).called := by
  have hlocal : (handleStream savingText.serde
      (sessionBodies.resolve (savingText.client fun _ _ _ => .ok .null).api) newEngine ()
      [sessionLine 0, sessionLine 1, sessionLine 2, sessionLine 3]).toOption.isSome = true := by
    decide +kernel
  obtain ⟨conn, hconn⟩ := Option.isSome_iff_exists.mp hlocal
  exact ⟨conn, handleStream_resolved (client_understood savingText_serves) sessionBodies newEngine
    () (toOption_eq_some.mp hconn)⟩

theorem savingText_attended : ∃ (conn : Connection Unit) (reader : List (Except Str Str))
    (conn' : Connection Unit),
    handleStream savingText.serde sessionBodies newEngine () reader = .ok conn' ∧
      conn'.engine = conn.engine ∧ responses conn'.handler.log = responses conn.handler.log ∧
        ∀ request unread, .apiCall request unread ∈ conn'.handler.log →
          savingText.Keeps request.document → unread.head? = some
            (savingText.attend (fun _ _ _ => .ok .null) (savingText.write request.document)) := by
  have hlocal : (handleStream savingText.serde
      (sessionBodies.resolve (savingText.remote fun _ _ _ => .ok .null)) newEngine ()
      [sessionLine 0, sessionLine 1, sessionLine 2, sessionLine 3]).toOption.isSome = true := by
    decide +kernel
  obtain ⟨conn, hconn⟩ := Option.isSome_iff_exists.mp hlocal
  obtain ⟨⟨reader, conn', -, hserve, hengine, -, -, hresponses, hattended⟩, -⟩ :=
    handleStream_attended savingText_serves sessionBodies newEngine () (toOption_eq_some.mp hconn)
  exact ⟨conn, reader, conn', hserve, hengine, hresponses, hattended⟩

example : savingText.Keeps (Request.document (.new "api_call".toList saveParams 1000000)) := rfl

end Service

end Luaml
