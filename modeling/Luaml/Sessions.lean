import Luaml.ServiceLaws

namespace Luaml.Service

open Rust Str Res

variable {J W : Type} {serde : Serde J}

structure Offer where
  registry : ScriptRegistry
  apiBindings : ApiBindings Unit

/-- The id of the next call, and the lines that the client has still to be read. -/
structure Stream where
  nextId : UInt64
  unread : List (Except Str Str)

/-- Calls, each under the next id, and each taking the next line for its answer before anything else
happens. -/
inductive Calls (serde : Serde J) : Stream → List Event → Stream → Prop
  | none {s : Stream} : Calls serde s [] s
  | call {s s' : Stream} {events : List Event} (ns method : Str) (args : List FieldValue)
      (rest : Calls serde ⟨s.nextId + 1, s.unread.tail⟩ events s') :
      Calls serde s (.apiCall (.new "api_call".toList ⟨ns, method, args⟩ s.nextId) s.unread ::
        .returned s.nextId (answer serde s.nextId (s.unread.headD (.ok []))) :: events) s'

def scriptOf (serde : Serde J) (request : Request J) : Option Script :=
  if request.method = "register".toList then
    (serde.registerParams request.params).toOption.bind fun params =>
      (Parser.parseLuaml ⟨params.sourcePath⟩ params.text).toOption
  else none

def specOf (serde : Serde J) (request : Request J) : Option (ApiBindingSpec Unit) :=
  if request.method = "register_api".toList then
    (serde.registerApiParams request.params).toOption.bind fun params =>
      (jsonMapToPattern serde params.pattern).toOption.map fun pattern => ⟨params.ns, pattern, ()⟩
  else none

def eventOf (serde : Serde J) (request : Request J) : Option FieldMap :=
  if request.method = "dispatch".toList ∨ request.method = "query".toList ∨
      request.method = "query_subset".toList then
    (eventParam serde request).toOption
  else none

def queryReply (reg : ScriptRegistry) (event : FieldMap) : Reply :=
  .dispatch ((reg.matchClauses event).map fun m => ⟨m.script.sourcePath.text, m.bindings⟩)

def subsetReply (reg : ScriptRegistry) (event : FieldMap) : Reply :=
  .subset ((reg.querySubset event).map fun r =>
    ⟨r.script.sourcePath.text, r.clauseIndex, r.clause.annotations, r.clause.fieldAnnotations⟩)

/-- A request, the calls that are made while it is served, and the response to it. -/
inductive Exchange (serde : Serde J) :
    Offer × Stream → Request J → List Event → Response Reply → Offer × Stream → Prop
  | register {o : Offer} {s : Stream} {request : Request J} {script : Script}
      (hscript : scriptOf serde request = some script) :
      Exchange serde (o, s) request [] (.ok request.id .done)
        ({ o with registry := ⟨o.registry.scripts ++ [script]⟩ }, s)
  | registerApi {o : Offer} {s : Stream} {request : Request J} {spec : ApiBindingSpec Unit}
      (hspec : specOf serde request = some spec) :
      Exchange serde (o, s) request [] (.ok request.id .done)
        ({ o with apiBindings := (o.apiBindings.registerApi spec).2 }, s)
  | dispatch {o : Offer} {s s' : Stream} {request : Request J} {calls : List Event}
      {event : FieldMap} (hmethod : request.method = "dispatch".toList)
      (hevent : eventOf serde request = some event) (hcalls : Calls serde s calls s')
      (ms : List DispatchMatch) :
      Exchange serde (o, s) request calls (.ok request.id (.dispatch ms)) (o, s')
  | query {o : Offer} {s : Stream} {request : Request J} {event : FieldMap}
      (hmethod : request.method = "query".toList) (hevent : eventOf serde request = some event) :
      Exchange serde (o, s) request [] (.ok request.id (queryReply o.registry event)) (o, s)
  | querySubset {o : Offer} {s : Stream} {request : Request J} {event : FieldMap}
      (hmethod : request.method = "query_subset".toList)
      (hevent : eventOf serde request = some event) :
      Exchange serde (o, s) request [] (.ok request.id (subsetReply o.registry event)) (o, s)
  | refused {o : Offer} {s : Stream} {request : Request J} (hscript : scriptOf serde request = none)
      (hspec : specOf serde request = none) (hevent : eventOf serde request = none) (code : Int)
      (message : Str) :
      Exchange serde (o, s) request [] (.err request.id code message) (o, s)

inductive Session (serde : Serde J) : Offer × Stream → List Event → Offer × Stream → Prop
  | ended {o : Offer} {id : UInt64} {unread : List (Except Str Str)}
      (hunread : unread.head? = none ∨ unread.head? = some (.ok [])) :
      Session serde (o, ⟨id, unread⟩) [] (o, ⟨id, unread.tail⟩)
  | failed {o : Offer} {id : UInt64} {e : Str} {unread : List (Except Str Str)} :
      Session serde (o, ⟨id, .error e :: unread⟩) [.received (.error e)] (o, ⟨id, unread⟩)
  | blank {o : Offer} {id : UInt64} {text : Str} {unread : List (Except Str Str)}
      {events : List Event} {t : Offer × Stream} (hblank : (trim text).isEmpty)
      (rest : Session serde (o, ⟨id, unread⟩) events t) :
      Session serde (o, ⟨id, .ok text :: unread⟩) (.received (.ok text) :: events) t
  | invalid {o : Offer} {id : UInt64} {text e : Str} {unread : List (Except Str Str)}
      {events : List Event} {t : Offer × Stream} (hinvalid : serde.request (trim text) = .error e)
      (rest : Session serde (o, ⟨id, unread⟩) events t) :
      Session serde (o, ⟨id, .ok text :: unread⟩) (.received (.ok text) ::
        .response (.err 0 parseError ("invalid JSON: ".toList ++ e)) :: events) t
  | exchange {o : Offer} {id : UInt64} {text : Str} {unread : List (Except Str Str)}
      {request : Request J} {calls events : List Event} {r : Response Reply} {s t : Offer × Stream}
      (hrequest : requestOf serde (.ok text) = some request)
      (hexchange : Exchange serde (o, ⟨id, unread⟩) request calls r s)
      (rest : Session serde s events t) :
      Session serde (o, ⟨id, .ok text :: unread⟩)
        (.received (.ok text) :: (calls ++ .response r :: events)) t

def RemoteApiHandler.stream (h : RemoteApiHandler) : Stream := ⟨h.nextId, h.reader⟩

def Connection.offer (conn : Connection W) : Offer := ⟨conn.engine.registry, conn.apiBindings⟩

def Connection.state (conn : Connection W) : Offer × Stream := (conn.offer, conn.handler.stream)

theorem Calls.trans {s s' s'' : Stream} {events events' : List Event}
    (h : Calls serde s events s') (h' : Calls serde s' events' s'') :
    Calls serde s (events ++ events') s'' := by
  induction h with
  | none => exact h'
  | call ns method args _ ih => exact .call ns method args (ih h')

def Called (serde : Serde J) (h h' : RemoteApiHandler) : Prop :=
  ∃ events, h'.log = h.log ++ events ∧ Calls serde h.stream events h'.stream

theorem Called.refl (h : RemoteApiHandler) : Called serde h h := ⟨[], by simp, .none⟩

theorem Called.trans {h h' h'' : RemoteApiHandler} (hc : Called serde h h')
    (hc' : Called serde h' h'') : Called serde h h'' := by
  obtain ⟨events, hlog, hcalls⟩ := hc
  obtain ⟨events', hlog', hcalls'⟩ := hc'
  exact ⟨events ++ events', by rw [hlog', hlog, List.append_assoc], hcalls.trans hcalls'⟩

theorem call_called (h : RemoteApiHandler) (ns method : Str) (args : List FieldValue) :
    Called serde h (h.call serde ns method args).2 := by
  obtain ⟨hlog, hreader⟩ := call_eq serde h ns method args
  refine ⟨_, hlog, ?_⟩
  have hstream : (h.call serde ns method args).2.stream = ⟨h.nextId + 1, h.reader.tail⟩ := by
    rw [RemoteApiHandler.stream, hreader]
    obtain ⟨reader, log, nextId⟩ := h
    cases reader <;> rfl
  rw [hstream]
  exact .call ns method args .none

theorem run_called {α : Type} (talk : Talk α) (h : RemoteApiHandler) :
    Called serde h (talk.run serde h).2 := by
  induction talk generalizing h with
  | done a => exact .refl h
  | call ns method args k ih => exact (call_called h ns method args).trans (ih _ _)

theorem execute_called (bodies : Bodies W) (apis : List (ApiBindingEntry Unit))
    (world : W × RemoteApiHandler) (m : ClauseMatch) :
    Called serde world.2 (execute serde bodies apis world m).1.2 :=
  run_called (bodies apis world.1 m) world.2

theorem scriptOf_of_ne {request : Request J} (h : request.method ≠ "register".toList) :
    scriptOf serde request = none := if_neg h

theorem specOf_of_ne {request : Request J} (h : request.method ≠ "register_api".toList) :
    specOf serde request = none := if_neg h

theorem eventOf_of_notMem {request : Request J}
    (h : request.method ∉ ["dispatch".toList, "query".toList, "query_subset".toList]) :
    eventOf serde request = none := if_neg fun hmem => h (by simpa using hmem)

theorem eventOf_of_mem {request : Request J} {r : Except Str FieldMap}
    (h : request.method ∈ ["dispatch".toList, "query".toList, "query_subset".toList])
    (hr : eventParam serde request = r) : eventOf serde request = r.toOption := by
  rw [eventOf, if_pos (by simpa using h), hr]

theorem handleRegister_exchange {conn conn' : Connection W} {request : Request J}
    {r : Response Reply} (hmethod : request.method = "register".toList)
    (h : handleRegister serde conn request = .ok (r, conn')) :
    Exchange serde conn.state request [] r conn'.state ∧ conn'.handler = conn.handler := by
  have hspec : specOf serde request = none := specOf_of_ne (by rw [hmethod]; decide)
  have hevent : eventOf serde request = none := eventOf_of_notMem (by rw [hmethod]; decide)
  unfold handleRegister ScriptRegistry.registerText at h
  cases hparams : serde.registerParams request.params with
  | error e =>
    rw [hparams] at h
    obtain ⟨rfl, rfl⟩ := Prod.mk.inj (Res.ok.inj h)
    have hscript : scriptOf serde request = none := by rw [scriptOf, if_pos hmethod, hparams]; rfl
    exact ⟨.refused hscript hspec hevent _ _, rfl⟩
  | ok params =>
    simp only [hparams] at h
    have hscript : scriptOf serde request =
        (Parser.parseLuaml ⟨params.sourcePath⟩ params.text).toOption := by
      rw [scriptOf, if_pos hmethod, hparams]
      rfl
    cases hparse : Parser.parseLuaml ⟨params.sourcePath⟩ params.text with
    | ok script =>
      simp only [hparse] at h
      obtain ⟨rfl, rfl⟩ := Prod.mk.inj (Res.ok.inj h)
      exact ⟨.register (hscript.trans (by rw [hparse]; rfl)), rfl⟩
    | err e =>
      simp only [hparse] at h
      obtain ⟨rfl, rfl⟩ := Prod.mk.inj (Res.ok.inj h)
      exact ⟨.refused (hscript.trans (by rw [hparse]; rfl)) hspec hevent _ _, rfl⟩
    | panic c => simp [hparse] at h

theorem handleRegisterApi_exchange {conn conn' : Connection W} {request : Request J}
    {r : Response Reply} (hmethod : request.method = "register_api".toList)
    (h : handleRegisterApi serde conn request = (r, conn')) :
    Exchange serde conn.state request [] r conn'.state ∧ conn'.handler = conn.handler := by
  have hscript : scriptOf serde request = none := scriptOf_of_ne (by rw [hmethod]; decide)
  have hevent : eventOf serde request = none := eventOf_of_notMem (by rw [hmethod]; decide)
  unfold handleRegisterApi at h
  cases hparams : serde.registerApiParams request.params with
  | error e =>
    rw [hparams] at h
    obtain ⟨rfl, rfl⟩ := Prod.mk.inj h
    have hspec : specOf serde request = none := by rw [specOf, if_pos hmethod, hparams]; rfl
    exact ⟨.refused hscript hspec hevent _ _, rfl⟩
  | ok params =>
    simp only [hparams] at h
    have hspec : specOf serde request = (jsonMapToPattern serde params.pattern).toOption.map
        fun pattern => ⟨params.ns, pattern, ()⟩ := by
      rw [specOf, if_pos hmethod, hparams]
      rfl
    cases hpattern : jsonMapToPattern serde params.pattern with
    | error e =>
      simp only [hpattern] at h
      obtain ⟨rfl, rfl⟩ := Prod.mk.inj h
      exact ⟨.refused hscript (hspec.trans (by rw [hpattern]; rfl)) hevent _ _, rfl⟩
    | ok pattern =>
      simp only [hpattern] at h
      obtain ⟨rfl, rfl⟩ := Prod.mk.inj h
      exact ⟨.registerApi (hspec.trans (by rw [hpattern]; rfl)), rfl⟩

theorem handleDispatch_exchange (bodies : Bodies W) {conn conn' : Connection W}
    {request : Request J} {r : Response Reply} (hmethod : request.method = "dispatch".toList)
    (h : handleDispatch serde bodies conn request = .ok (r, conn')) :
    ∃ calls, Exchange serde conn.state request calls r conn'.state ∧
      conn'.handler.log = conn.handler.log ++ calls := by
  have hmem : request.method ∈ ["dispatch".toList, "query".toList, "query_subset".toList] := by
    rw [hmethod]
    decide
  unfold handleDispatch at h
  split at h
  · rename_i hevent
    obtain ⟨rfl, rfl⟩ := Prod.mk.inj (Res.ok.inj h)
    exact ⟨[], .refused (scriptOf_of_ne (by rw [hmethod]; decide))
      (specOf_of_ne (by rw [hmethod]; decide)) (eventOf_of_mem hmem hevent) _ _, by simp⟩
  · rename_i hevent
    obtain ⟨run, hrun, h⟩ := bind_eq_ok.mp h
    obtain ⟨rfl, rfl⟩ := Prod.mk.inj (Res.ok.inj h)
    obtain ⟨calls, hlog, hcalls⟩ : Called serde conn.handler run.world.2 := by
      apply LuamlEngine.dispatch_world (R := fun world world' => Called serde world.2 world'.2)
        (fun _ => .refl _) _ (execute_called bodies _) hrun
      intro _ _ _ hc hc'
      exact hc.trans hc'
    exact ⟨calls, .dispatch hmethod (eventOf_of_mem hmem hevent) hcalls _, hlog⟩

theorem processRequest_exchange (bodies : Bodies W) {conn conn' : Connection W}
    {request : Request J} {r : Response Reply}
    (h : processRequest serde bodies conn request = .ok (r, conn')) :
    ∃ calls, Exchange serde conn.state request calls r conn'.state ∧
      conn'.handler.log = conn.handler.log ++ calls := by
  unfold processRequest at h
  split at h
  · rename_i hmethod
    obtain ⟨hexchange, hhandler⟩ := handleRegister_exchange hmethod h
    exact ⟨[], hexchange, by simp [hhandler]⟩
  rename_i hregister
  split at h
  · rename_i hmethod
    obtain ⟨hexchange, hhandler⟩ := handleRegisterApi_exchange hmethod (Res.ok.inj h)
    exact ⟨[], hexchange, by simp [hhandler]⟩
  rename_i hapi
  split at h
  · rename_i hmethod
    exact handleDispatch_exchange bodies hmethod h
  rename_i hdispatch
  have hscript : scriptOf serde request = none := scriptOf_of_ne hregister
  have hspec : specOf serde request = none := specOf_of_ne hapi
  split at h
  · rename_i hmethod
    obtain ⟨rfl, rfl⟩ := Prod.mk.inj (Res.ok.inj h)
    refine ⟨[], ?_, by simp⟩
    have hmem : request.method ∈ ["dispatch".toList, "query".toList, "query_subset".toList] := by
      rw [hmethod]
      decide
    unfold handleQuery
    split
    · rename_i hevent
      exact .refused hscript hspec (eventOf_of_mem hmem hevent) _ _
    · rename_i hevent
      exact .query hmethod (eventOf_of_mem hmem hevent)
  rename_i hquery
  split at h
  · rename_i hmethod
    obtain ⟨rfl, rfl⟩ := Prod.mk.inj (Res.ok.inj h)
    refine ⟨[], ?_, by simp⟩
    have hmem : request.method ∈ ["dispatch".toList, "query".toList, "query_subset".toList] := by
      rw [hmethod]
      decide
    unfold handleQuerySubset
    split
    · rename_i hevent
      exact .refused hscript hspec (eventOf_of_mem hmem hevent) _ _
    · rename_i hevent
      exact .querySubset hmethod (eventOf_of_mem hmem hevent)
  · rename_i hsubset
    obtain ⟨rfl, rfl⟩ := Prod.mk.inj (Res.ok.inj h)
    have hevent : eventOf serde request = none :=
      eventOf_of_notMem (by simp only [List.mem_cons, hdispatch, hquery, hsubset, List.not_mem_nil,
        or_self, not_false_eq_true])
    exact ⟨[], .refused hscript hspec hevent _ _, by simp⟩

inductive Served (serde : Serde J) (bodies : Bodies W) :
    Connection W → List Event → Connection W → Prop
  | ended {engine : LuamlEngine} {apis : ApiBindings Unit} {lua : W} {log : List Event}
      {id : UInt64} {unread : List (Except Str Str)}
      (hunread : unread.head? = none ∨ unread.head? = some (.ok [])) :
      Served serde bodies ⟨engine, apis, lua, ⟨unread, log, id⟩⟩ []
        ⟨engine, apis, lua, ⟨unread.tail, log, id⟩⟩
  | failed {engine : LuamlEngine} {apis : ApiBindings Unit} {lua : W} {log : List Event}
      {id : UInt64} {e : Str} {unread : List (Except Str Str)} :
      Served serde bodies ⟨engine, apis, lua, ⟨.error e :: unread, log, id⟩⟩
        [.received (.error e)] ⟨engine, apis, lua, ⟨unread, log ++ [.received (.error e)], id⟩⟩
  | blank {engine : LuamlEngine} {apis : ApiBindings Unit} {lua : W} {log : List Event}
      {id : UInt64} {text : Str} {unread : List (Except Str Str)} {events : List Event}
      {conn' : Connection W} (hblank : (trim text).isEmpty)
      (rest : Served serde bodies
        ⟨engine, apis, lua, ⟨unread, log ++ [.received (.ok text)], id⟩⟩ events conn') :
      Served serde bodies ⟨engine, apis, lua, ⟨.ok text :: unread, log, id⟩⟩
        (.received (.ok text) :: events) conn'
  | invalid {engine : LuamlEngine} {apis : ApiBindings Unit} {lua : W} {log : List Event}
      {id : UInt64} {text e : Str} {unread : List (Except Str Str)} {events : List Event}
      {conn' : Connection W} (hinvalid : serde.request (trim text) = .error e)
      (rest : Served serde bodies
        (Connection.note ⟨engine, apis, lua, ⟨unread, log ++ [.received (.ok text)], id⟩⟩
          (.response (.err 0 parseError ("invalid JSON: ".toList ++ e)))) events conn') :
      Served serde bodies ⟨engine, apis, lua, ⟨.ok text :: unread, log, id⟩⟩
        (.received (.ok text) ::
          .response (.err 0 parseError ("invalid JSON: ".toList ++ e)) :: events) conn'
  | exchange {engine : LuamlEngine} {apis : ApiBindings Unit} {lua : W} {log : List Event}
      {id : UInt64} {text : Str} {unread : List (Except Str Str)} {request : Request J}
      {calls events : List Event} {r : Response Reply} {conn₁ conn' : Connection W}
      (hrequest : requestOf serde (.ok text) = some request)
      (hprocess : processRequest serde bodies
        ⟨engine, apis, lua, ⟨unread, log ++ [.received (.ok text)], id⟩⟩ request = .ok (r, conn₁))
      (hexchange : Exchange serde (⟨engine.registry, apis⟩, ⟨id, unread⟩) request calls r
        conn₁.state)
      (hcalls : conn₁.handler.log = log ++ [.received (.ok text)] ++ calls)
      (rest : Served serde bodies (conn₁.note (.response r)) events conn') :
      Served serde bodies ⟨engine, apis, lua, ⟨.ok text :: unread, log, id⟩⟩
        (.received (.ok text) :: (calls ++ .response r :: events)) conn'

theorem serve_served (bodies : Bodies W) (n : Nat) {conn conn' : Connection W}
    (h : conn.serve serde bodies n = .ok conn') :
    ∃ events, Served serde bodies conn events conn' := by
  induction n generalizing conn with
  | zero => cases h
  | succ n ih =>
    obtain ⟨engine, apiBindings, lua, ⟨reader, log, nextId⟩⟩ := conn
    cases reader with
    | nil =>
      obtain rfl := Res.ok.inj h
      exact ⟨[], .ended (.inl rfl)⟩
    | cons item reader =>
      cases item with
      | error e =>
        obtain rfl := Res.ok.inj h
        exact ⟨_, .failed⟩
      | ok text =>
        cases text with
        | nil =>
          obtain rfl := Res.ok.inj h
          exact ⟨[], .ended (.inr rfl)⟩
        | cons c cs =>
          simp only [Connection.serve, RemoteApiHandler.readLine] at h
          split at h
          · rename_i hblank
            obtain ⟨events, hserved⟩ := ih h
            exact ⟨_, .blank hblank hserved⟩
          · rename_i hfilled
            split at h
            · rename_i e hinvalid
              obtain ⟨events, hserved⟩ := ih h
              exact ⟨_, .invalid hinvalid hserved⟩
            · rename_i request hparse
              obtain ⟨⟨r, conn₁⟩, hprocess, h⟩ := bind_eq_ok.mp h
              obtain ⟨calls, hexchange, hcalls⟩ := processRequest_exchange bodies hprocess
              obtain ⟨events, hserved⟩ := ih h
              have hrequest : requestOf serde (.ok (c :: cs)) = some request := by
                rw [requestOf, if_neg hfilled, hparse]
                rfl
              exact ⟨_, .exchange hrequest hprocess hexchange hcalls hserved⟩

variable {bodies : Bodies W} {conn conn' : Connection W} {events : List Event}

theorem Served.log (h : Served serde bodies conn events conn') :
    conn'.handler.log = conn.handler.log ++ events := by
  induction h with
  | ended hunread => exact (List.append_nil _).symm
  | failed => rfl
  | blank hblank _ ih => simp [ih]
  | invalid hinvalid _ ih => simp [ih, Connection.note, RemoteApiHandler.note]
  | exchange hrequest hprocess hexchange hcalls _ ih =>
    simp [ih, hcalls, Connection.note, RemoteApiHandler.note]

theorem Served.session (h : Served serde bodies conn events conn') :
    Session serde conn.state events conn'.state := by
  induction h with
  | ended hunread => exact .ended hunread
  | failed => exact .failed
  | blank hblank _ ih => exact .blank hblank ih
  | invalid hinvalid _ ih => exact .invalid hinvalid ih
  | exchange hrequest hprocess hexchange hcalls _ ih => exact .exchange hrequest hexchange ih

theorem serve_session (bodies : Bodies W) (n : Nat) (h : conn.serve serde bodies n = .ok conn') :
    ∃ events, conn'.handler.log = conn.handler.log ++ events ∧
      Session serde conn.state events conn'.state := by
  obtain ⟨events, hserved⟩ := serve_served bodies n h
  exact ⟨events, hserved.log, hserved.session⟩

/-- What happens in a session is what the protocol says, and the connection is left with what the
protocol says that it has to offer. -/
theorem handleStream_session (serde : Serde J) (bodies : Bodies W) (engine : LuamlEngine) (lua : W)
    (reader : List (Except Str Str)) (conn : Connection W)
    (h : handleStream serde bodies engine lua reader = .ok conn) :
    Session serde (⟨engine.registry, .empty⟩, ⟨1000000, reader⟩) conn.handler.log
      (⟨conn.engine.registry, conn.apiBindings⟩, ⟨conn.handler.nextId, conn.handler.reader⟩) := by
  obtain ⟨events, hlog, hsession⟩ := serve_session bodies _ h
  obtain rfl : conn.handler.log = events := hlog
  exact hsession

theorem inTurn_session :
    ∃ conn, handleStream sessionSerde sessionBodies newEngine () inTurn = .ok conn ∧
      Session sessionSerde (⟨.empty, .empty⟩, ⟨1000000, inTurn⟩) conn.handler.log
        (⟨conn.engine.registry, conn.apiBindings⟩, ⟨conn.handler.nextId, conn.handler.reader⟩) := by
  have hok : (handleStream sessionSerde sessionBodies newEngine () inTurn).toOption.isSome := by
    decide +kernel
  obtain ⟨conn, hconn⟩ := Option.isSome_iff_exists.mp hok
  have hconn' := Res.toOption_eq_some.mp hconn
  exact ⟨conn, hconn', handleStream_session _ _ newEngine _ _ conn hconn'⟩

end Luaml.Service
