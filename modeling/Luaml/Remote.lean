import Luaml.Sessions
import Luaml.Worlds

namespace Luaml.Service

open Rust Res Run

variable {J W : Type}

structure Client (J : Type) where
  api : Str → Str → List FieldValue → Except ApiError FieldValue
  toJson : FieldValue → J
  write : Response J → Str

namespace Client

variable (c : Client J)

def respond (id : UInt64) : Except ApiError FieldValue → Response J
  | .ok value => .ok id (c.toJson value)
  | .error e => .err id luamlError e.message

def line (id : UInt64) (result : Except ApiError FieldValue) : Except Str Str :=
  .ok (c.write (c.respond id result))

/-- The service reads what the client writes. -/
structure Understood (serde : Serde J) : Prop where
  write_ne : ∀ id ns method args, c.write (c.respond id (c.api ns method args)) ≠ []
  read : ∀ id ns method args, serde.response (c.write (c.respond id (c.api ns method args))) =
    .ok (c.respond id (c.api ns method args))
  value : ∀ ns method args value, c.api ns method args = .ok value →
    serde.fieldValue (c.toJson value) = .ok value

/-- The responses to calls from that id on, and what comes after them. -/
def script (later : UInt64 → List (Except Str Str)) (id : UInt64) :
    List (Except ApiError FieldValue) → List (Except Str Str)
  | [] => later id
  | result :: results => c.line id result :: script later (id + 1) results

/-- What the client writes: these lines in their order, and responses to calls between them. -/
inductive Writes : List (Except Str Str) → List (Except Str Str) → Prop
  | nil : Writes [] []
  | line (line : Except Str Str) {lines reader : List (Except Str Str)} :
    Writes lines reader → Writes (line :: lines) (line :: reader)
  | response (id : UInt64) (result : Except ApiError FieldValue)
    {lines reader : List (Except Str Str)} :
    Writes lines reader → Writes lines (c.line id result :: reader)

end Client

def Talk.resolve {α : Type} (api : Str → Str → List FieldValue → Except ApiError FieldValue) :
    Talk α → α
  | .done a => a
  | .call ns method args k => (k (api ns method args)).resolve api

def Talk.results {α : Type} (api : Str → Str → List FieldValue → Except ApiError FieldValue) :
    Talk α → List (Except ApiError FieldValue)
  | .done _ => []
  | .call ns method args k => api ns method args :: (k (api ns method args)).results api

def Bodies.resolve (api : Str → Str → List FieldValue → Except ApiError FieldValue)
    (bodies : Bodies W) : Bodies W :=
  fun apis lua m => .done ((bodies apis lua m).resolve api)

variable {c : Client J} {serde : Serde J} {lines reader : List (Except Str Str)}
  {later : UInt64 → List (Except Str Str)}

theorem Client.Writes.refl (lines : List (Except Str Str)) : c.Writes lines lines := by
  induction lines with
  | nil => exact .nil
  | cons line lines ih => exact .line line ih

theorem Client.Writes.script (hlater : ∀ id, c.Writes lines (later id)) (id : UInt64)
    (results : List (Except ApiError FieldValue)) : c.Writes lines (c.script later id results) := by
  induction results generalizing id with
  | nil => exact hlater id
  | cons result results ih => exact .response id result (ih (id + 1))

theorem answer_line (hc : c.Understood serde) (id : UInt64) (ns method : Str)
    (args : List FieldValue) :
    answer serde id (c.line id (c.api ns method args)) = c.api ns method args := by
  have hne : (c.write (c.respond id (c.api ns method args))).isEmpty = false := by
    simpa using hc.write_ne id ns method args
  simp only [Client.line, answer, hne, hc.read, Bool.false_eq_true, if_false]
  cases hresult : c.api ns method args with
  | ok value =>
    have hvalue := hc.value ns method args value hresult
    simp [Client.respond, Response.ok, Response.value, hvalue, Except.mapError]
  | error e => simp [Client.respond, Response.err, Response.value]

def Client.called (c : Client J) : Event → Option (UInt64 × Except ApiError FieldValue)
  | .apiCall request _ =>
    some (request.id, c.api request.params.ns request.params.method request.params.args)
  | _ => none

def Client.Attends (c : Client J) : Event → Prop
  | .apiCall request unread => unread.head? =
    some (c.line request.id (c.api request.params.ns request.params.method request.params.args))
  | _ => True

structure Told (c : Client J) (sent : List (Response Reply)) (log : List Event) : Prop where
  responses : responses log = sent
  returned : returned log = log.filterMap c.called
  attended : ∀ event ∈ log, c.Attends event

structure Outlook where
  later : UInt64 → List (Except Str Str)
  sent : List (Response Reply)
  bound : Nat

structure Beside (c : Client J) (o : Outlook) (world : W × RemoteApiHandler)
    (results : List (Except ApiError FieldValue)) (world' : W × RemoteApiHandler) : Prop where
  lua : world'.1 = world.1
  reader : world'.2.reader = c.script o.later world'.2.nextId results
  told : Told c o.sent world'.2.log
  length : world'.2.reader.length ≤ o.bound

theorem attends_append {log : List Event} {event : Event} (hlog : ∀ e ∈ log, c.Attends e)
    (hevent : c.Attends event) : ∀ e ∈ log ++ [event], c.Attends e :=
  List.forall_mem_append.mpr ⟨hlog, List.forall_mem_singleton.mpr hevent⟩

theorem call_line (hc : c.Understood serde) (ns method : Str) (args : List FieldValue)
    {h : RemoteApiHandler}
    (hreader : h.reader = c.line h.nextId (c.api ns method args) :: reader) :
    ∃ h', h.call serde ns method args = (c.api ns method args, h') ∧ h'.reader = reader ∧
      h'.nextId = h.nextId + 1 ∧ ∀ sent, Told c sent h.log → Told c sent h'.log := by
  obtain ⟨unread, log, nextId⟩ := h
  obtain rfl : unread = c.line nextId (c.api ns method args) :: reader := hreader
  refine ⟨_, Prod.ext ?_ rfl, rfl, rfl, fun sent htold => ?_⟩
  · exact answer_line hc nextId ns method args
  · change Told c sent
      ((log ++ [.apiCall (Request.new "api_call".toList ⟨ns, method, args⟩ nextId) _])
        ++ [.returned nextId (answer serde nextId (c.line nextId (c.api ns method args)))])
    refine ⟨?_, ?_, ?_⟩
    · simpa [Service.responses] using htold.responses
    · rw [returned_append, returned_append, htold.returned, answer_line hc,
        List.filterMap_append, List.filterMap_append]
      simp [Service.returned, Client.called, Request.new]
    · exact attends_append (attends_append htold.attended rfl) trivial

theorem run_resolved (hc : c.Understood serde) {α : Type} (talk : Talk α) {h : RemoteApiHandler}
    {rest : List (Except ApiError FieldValue)}
    (hreader : h.reader = c.script later h.nextId (talk.results c.api ++ rest)) :
    ∃ h', talk.run serde h = (talk.resolve c.api, h') ∧
      h'.reader = c.script later h'.nextId rest ∧ (∀ sent, Told c sent h.log → Told c sent h'.log) ∧
      h'.reader.length ≤ h.reader.length := by
  induction talk generalizing h with
  | done a => exact ⟨h, rfl, hreader, fun _ htold => htold, Nat.le_refl _⟩
  | call ns method args k ih =>
    obtain ⟨h₁, hcall, hreader₁, hid₁, htold₁⟩ := call_line hc ns method args hreader
    obtain ⟨h', hrun, hreader', htold', hlength⟩ :=
      ih (c.api ns method args) (h := h₁) (by rw [hreader₁, hid₁]; rfl)
    refine ⟨h', ?_, hreader', fun sent htold => htold' sent (htold₁ sent htold), hlength.trans ?_⟩
    · rw [Talk.run, hcall]
      exact hrun
    · rw [hreader, hreader₁]
      exact Nat.le_succ _

theorem execute_plays (hc : c.Understood serde) (bodies : Bodies W)
    (apis : List (ApiBindingEntry Unit)) :
    PlaysEach (Beside c) (execute serde (bodies.resolve c.api) apis)
      (execute serde bodies apis) := by
  intro world m
  refine ⟨(bodies apis world.1 m).results c.api, fun o rest world' hbeside => ?_⟩
  obtain ⟨h', hrun, hreader, htold, hlength⟩ :=
    run_resolved hc (bodies apis world.1 m) hbeside.reader
  have hexecute : execute serde bodies apis world' m =
      ((((bodies apis world.1 m).resolve c.api).1, h'),
        ((bodies apis world.1 m).resolve c.api).2) := by
    rw [execute, hbeside.lua, hrun]
  rw [hexecute]
  exact ⟨rfl, rfl, hreader, htold _ hbeside.told, hlength.trans hbeside.length⟩

theorem execute_handler (bodies : Bodies W) (apis : List (ApiBindingEntry Unit))
    (world : W × RemoteApiHandler) (m : ClauseMatch) :
    (execute serde (bodies.resolve c.api) apis world m).1.2 = world.2 := rfl

variable {conn conn' : Connection W} {h : RemoteApiHandler} {request : Request J}
  {r : Response Reply}

def Connection.over (conn : Connection W) (h : RemoteApiHandler) : Connection W :=
  { conn with handler := h }

/-- With what the client has to write in return, the request is answered as it is where its
functions are called in place, which leaves the stream as it is. -/
def AnsweredAlike (c : Client J)
    (process : Connection W → Res Empty (Response Reply × Connection W)) (conn : Connection W)
    (r : Response Reply) (conn' : Connection W) : Prop :=
  conn'.handler = conn.handler ∧ ∃ results, ∀ later (h : RemoteApiHandler) sent,
    h.reader = c.script later h.nextId results → Told c sent h.log →
      ∃ h', process (conn.over h) = .ok (r, conn'.over h') ∧ h'.reader = later h'.nextId ∧
        Told c sent h'.log ∧ h'.reader.length ≤ h.reader.length

theorem AnsweredAlike.of_silent {process : Connection W → Res Empty (Response Reply × Connection W)}
    (hhandler : conn'.handler = conn.handler)
    (hprocess : ∀ h, process (conn.over h) = .ok (r, conn'.over h)) :
    AnsweredAlike c process conn r conn' :=
  ⟨hhandler, [], fun _ h _ hreader htold => ⟨h, hprocess h, hreader, htold, Nat.le_refl _⟩⟩

theorem handleDispatch_resolved (hc : c.Understood serde) (bodies : Bodies W)
    (hlocal : handleDispatch serde (bodies.resolve c.api) conn request = .ok (r, conn')) :
    AnsweredAlike c (fun conn => handleDispatch serde bodies conn request) conn r conn' := by
  unfold handleDispatch at hlocal
  split at hlocal
  · rename_i e hevent
    cases hlocal
    refine .of_silent rfl fun h => ?_
    simp only [handleDispatch, hevent]
  · rename_i event hevent
    obtain ⟨run, hrun, hlocal⟩ := bind_eq_ok.mp hlocal
    cases hlocal
    have hhandler : run.world.2 = conn.handler := by
      apply LuamlEngine.dispatch_world (R := fun world world' => world'.2 = world.2)
        (fun _ => rfl) _ (execute_handler bodies _) hrun
      intro _ _ _ hab hbc
      exact hbc.trans hab
    refine ⟨hhandler, ?_⟩
    obtain ⟨results, hresults⟩ := conn.engine.dispatch_plays
      (execute_plays hc bodies conn.apiBindings.entries) hrun
    refine ⟨results, fun later h sent hreader htold => ?_⟩
    obtain ⟨⟨lua, h'⟩, hdispatch, hbeside⟩ :=
      hresults ⟨later, sent, h.reader.length⟩ [] (conn.lua, h)
        ⟨rfl, by rw [List.append_nil]; exact hreader, htold, Nat.le_refl _⟩
    refine ⟨h', ?_, hbeside.reader, hbeside.told, hbeside.length⟩
    have hdispatch : LuamlEngine.dispatch conn.engine
      (execute serde bodies conn.apiBindings.entries) (conn.lua, h) event =
        .ok (run.within (lua, h')) := hdispatch
    have hlua : lua = run.world.1 := hbeside.lua
    simp only [handleDispatch, hevent, Connection.over, hdispatch, ok_bind, hlua]
    rfl

theorem handleRegister_over (hlocal : handleRegister serde conn request = .ok (r, conn')) :
    conn'.handler = conn.handler ∧
      ∀ h, handleRegister serde (conn.over h) request = .ok (r, conn'.over h) := by
  unfold handleRegister at hlocal
  split at hlocal
  · rename_i e hparams
    cases hlocal
    exact ⟨rfl, fun h => by simp only [handleRegister, hparams]⟩
  · rename_i params hparams
    split at hlocal
    · rename_i reg hregistered
      cases hlocal
      exact ⟨rfl, fun h => by simp only [handleRegister, hparams, Connection.over, hregistered]⟩
    · rename_i e reg hregistered
      cases hlocal
      exact ⟨rfl, fun h => by simp only [handleRegister, hparams, Connection.over, hregistered]⟩
    · cases hlocal

theorem handleRegisterApi_over (hlocal : handleRegisterApi serde conn request = (r, conn')) :
    conn'.handler = conn.handler ∧
      ∀ h, handleRegisterApi serde (conn.over h) request = (r, conn'.over h) := by
  unfold handleRegisterApi at hlocal
  split at hlocal
  · rename_i e hparams
    cases hlocal
    exact ⟨rfl, fun h => by simp only [handleRegisterApi, hparams]⟩
  · rename_i params hparams
    split at hlocal
    · rename_i e hpattern
      cases hlocal
      exact ⟨rfl, fun h => by simp only [handleRegisterApi, hparams, hpattern]⟩
    · rename_i pattern hpattern
      cases hlocal
      exact ⟨rfl, fun h => by simp only [handleRegisterApi, hparams, hpattern]; rfl⟩

theorem processRequest_resolved (hc : c.Understood serde) (bodies : Bodies W)
    (hlocal : processRequest serde (bodies.resolve c.api) conn request = .ok (r, conn')) :
    AnsweredAlike c (fun conn => processRequest serde bodies conn request) conn r conn' := by
  unfold processRequest at hlocal ⊢
  split at hlocal
  · rename_i hregister
    simp only [if_pos hregister]
    obtain ⟨hhandler, hover⟩ := handleRegister_over hlocal
    exact .of_silent hhandler hover
  rename_i hregister
  simp only [if_neg hregister]
  split at hlocal
  · rename_i hapi
    simp only [if_pos hapi]
    obtain ⟨hhandler, hover⟩ := handleRegisterApi_over (Res.ok.inj hlocal)
    exact .of_silent hhandler fun h => congrArg _ (hover h)
  rename_i hapi
  simp only [if_neg hapi]
  split at hlocal
  · rename_i hdispatch
    simp only [if_pos hdispatch]
    exact handleDispatch_resolved hc bodies hlocal
  rename_i hdispatch
  simp only [if_neg hdispatch]
  refine .of_silent ?_ fun h => ?_
  all_goals
    split_ifs at hlocal ⊢
    all_goals
      cases hlocal
      rfl

def RemoteApiHandler.read (h : RemoteApiHandler) (line : Except Str Str)
    (unread : List (Except Str Str)) : RemoteApiHandler :=
  { h with reader := unread }.note (.received line)

theorem read_responses (h : RemoteApiHandler) (line : Except Str Str)
    (unread : List (Except Str Str)) : responses (h.read line unread).log = responses h.log := by
  change responses (h.log ++ [_]) = _
  simp [responses]

theorem note_responses (h : RemoteApiHandler) (r : Response Reply) :
    responses (h.note (.response r)).log = responses h.log ++ [r] := by
  change responses (h.log ++ [_]) = _
  simp [responses]

theorem Told.read {sent : List (Response Reply)} (htold : Told c sent h.log)
    (line : Except Str Str) (unread : List (Except Str Str)) :
    Told c sent (h.read line unread).log where
  responses := (read_responses h line unread).trans htold.responses
  returned := by
    change Service.returned (h.log ++ [_]) = (h.log ++ [_]).filterMap c.called
    rw [returned_append, htold.returned, List.filterMap_append]
    rfl
  attended := attends_append htold.attended trivial

theorem Told.note {sent : List (Response Reply)} (htold : Told c sent h.log) :
    Told c (sent ++ [r]) (h.note (.response r)).log where
  responses := by rw [note_responses, htold.responses]
  returned := by
    change Service.returned (h.log ++ [_]) = (h.log ++ [_]).filterMap c.called
    rw [returned_append, htold.returned, List.filterMap_append]
    rfl
  attended := attends_append htold.attended trivial

def Connection.serveLine (serde : Serde J) (bodies : Bodies W) (n : Nat) (text : Str)
    (conn : Connection W) : Res Empty (Connection W) :=
  if (Str.trim text).isEmpty then conn.serve serde bodies n
  else
    match serde.request (Str.trim text) with
    | .error e =>
      (conn.note
        (.response (.err 0 parseError ("invalid JSON: ".toList ++ e)))).serve serde bodies n
    | .ok request => do
      let (response, conn) ← processRequest serde bodies conn request
      (conn.note (.response response)).serve serde bodies n

theorem serve_line (bodies : Bodies W) (n : Nat) (conn : Connection W) {h : RemoteApiHandler}
    {ch : Char} {text : Str} {unread : List (Except Str Str)}
    (hreader : h.reader = .ok (ch :: text) :: unread) :
    (conn.over h).serve serde bodies (n + 1) =
      (conn.over (h.read (.ok (ch :: text)) unread)).serveLine serde bodies n (ch :: text) := by
  simp only [Connection.serve, Connection.over, RemoteApiHandler.readLine, hreader]
  rfl

/-- There is something that the client can write so that `go` ends over its stream as the connection
ends with the functions in place. -/
def Follows (c : Client J) (go : Nat → Connection W → Res Empty (Connection W))
    (conn conn' : Connection W) (id : UInt64) : Prop :=
  ∃ reader, c.Writes conn.handler.reader reader ∧ ∀ (h : RemoteApiHandler) m, h.nextId = id →
    h.reader = reader → Told c (responses conn.handler.log) h.log → reader.length < m →
      ∃ h', go m (conn.over h) = .ok (conn'.over h') ∧
        Told c (responses conn'.handler.log) h'.log ∧ h'.reader = conn'.handler.reader

theorem Follows.line {bodies : Bodies W} {ch : Char} {text : Str}
    {unread : List (Except Str Str)} {id : UInt64}
    (hunread : conn.handler.reader = .ok (ch :: text) :: unread)
    (hrest : Follows c (fun m conn => conn.serveLine serde bodies m (ch :: text))
      (conn.over (conn.handler.read (.ok (ch :: text)) unread)) conn' id) :
    Follows c (Connection.serve serde bodies) conn conn' id := by
  obtain ⟨reader, hwrites, hrest⟩ := hrest
  refine ⟨.ok (ch :: text) :: reader, hunread ▸ .line _ hwrites, ?_⟩
  intro h m hid hreader htold hm
  obtain ⟨m, rfl⟩ := Nat.exists_eq_succ_of_ne_zero (Nat.ne_zero_of_lt hm)
  rw [Nat.succ_eq_add_one, serve_line bodies m conn hreader]
  refine hrest (h.read (.ok (ch :: text)) reader) m hid rfl ?_ (Nat.lt_of_succ_lt_succ hm)
  change Told c (responses (conn.handler.read (.ok (ch :: text)) unread).log) _
  rw [read_responses]
  exact htold.read _ _

theorem Follows.note {go : Nat → Connection W → Res Empty (Connection W)} {id : UInt64}
    (hrest : Follows c go (conn.note (.response r)) conn' id) :
    Follows c (fun m conn => go m (conn.note (.response r))) conn conn' id := by
  obtain ⟨reader, hwrites, hrest⟩ := hrest
  refine ⟨reader, hwrites, fun h m hid hreader htold hm => ?_⟩
  refine hrest (h.note (.response r)) m hid hreader ?_ hm
  change Told c (responses (conn.handler.note (.response r)).log) _
  rw [note_responses]
  exact htold.note

theorem Follows.process {go : Nat → Connection W → Res Empty (Connection W)}
    {process : Connection W → Res Empty (Response Reply × Connection W)} {conn₁ : Connection W}
    (hprocess : AnsweredAlike c process conn r conn₁)
    (hrest : ∀ id, Follows c go (conn₁.note (.response r)) conn' id) (id : UInt64) :
    Follows c (fun m conn => process conn >>= fun x => go m (x.2.note (.response x.1)))
      conn conn' id := by
  obtain ⟨hhandler, results, hresults⟩ := hprocess
  choose later hwrites hlater using fun id => (hrest id).note
  refine ⟨c.script later id results, .script (fun id => hhandler ▸ hwrites id) id results, ?_⟩
  rintro h m rfl hreader htold hm
  obtain ⟨h', hanswered, hreader', htold', hlength⟩ := hresults later h _ hreader htold
  rw [hreader', hreader] at hlength
  obtain ⟨h'', hgo, hend⟩ := hlater h'.nextId h' m rfl hreader'
    (by rw [hhandler]; exact htold') (Nat.lt_of_le_of_lt hlength hm)
  refine ⟨h'', ?_, hend⟩
  change process (conn.over h) >>= _ = _
  rw [hanswered, ok_bind]
  exact hgo

theorem serve_resolved (hc : c.Understood serde) (bodies : Bodies W) (n : Nat)
    (hlocal : conn.serve serde (bodies.resolve c.api) n = .ok conn') (id : UInt64) :
    Follows c (Connection.serve serde bodies) conn conn' id := by
  induction n generalizing conn id with
  | zero => cases hlocal
  | succ n ih =>
    cases hunread : conn.handler.reader with
    | nil =>
      simp only [Connection.serve, RemoteApiHandler.readLine, hunread] at hlocal
      cases hlocal
      refine ⟨[], by rw [hunread]; exact .nil, fun h m _ hreader htold hm => ?_⟩
      obtain ⟨m, rfl⟩ := Nat.exists_eq_succ_of_ne_zero (Nat.ne_zero_of_lt hm)
      refine ⟨h, ?_, htold, hreader.trans hunread.symm⟩
      simp only [Connection.serve, Connection.over, RemoteApiHandler.readLine, hreader]
    | cons item unread =>
      cases item with
      | error e =>
        simp only [Connection.serve, RemoteApiHandler.readLine, hunread] at hlocal
        cases hlocal
        refine ⟨_, .refl _, fun h m _ hreader htold hm => ?_⟩
        obtain ⟨m, rfl⟩ := Nat.exists_eq_succ_of_ne_zero (Nat.ne_zero_of_lt hm)
        refine ⟨h.read (.error e) unread, ?_, ?_, rfl⟩
        · simp only [Connection.serve, Connection.over, RemoteApiHandler.readLine,
            hreader.trans hunread]
          rfl
        · change Told c (responses (conn.handler.read (.error e) unread).log) _
          rw [read_responses]
          exact htold.read _ _
      | ok text =>
        cases text with
        | nil =>
          simp only [Connection.serve, RemoteApiHandler.readLine, hunread] at hlocal
          cases hlocal
          refine ⟨_, .refl _, fun h m _ hreader htold hm => ?_⟩
          obtain ⟨m, rfl⟩ := Nat.exists_eq_succ_of_ne_zero (Nat.ne_zero_of_lt hm)
          refine ⟨{ h with reader := unread }, ?_, htold, rfl⟩
          simp only [Connection.serve, Connection.over, RemoteApiHandler.readLine,
            hreader.trans hunread]
        | cons ch text =>
          refine .line hunread ?_
          have hlocal : (conn.over (conn.handler.read (.ok (ch :: text)) unread)).serveLine serde
              (bodies.resolve c.api) n (ch :: text) = .ok conn' :=
            (serve_line _ n conn hunread).symm.trans hlocal
          unfold Connection.serveLine at hlocal ⊢
          split at hlocal
          · rename_i hblank
            simp only [hblank, if_true]
            exact ih hlocal id
          rename_i hfilled
          simp only [hfilled, Bool.false_eq_true, if_false]
          split at hlocal
          · exact (ih hlocal id).note
          · obtain ⟨⟨r, conn₁⟩, hprocess, hlocal⟩ := bind_eq_ok.mp hlocal
            exact .process (processRequest_resolved hc bodies hprocess) (ih hlocal) id

/-- Where the client answers every call with what its function returns, it can write something that
has the connection do what it does with the functions in place: for the same requests it sends the
same responses, and the engine, the API bindings and the Lua state are left the same. -/
theorem handleStream_resolved (hc : c.Understood serde) (bodies : Bodies W)
    (engine : LuamlEngine) (lua : W)
    (hlocal : handleStream serde (bodies.resolve c.api) engine lua lines = .ok conn) :
    ∃ reader conn', c.Writes lines reader ∧
      handleStream serde bodies engine lua reader = .ok conn' ∧ conn'.engine = conn.engine ∧
        conn'.apiBindings = conn.apiBindings ∧ conn'.lua = conn.lua ∧
          conn'.handler.reader = conn.handler.reader ∧
            responses conn'.handler.log = responses conn.handler.log ∧
              returned conn'.handler.log = conn'.handler.log.filterMap c.called := by
  obtain ⟨reader, hwrites, hfollows⟩ := serve_resolved hc bodies _ hlocal 1000000
  obtain ⟨h', hserve, htold, hreader⟩ :=
    hfollows (.new reader) (reader.length + 1) rfl rfl ⟨rfl, rfl, List.forall_mem_nil _⟩
      (Nat.lt_succ_self _)
  exact ⟨reader, conn.over h', hwrites, hserve, rfl, rfl, rfl, hreader, htold.responses,
    htold.returned⟩

end Luaml.Service
