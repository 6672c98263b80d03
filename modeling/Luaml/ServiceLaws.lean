import Luaml.CascadeLaws
import Luaml.ParserLaws
import Luaml.Service

namespace Luaml.Service

open Rust Str Res

variable {J W : Type} {serde : Serde J}

def requestOf (serde : Serde J) : Except Str Str → Option (Request J)
  | .ok text => if (trim text).isEmpty then none else (serde.request (trim text)).toOption
  | .error _ => none

def answerOf (serde : Serde J) (item : Except Str Str) : Option (Response J) :=
  match requestOf serde item, item with
  | none, .ok text => if text.isEmpty then none else (serde.response text).toOption
  | _, _ => none

def Formed (serde : Serde J) (item : Except Str Str) : Prop :=
  (requestOf serde item).isSome ∨ (answerOf serde item).isSome

def Safe (serde : Serde J) (item : Except Str Str) : Prop :=
  ∀ request params, requestOf serde item = some request → request.method = "register".toList →
    serde.registerParams request.params = .ok params →
      ∀ field, Parser.Comes params.sourcePath params.text field →
        ∀ value, Pattern.Meets field value → Pattern.Readable value

def Event.read : Event → Option (Except Str Str)
  | .received line => some line
  | .apiCall _ unread => unread.head?
  | _ => none

def reads (events : List Event) : List (Except Str Str) := events.filterMap Event.read

def responses (events : List Event) : List (Response Reply) :=
  events.filterMap fun | .response r => some r | _ => none

def returned (events : List Event) : List (UInt64 × Except ApiError FieldValue) :=
  events.filterMap fun | .returned id result => some (id, result) | _ => none

theorem reads_cons (event : Event) (events : List Event) :
    reads (event :: events) = event.read.toList ++ reads events := by
  cases h : event.read <;> simp [reads, h]

@[simp] theorem reads_append (es es' : List Event) : reads (es ++ es') = reads es ++ reads es' :=
  List.filterMap_append

@[simp] theorem responses_append (es es' : List Event) :
    responses (es ++ es') = responses es ++ responses es' := List.filterMap_append

@[simp] theorem returned_append (es es' : List Event) :
    returned (es ++ es') = returned es ++ returned es' := List.filterMap_append

theorem requestOf_eq_some {text : Str} {request : Request J}
    (h : requestOf serde (.ok text) = some request) :
    (trim text).isEmpty = false ∧ serde.request (trim text) = .ok request := by
  rw [requestOf] at h
  split at h
  · cases h
  · rename_i hne
    refine ⟨by simpa using hne, ?_⟩
    cases hr : serde.request (trim text) with
    | error e => simp [hr, Except.toOption] at h
    | ok r => simpa [hr, Except.toOption] using h

theorem requestOf_eq_none {text : Str} (h : requestOf serde (.ok text) = none) :
    (trim text).isEmpty = true ∨
      (trim text).isEmpty = false ∧ ∃ e, serde.request (trim text) = .error e := by
  rw [requestOf] at h
  split at h
  · exact .inl ‹_›
  · rename_i hne
    cases hr : serde.request (trim text) with
    | error e => exact .inr ⟨by simpa using hne, e, rfl⟩
    | ok r => simp [hr, Except.toOption] at h

theorem answerOf_of_request {item : Except Str Str} {request : Request J}
    (h : requestOf serde item = some request) : answerOf serde item = none := by
  simp [answerOf, h]

theorem answerOf_eq_some {item : Except Str Str} {response : Response J}
    (h : answerOf serde item = some response) :
    ∃ text, item = .ok text ∧ text.isEmpty = false ∧ serde.response text = .ok response := by
  unfold answerOf at h
  split at h
  · split at h
    · cases h
    · rename_i text _ hne
      refine ⟨text, rfl, by simpa using hne, ?_⟩
      cases hresponse : serde.response text with
      | error e => simp [hresponse, Except.toOption] at h
      | ok r => simpa [hresponse, Except.toOption] using h
  · cases h

theorem Formed.text {item : Except Str Str} (h : Formed serde item) :
    ∃ text, item = .ok text ∧ text ≠ [] := by
  cases item with
  | error e => simp [Formed, requestOf, answerOf] at h
  | ok text =>
    refine ⟨text, rfl, ?_⟩
    rintro rfl
    simp [Formed, requestOf, answerOf, trim] at h

theorem Formed.answer {item : Except Str Str} (h : Formed serde item)
    (hother : requestOf serde item = none) : ∃ response, answerOf serde item = some response := by
  simpa [Formed, hother, Option.isSome_iff_exists] using h

def Event.asks (out : List UInt64) : Event → List UInt64
  | .apiCall request _ => request.id :: out
  | _ => out

/-- With the calls of `out` to be answered, the client answers these and the calls to come: every
one once, and nothing else. -/
def ClientAnswers (serde : Serde J) : List UInt64 → List Event → Prop
  | out, [] => out = []
  | out, event :: events =>
    match event.read.bind (answerOf serde) with
    | none => ClientAnswers serde (event.asks out) events
    | some response => response.id ∈ event.asks out ∧
        ClientAnswers serde ((event.asks out).erase response.id) events

def Event.overtaken (serde : Serde J) : Event → Bool
  | .apiCall _ unread => unread.head?.any fun item => (requestOf serde item).isSome
  | _ => false

def AnswersComeNext (serde : Serde J) (events : List Event) : Prop :=
  ∀ event ∈ events, event.overtaken serde = false

instance (events : List Event) : Decidable (AnswersComeNext serde events) :=
  inferInstanceAs (Decidable (∀ event ∈ events, _))

instance ClientAnswers.decidable : (out : List UInt64) → (events : List Event) →
    Decidable (ClientAnswers serde out events)
  | out, [] => inferInstanceAs (Decidable (out = []))
  | out, event :: events =>
    match h : event.read.bind (answerOf serde) with
    | none =>
      have := ClientAnswers.decidable (event.asks out) events
      decidable_of_iff (ClientAnswers serde (event.asks out) events) (by rw [ClientAnswers, h])
    | some response =>
      have := ClientAnswers.decidable ((event.asks out).erase response.id) events
      decidable_of_iff (response.id ∈ event.asks out ∧
        ClientAnswers serde ((event.asks out).erase response.id) events) (by rw [ClientAnswers, h])

def AllAnswered (serde : Serde J) (events : List Event) : Prop :=
  (responses events).map (·.id) = ((reads events).filterMap (requestOf serde)).map (·.id) ∧
    returned events =
      ((reads events).filterMap (answerOf serde)).map fun r => (r.id, r.value serde)

theorem AnswersComeNext.of_subset {es es' : List Event} (hsub : es ⊆ es')
    (h : AnswersComeNext serde es') : AnswersComeNext serde es :=
  fun event hevent => h event (hsub hevent)

theorem AllAnswered.append {es es' : List Event} (h : AllAnswered serde es)
    (h' : AllAnswered serde es') : AllAnswered serde (es ++ es') := by
  simp [AllAnswered, h.1, h'.1, h.2, h'.2]

theorem reads_request (item : Except Str Str) (r : Response Reply) (es es' : List Event) :
    reads (.received item :: (es ++ .response r :: es')) = item :: (reads es ++ reads es') := by
  simp [reads_cons, Event.read]

theorem AllAnswered.request {item : Except Str Str} {request : Request J} {r : Response Reply}
    {es es' : List Event} (hitem : requestOf serde item = some request) (hid : r.id = request.id)
    (hresponses : responses es = []) (h : AllAnswered serde es) (h' : AllAnswered serde es') :
    AllAnswered serde (.received item :: (es ++ .response r :: es')) := by
  have hnone : (reads es).filterMap (requestOf serde) = [] := by
    have hids := h.1
    rwa [hresponses, List.map_nil, eq_comm, List.map_eq_nil_iff] at hids
  have hreturned : returned (.received item :: (es ++ .response r :: es')) =
      returned es ++ returned es' := by
    simp [returned]
  have hresponses' : responses (.received item :: (es ++ .response r :: es')) =
      r :: responses es' := by
    simpa [responses] using hresponses
  rw [AllAnswered, reads_request, hreturned, hresponses']
  simp [hitem, hnone, hid, h'.1, h.2, h'.2, answerOf_of_request hitem]

theorem ClientAnswers.out_eq_nil {out : List UInt64} {events : List Event}
    (h : ClientAnswers serde out events) (hreads : reads events = []) : out = [] := by
  induction events generalizing out with
  | nil => exact h
  | cons event events ih =>
    obtain ⟨hread, hreads⟩ : event.read = none ∧ reads events = [] := by
      cases hread : event.read with
      | none => exact ⟨rfl, by simpa [reads, hread] using hreads⟩
      | some item => simp [reads, hread] at hreads
    simp only [ClientAnswers, hread, Option.bind_none] at h
    have hout := ih h hreads
    cases event with
    | apiCall request unread => simp [Event.asks] at hout
    | _ => exact hout

theorem Formed.not_clientAnswers {item : Except Str Str} (h : Formed serde item)
    (hother : requestOf serde item = none) (events : List Event) :
    ¬ClientAnswers serde [] (.received item :: events) := by
  intro hclient
  obtain ⟨response, hresponse⟩ := h.answer hother
  simp [ClientAnswers, Event.read, Event.asks, hresponse] at hclient

/-- From `h` to `h'` there are only calls.  If their answers come next, and the client answers them
and what comes after, they return its answers and it goes on to answer what comes after. -/
def Talks (serde : Serde J) (h h' : RemoteApiHandler) : Prop :=
  ∃ events, h'.log = h.log ++ events ∧ h.reader = reads events ++ h'.reader ∧
    responses events = [] ∧
    ∀ rest, reads rest <+: h'.reader → (∀ item ∈ reads events, Formed serde item) →
      AnswersComeNext serde events → ClientAnswers serde [] (events ++ rest) →
        AllAnswered serde events ∧ ClientAnswers serde [] rest

theorem Talks.refl (h : RemoteApiHandler) : Talks serde h h :=
  ⟨[], by simp, by simp [reads], rfl, fun _ _ _ _ hclient => ⟨⟨rfl, rfl⟩, hclient⟩⟩

theorem Talks.trans {h h' h'' : RemoteApiHandler} (ht : Talks serde h h')
    (ht' : Talks serde h' h'') : Talks serde h h'' := by
  obtain ⟨events, hlog, hreader, hresponses, hspec⟩ := ht
  obtain ⟨events', hlog', hreader', hresponses', hspec'⟩ := ht'
  refine ⟨events ++ events', by rw [hlog', hlog, List.append_assoc],
    by rw [hreader, hreader', reads_append, List.append_assoc],
    by rw [responses_append, hresponses, hresponses', List.append_nil], ?_⟩
  intro rest hrest hformed hnext hclient
  rw [List.append_assoc] at hclient
  have hreads : reads (events' ++ rest) <+: h'.reader := by
    rw [reads_append, hreader']
    exact (List.prefix_append_right_inj _).mpr hrest
  obtain ⟨hall, hclient'⟩ := hspec (events' ++ rest) hreads
    (fun item hitem => hformed item (by simp [hitem]))
    (hnext.of_subset (List.subset_append_left _ _)) hclient
  obtain ⟨hall', hclient''⟩ := hspec' rest hrest
    (fun item hitem => hformed item (by simp [hitem]))
    (hnext.of_subset (List.subset_append_right _ _)) hclient'
  exact ⟨hall.append hall', hclient''⟩

variable (serde) in
theorem call_eq (h : RemoteApiHandler) (ns method : Str) (args : List FieldValue) :
    (h.call serde ns method args).2.log = h.log ++
        [.apiCall (Request.new "api_call".toList ⟨ns, method, args⟩ h.nextId) h.reader,
          .returned h.nextId (answer serde h.nextId (h.reader.headD (.ok [])))] ∧
      (h.call serde ns method args).2.reader = h.reader.tail := by
  obtain ⟨reader, log, nextId⟩ := h
  cases reader <;> simp [RemoteApiHandler.call, RemoteApiHandler.note, RemoteApiHandler.readLine]

theorem call_talks (h : RemoteApiHandler) (ns method : Str) (args : List FieldValue) :
    Talks serde h (h.call serde ns method args).2 := by
  obtain ⟨hlog, hreader⟩ := call_eq serde h ns method args
  refine ⟨_, hlog, ?_, rfl, ?_⟩
  · cases hr : h.reader <;> simp [reads, Event.read, hreader, hr]
  rw [hreader]
  intro rest hrest hformed hnext hclient
  cases hr : h.reader with
  | nil =>
    -- The stream has ended, so this call stays without an answer.
    rw [hr] at hrest hclient
    have hopen : ClientAnswers serde [h.nextId] rest := hclient
    exact absurd (hopen.out_eq_nil (List.prefix_nil.mp hrest)) (List.cons_ne_nil _ _)
  | cons item reader =>
    simp only [hr, List.headD_cons] at hformed hnext hclient ⊢
    have hrequest : requestOf serde item = none := by
      simpa [Event.overtaken] using hnext _ (List.mem_cons_self ..)
    obtain ⟨response, hresponse⟩ :=
      Formed.answer (hformed item (by simp [reads, Event.read])) hrequest
    simp only [List.cons_append, List.nil_append, ClientAnswers, Event.read, List.head?_cons,
      Option.bind_some, Option.bind_none, hresponse, Event.asks, List.mem_singleton,
      Request.new] at hclient
    obtain ⟨hid, hclient⟩ := hclient
    rw [hid, List.erase_cons_head] at hclient
    refine ⟨⟨by simp [responses, reads, Event.read, hrequest], ?_⟩, hclient⟩
    obtain ⟨text, rfl, hne, htext⟩ := answerOf_eq_some hresponse
    simp [returned, reads, Event.read, hresponse, answer, hne, htext, hid]

theorem run_talks {α : Type} (t : Talk α) (h : RemoteApiHandler) :
    Talks serde h (t.run serde h).2 := by
  induction t generalizing h with
  | done a => exact .refl h
  | call ns method args k ih => exact (call_talks h ns method args).trans (ih _ _)

theorem execute_talks (bodies : Bodies W) (apis : List (ApiBindingEntry Unit))
    (world : W × RemoteApiHandler) (m : ClauseMatch) :
    Talks serde world.2 (execute serde bodies apis world m).1.2 :=
  run_talks (bodies apis world.1 m) world.2

theorem handleDispatch_talks (bodies : Bodies W) (conn : Connection W) (request : Request J) :
    ∃ response conn', handleDispatch serde bodies conn request = .ok (response, conn') ∧
      response.id = request.id ∧ Talks serde conn.handler conn'.handler := by
  unfold handleDispatch
  split
  · exact ⟨_, _, rfl, rfl, .refl _⟩
  · rename_i event _
    obtain ⟨run, hrun, -⟩ := conn.engine.dispatch_spec
      (execute serde bodies conn.apiBindings.entries) (conn.lua, conn.handler) event
    have htalks : Talks serde conn.handler run.world.2 := by
      apply LuamlEngine.dispatch_world (R := fun world world' => Talks serde world.2 world'.2)
        (fun _ => .refl _) _ (execute_talks bodies _) hrun
      intro _ _ _ h h'
      exact h.trans h'
    rw [hrun, ok_bind]
    exact ⟨_, _, rfl, rfl, htalks⟩

theorem handleRegister_talks (conn : Connection W) {item : Except Str Str} {request : Request J}
    (hitem : requestOf serde item = some request) (hmethod : request.method = "register".toList)
    (hsafe : Safe serde item) :
    ∃ response conn', handleRegister serde conn request = .ok (response, conn') ∧
      response.id = request.id ∧ Talks serde conn.handler conn'.handler := by
  unfold handleRegister
  split
  · exact ⟨_, _, rfl, rfl, .refl _⟩
  · rename_i params hparams
    have hreturns : (Parser.parseLuaml ⟨params.sourcePath⟩ params.text).Returns := by
      rw [Parser.returns_parseLuaml]
      intro field hcomes
      rw [Pattern.returns_parsePatternValue]
      exact hsafe request params hitem hmethod hparams field hcomes
    unfold ScriptRegistry.registerText
    cases hparse : Parser.parseLuaml ⟨params.sourcePath⟩ params.text with
    | ok script => exact ⟨_, _, rfl, rfl, .refl _⟩
    | err e => exact ⟨_, _, rfl, rfl, .refl _⟩
    | panic c => exact absurd hparse (hreturns c)

theorem processRequest_talks (bodies : Bodies W) (conn : Connection W) {item : Except Str Str}
    {request : Request J} (hitem : requestOf serde item = some request) (hsafe : Safe serde item) :
    ∃ response conn', processRequest serde bodies conn request = .ok (response, conn') ∧
      response.id = request.id ∧ Talks serde conn.handler conn'.handler := by
  unfold processRequest
  split
  · rename_i hmethod
    exact handleRegister_talks conn hitem hmethod hsafe
  split
  · unfold handleRegisterApi
    split
    · exact ⟨_, _, rfl, rfl, .refl _⟩
    · split <;> exact ⟨_, _, rfl, rfl, .refl _⟩
  split
  · exact handleDispatch_talks bodies conn request
  split
  · refine ⟨_, _, rfl, ?_, .refl _⟩
    unfold handleQuery
    split <;> rfl
  split
  · refine ⟨_, _, rfl, ?_, .refl _⟩
    unfold handleQuerySubset
    split <;> rfl
  · exact ⟨_, _, rfl, rfl, .refl _⟩

theorem serve_other (bodies : Bodies W) (n : Nat) (conn : Connection W) {text : Str}
    {reader : List (Except Str Str)} (hreader : conn.handler.reader = .ok text :: reader)
    (hne : text ≠ []) (hother : requestOf serde (.ok text) = none) :
    ∃ (conn' : Connection W) (es : List Event),
      conn.serve serde bodies (n + 1) = conn'.serve serde bodies n ∧
      conn'.handler.reader = reader ∧ reads es = [] ∧
      conn'.handler.log = conn.handler.log ++ .received (.ok text) :: es := by
  obtain ⟨engine, apiBindings, lua, ⟨unread, log, nextId⟩⟩ := conn
  dsimp only at hreader
  subst hreader
  obtain ⟨c, cs, rfl⟩ := List.exists_cons_of_ne_nil hne
  simp only [Connection.serve, RemoteApiHandler.readLine]
  rcases requestOf_eq_none hother with hblank | ⟨hblank, e, he⟩
  · simp only [hblank, if_true]
    exact ⟨_, [], rfl, rfl, rfl, rfl⟩
  · simp only [hblank, he, Bool.false_eq_true, if_false]
    exact ⟨_, [.response _], rfl, rfl, rfl, List.append_assoc _ _ _⟩

theorem serve_request (bodies : Bodies W) (n : Nat) (conn : Connection W) {text : Str}
    {reader : List (Except Str Str)} {request : Request J}
    (hreader : conn.handler.reader = .ok text :: reader) (hne : text ≠ [])
    (hrequest : requestOf serde (.ok text) = some request) (hsafe : Safe serde (.ok text)) :
    ∃ (r : Response Reply) (conn' : Connection W) (h : RemoteApiHandler),
      conn.serve serde bodies (n + 1) = (conn'.note (.response r)).serve serde bodies n ∧
      r.id = request.id ∧ h.reader = reader ∧
      h.log = conn.handler.log ++ [.received (.ok text)] ∧ Talks serde h conn'.handler := by
  obtain ⟨engine, apiBindings, lua, ⟨unread, log, nextId⟩⟩ := conn
  dsimp only at hreader
  subst hreader
  obtain ⟨c, cs, rfl⟩ := List.exists_cons_of_ne_nil hne
  obtain ⟨hfilled, hparse⟩ := requestOf_eq_some hrequest
  obtain ⟨r, conn', hprocess, hid, htalks⟩ := processRequest_talks bodies
    (Connection.note ⟨engine, apiBindings, lua, ⟨reader, log, nextId⟩⟩ (.received (.ok (c :: cs))))
    hrequest hsafe
  refine ⟨r, conn', _, ?_, hid, rfl, rfl, htalks⟩
  simp only [Connection.serve, RemoteApiHandler.readLine, hfilled, hparse, hprocess, ok_bind,
    Bool.false_eq_true, if_false]

theorem serve_answers (bodies : Bodies W) (n : Nat) (conn : Connection W)
    (hn : conn.handler.reader.length < n)
    (hformed : ∀ item ∈ conn.handler.reader, Formed serde item)
    (hsafe : ∀ item ∈ conn.handler.reader, Safe serde item) :
    ∃ conn' events, conn.serve serde bodies n = .ok conn' ∧
      conn'.handler.log = conn.handler.log ++ events ∧ reads events = conn.handler.reader ∧
      (ClientAnswers serde [] events → AnswersComeNext serde events →
        AllAnswered serde events) := by
  induction n generalizing conn with
  | zero => omega
  | succ n ih =>
    cases hreader : conn.handler.reader with
    | nil =>
      refine ⟨_, [], ?_, (List.append_nil _).symm, rfl, fun _ _ => ⟨rfl, rfl⟩⟩
      simp only [Connection.serve, RemoteApiHandler.readLine, hreader]
    | cons item reader =>
      rw [hreader, List.length_cons] at hn
      rw [hreader, List.forall_mem_cons] at hformed hsafe
      obtain ⟨hitem, hformed⟩ := hformed
      obtain ⟨text, rfl, hne⟩ := hitem.text
      cases hrequest : requestOf serde (.ok text) with
      | some request =>
        obtain ⟨r, conn', h, hserve, hid, rfl, hreceived, es, hlog, hsplit, hresponses, hspec⟩ :=
          serve_request bodies n conn hreader hne hrequest hsafe.1
        have hrest : ∀ item ∈ conn'.handler.reader, item ∈ h.reader := fun item hmem =>
          hsplit ▸ List.mem_append_right _ hmem
        have hshort : conn'.handler.reader.length ≤ h.reader.length := by
          rw [hsplit, List.length_append]
          exact Nat.le_add_left _ _
        obtain ⟨conn'', es', hserve', hlog', hreads', hall'⟩ := ih (conn'.note (.response r))
          (Nat.lt_of_le_of_lt hshort (Nat.lt_of_succ_lt_succ hn))
          (fun item hmem => hformed item (hrest item hmem))
          (fun item hmem => hsafe.2 item (hrest item hmem))
        refine ⟨conn'', .received (.ok text) :: (es ++ .response r :: es'),
          hserve.trans hserve', ?_, ?_, ?_⟩
        · rw [hlog']
          simp [Connection.note, RemoteApiHandler.note, hlog, hreceived]
        · rw [reads_request, hreads']
          exact congrArg _ hsplit.symm
        · intro hclient hnext
          have hopen : ClientAnswers serde [] (es ++ .response r :: es') := by
            simpa [ClientAnswers, Event.read, Event.asks, answerOf_of_request hrequest]
              using hclient
          have hprefix : reads (.response r :: es') <+: conn'.handler.reader := by
            rw [reads_cons, hreads']
            exact List.prefix_refl _
          obtain ⟨hall, hclient'⟩ := hspec _ hprefix
            (fun item hmem => hformed item (hsplit ▸ List.mem_append_left _ hmem))
            (hnext.of_subset fun e he => by simp [he]) hopen
          exact hall.request hrequest hid hresponses
            (hall' hclient' (hnext.of_subset fun e he => by simp [he]))
      | none =>
        obtain ⟨conn', es, hserve, hreader', hnone, hlog⟩ :=
          serve_other bodies n conn hreader hne hrequest
        subst hreader'
        obtain ⟨conn'', es', hserve', hlog', hreads', -⟩ :=
          ih conn' (Nat.lt_of_succ_lt_succ hn) hformed hsafe.2
        refine ⟨conn'', .received (.ok text) :: (es ++ es'), hserve.trans hserve', ?_, ?_,
          fun hclient => absurd hclient (hitem.not_clientAnswers hrequest _)⟩
        · rw [hlog', hlog, List.append_assoc, List.cons_append]
        · rw [reads_cons, reads_append, hnone, hreads']
          rfl

theorem handleStream_answers (serde : Serde J) (bodies : Bodies W) (engine : LuamlEngine) (lua : W)
    (reader : List (Except Str Str)) (hformed : ∀ item ∈ reader, Formed serde item)
    (hsafe : ∀ item ∈ reader, Safe serde item) :
    ∃ conn, handleStream serde bodies engine lua reader = .ok conn ∧
      (ClientAnswers serde [] conn.handler.log → AnswersComeNext serde conn.handler.log →
        (responses conn.handler.log).map (·.id) =
            (reader.filterMap (requestOf serde)).map (·.id) ∧
          returned conn.handler.log =
            (reader.filterMap (answerOf serde)).map fun r => (r.id, r.value serde)) := by
  obtain ⟨conn, events, hconn, hlog, hreads, hall⟩ := serve_answers bodies (reader.length + 1)
    ⟨engine, .empty, lua, .new reader⟩ (Nat.lt_succ_self _) hformed hsafe
  refine ⟨conn, hconn, fun hclient hnext => ?_⟩
  obtain rfl : conn.handler.log = events := hlog
  have h := hall hclient hnext
  rw [AllAnswered, hreads] at h
  exact h

def object (fields : List (String × Str)) : Str :=
  '{' :: join [','] (fields.map fun (key, json) => '"' :: key.toList ++ '"' :: ':' :: json) ++ ['}']

def registerJson : Str :=
  object [("source_path", "\"a.luaml\"".toList),
    ("text", "\"---\\n---\\nclient.save()\\n\"".toList)]

def registerApiJson : Str := object [("namespace", "\"client\"".toList)]

def dispatchJson : Str := object [("event", object [])]

def sessionRequests : List (Request Str) :=
  [.new "register".toList registerJson 1, .new "register_api".toList registerApiJson 2,
    .new "dispatch".toList dispatchJson 3, .new "query".toList dispatchJson 4]

def requestText (r : Request Str) : Str :=
  object [("jsonrpc", "\"2.0\"".toList), ("method", '"' :: r.method ++ ['"']), ("params", r.params),
    ("id", (Nat.repr r.id.toNat).toList)]

def answerText : Str :=
  object [("jsonrpc", "\"2.0\"".toList), ("result", "\"Null\"".toList), ("id", "1000000".toList)]

def ifJson {α : Type} (expected : Str) (value : α) (json : Str) : Except Str α :=
  if json = expected then .ok value else .error "invalid value".toList

/-- The JSON library on the lines of the session: a request is a response without a result, since
the fields that a response lacks are ignored. -/
def sessionSerde : Serde Str where
  request text :=
    match sessionRequests.find? fun r => requestText r = text with
    | some r => .ok r
    | none => .error "missing field `method`".toList
  response text :=
    match sessionRequests.find? fun r => requestText r ++ ['\n'] = text with
    | some r => .ok ⟨r.jsonrpc, none, none, r.id⟩
    | none => ifJson (answerText ++ ['\n']) (.ok 1000000 "\"Null\"".toList) text
  registerParams := ifJson registerJson ⟨"a.luaml".toList, "---\n---\nclient.save()\n".toList⟩
  registerApiParams := ifJson registerApiJson ⟨"client".toList, []⟩
  dispatchParams := ifJson dispatchJson ⟨[]⟩
  fieldValue := ifJson "\"Null\"".toList .null
  display _ := []

def sessionBodies : Bodies Unit := fun apis _ _ =>
  if apis.isEmpty then .done ((), .error "attempt to index a nil value".toList)
  else .call "client".toList "save".toList [] fun _ => .done ((), .ok [])

def newEngine : LuamlEngine := ⟨.empty, [], .default, .zero⟩

def sessionLine (i : Fin 4) : Except Str Str := .ok (requestText sessionRequests[i] ++ ['\n'])

def answerLine : Except Str Str := .ok (answerText ++ ['\n'])

def inTurn : List (Except Str Str) :=
  [sessionLine 0, sessionLine 1, sessionLine 2, answerLine, sessionLine 3]

def pipelined : List (Except Str Str) :=
  [sessionLine 0, sessionLine 1, sessionLine 2, sessionLine 3, answerLine]

instance (item : Except Str Str) : Decidable (Formed serde item) :=
  inferInstanceAs (Decidable (_ ∨ _))

theorem session_safe (item : Except Str Str) : Safe sessionSerde item := by
  intro request params _ _ hparams field hcomes
  have htext : params = ⟨"a.luaml".toList, "---\n---\nclient.save()\n".toList⟩ := by
    simp only [sessionSerde, ifJson] at hparams
    split at hparams
    · exact (Except.ok.inj hparams).symm
    · cases hparams
  subst htext
  have hreturns : (Parser.parseLuaml ⟨"a.luaml".toList⟩
      "---\n---\nclient.save()\n".toList).Returns := by
    have h : Parser.parseLuaml ⟨"a.luaml".toList⟩ "---\n---\nclient.save()\n".toList =
      .ok ⟨⟨"a.luaml".toList⟩, none, [⟨⟨[]⟩, none, ⟨"client.save()".toList⟩, [], []⟩]⟩ := rfl
    rw [h]
    exact returns_ok _
  rw [← Pattern.returns_parsePatternValue]
  exact (Parser.returns_parseLuaml _ _).mp hreturns field hcomes

theorem inTurn_answered :
    ∃ conn, handleStream sessionSerde sessionBodies newEngine () inTurn = .ok conn ∧
      (responses conn.handler.log).map (·.id) = [1, 2, 3, 4] ∧
      returned conn.handler.log = [(1000000, .ok .null)] := by
  obtain ⟨conn, hconn, hanswers⟩ := handleStream_answers sessionSerde sessionBodies newEngine ()
    inTurn (by decide +kernel) fun item _ => session_safe item
  have hsession : (handleStream sessionSerde sessionBodies newEngine () inTurn).toOption.map
      (fun conn => decide (ClientAnswers sessionSerde [] conn.handler.log ∧
        AnswersComeNext sessionSerde conn.handler.log)) = some true := by decide +kernel
  rw [hconn] at hsession
  obtain ⟨hclient, hnext⟩ := of_decide_eq_true (Option.some.inj hsession)
  obtain ⟨hids, hreturned⟩ := hanswers hclient hnext
  refine ⟨conn, hconn, hids.trans (by decide +kernel), hreturned.trans (by decide +kernel)⟩

/-- The dispatch takes the pipelined request for the answer to its call, and the answer is taken
for a request. -/
theorem pipelined_request_lost :
    ¬∀ (serde : Serde Str) (bodies : Bodies Unit) (engine : LuamlEngine)
      (reader : List (Except Str Str)), (∀ item ∈ reader, Formed serde item) →
      ∃ conn, handleStream serde bodies engine () reader = .ok conn ∧
        (ClientAnswers serde [] conn.handler.log →
          (responses conn.handler.log).map (·.id) =
              (reader.filterMap (requestOf serde)).map (·.id) ∧
            returned conn.handler.log =
              (reader.filterMap (answerOf serde)).map fun r => (r.id, r.value serde)) := by
  intro h
  obtain ⟨conn, hconn, hanswers⟩ := h sessionSerde sessionBodies newEngine pipelined
    (by decide +kernel)
  have hsession : (handleStream sessionSerde sessionBodies newEngine () pipelined).toOption.map
      (fun conn => decide (ClientAnswers sessionSerde [] conn.handler.log ∧
        (responses conn.handler.log).map (·.id) = [1, 2, 3, 0])) = some true := by decide +kernel
  rw [hconn] at hsession
  obtain ⟨hclient, hids⟩ := of_decide_eq_true (Option.some.inj hsession)
  have hall := hids.symm.trans (hanswers hclient).1
  exact absurd hall (by decide +kernel)

end Luaml.Service
