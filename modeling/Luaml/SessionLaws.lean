import Luaml.Sessions

namespace Luaml.Service

open Rust Str Res

variable {J W : Type} {serde : Serde J}

def idsFrom (id : UInt64) (n : Nat) : List UInt64 :=
  (List.range n).map fun k => id + UInt64.ofNat k

theorem idsFrom_add (id : UInt64) (n m : Nat) :
    idsFrom id (n + m) = idsFrom id n ++ idsFrom (id + UInt64.ofNat n) m := by
  rw [idsFrom, List.range_add, List.map_append, List.map_map, idsFrom, idsFrom]
  congr 1
  refine List.map_congr_left fun k _ => ?_
  rw [Function.comp_apply, UInt64.ofNat_add, UInt64.add_assoc]

theorem idsFrom_succ (id : UInt64) (n : Nat) : idsFrom id (n + 1) = id :: idsFrom (id + 1) n := by
  rw [Nat.add_comm, idsFrom_add]
  simp [idsFrom]

theorem toNat_of_mem_idsFrom {id i : UInt64} {n : Nat} (hn : id.toNat + n ≤ 2 ^ 64)
    (hi : i ∈ idsFrom id n) : ∃ k < n, i.toNat = id.toNat + k := by
  obtain ⟨k, hk, rfl⟩ := List.mem_map.mp hi
  rw [List.mem_range] at hk
  refine ⟨k, hk, ?_⟩
  rw [UInt64.toNat_add, UInt64.toNat_ofNat', Nat.mod_eq_of_lt (a := k) (by omega),
    Nat.mod_eq_of_lt (by omega)]

theorem idsFrom_nodup {id : UInt64} {n : Nat} (hn : id.toNat + n ≤ 2 ^ 64) :
    (idsFrom id n).Nodup := by
  induction n generalizing id with
  | zero => exact List.nodup_nil
  | succ n ih =>
    rw [idsFrom_succ, List.nodup_cons]
    by_cases hzero : n = 0
    · subst hzero
      simp [idsFrom]
    · have hnext : (id + 1).toNat = id.toNat + 1 := by
        rw [UInt64.toNat_add, UInt64.toNat_one, Nat.mod_eq_of_lt (by omega)]
      have hle : (id + 1).toNat + n ≤ 2 ^ 64 := by omega
      refine ⟨fun hmem => ?_, ih hle⟩
      obtain ⟨k, -, hk⟩ := toNat_of_mem_idsFrom hle hmem
      omega

def Event.asked : Event → Option (UInt64 × Except Str Str)
  | .apiCall request unread => some (request.id, unread.headD (.ok []))
  | _ => none

def asked (events : List Event) : List (UInt64 × Except Str Str) := events.filterMap Event.asked

structure Handled (serde : Serde J) (s : Stream) (events : List Event) (s' : Stream) : Prop where
  ids : (asked events).map Prod.fst = idsFrom s.nextId (asked events).length
  nextId : s'.nextId = s.nextId + UInt64.ofNat (asked events).length
  returned : returned events = (asked events).map fun (id, line) => (id, answer serde id line)
  reads : reads events <+: s.unread

@[simp] theorem asked_append (es es' : List Event) : asked (es ++ es') = asked es ++ asked es' :=
  List.filterMap_append

theorem Handled.of_received {id : UInt64} {line : Except Str Str} {unread : List (Except Str Str)}
    {events : List Event} {s' : Stream} (h : Handled serde ⟨id, unread⟩ events s') :
    Handled serde ⟨id, line :: unread⟩ (.received line :: events) s' where
  ids := h.ids
  nextId := h.nextId
  returned := h.returned
  reads := by
    rw [reads_cons]
    exact List.cons_prefix_cons.mpr ⟨rfl, h.reads⟩

theorem Handled.of_response {s s' : Stream} {r : Response Reply} {events : List Event}
    (h : Handled serde s events s') : Handled serde s (.response r :: events) s' :=
  ⟨h.ids, h.nextId, h.returned, h.reads⟩

theorem Calls.handled {s s' : Stream} {calls events : List Event} {s'' : Stream}
    (h : Calls serde s calls s') (hrest : Handled serde s' events s'') :
    Handled serde s (calls ++ events) s'' := by
  induction h with
  | none => exact hrest
  | @call s s' calls ns method args _ ih =>
    have hnext := ih hrest
    refine ⟨?_, ?_, ?_, ?_⟩
    · simp only [List.cons_append, asked, List.filterMap_cons, Event.asked, Request.new,
        List.map_cons, List.length_cons, idsFrom_succ]
      exact congrArg _ hnext.ids
    · refine hnext.nextId.trans ?_
      simp only [List.cons_append, asked, List.filterMap_cons, Event.asked, List.length_cons]
      rw [UInt64.add_assoc, Nat.add_comm (List.length _), UInt64.ofNat_add]
      rfl
    · have heq := hnext.returned
      simp only [asked, returned, List.cons_append, List.filterMap_cons, Event.asked, Request.new,
        List.map_cons] at heq ⊢
      rw [heq]
    · have hreads := hnext.reads
      simp only [List.cons_append, reads_cons, Event.read]
      obtain ⟨nextId, unread⟩ := s
      cases unread with
      | nil => simpa using hreads
      | cons line unread => simpa using hreads

theorem Session.handled {t t' : Offer × Stream} {events : List Event}
    (h : Session serde t events t') : Handled serde t.2 events t'.2 := by
  induction h with
  | ended hunread => exact ⟨rfl, by simp [asked], rfl, List.nil_prefix⟩
  | failed => exact .of_received ⟨rfl, by simp [asked], rfl, List.nil_prefix⟩
  | blank hblank _ ih => exact ih.of_received
  | invalid hinvalid _ ih => exact ih.of_response.of_received
  | @exchange o id text unread request calls events r s t _ hexchange _ ih =>
    have hrest : Handled serde s.2 (.response r :: events) t.2 := ih.of_response
    refine .of_received ?_
    cases hexchange with
    | dispatch hmethod hevent hcalls ms => exact hcalls.handled hrest
    | register hscript => exact hrest
    | registerApi hspec => exact hrest
    | query hmethod hevent => exact hrest
    | querySubset hmethod hevent => exact hrest
    | refused hscript hspec hevent code message => exact hrest

/-- The calls of a session have the ids from 1000000 on, in order, each returns what it makes of the
line that is next, and no line is read twice.  As long as the ids do not start again, each is used
once, and is none of the smaller ids that requests may have. -/
theorem handleStream_calls (serde : Serde J) (bodies : Bodies W) (engine : LuamlEngine) (lua : W)
    (reader : List (Except Str Str)) (conn : Connection W)
    (h : handleStream serde bodies engine lua reader = .ok conn) :
    (asked conn.handler.log).map Prod.fst = idsFrom 1000000 (asked conn.handler.log).length ∧
      returned conn.handler.log =
        ((asked conn.handler.log).map fun (id, line) => (id, answer serde id line)) ∧
      reads conn.handler.log <+: reader ∧
      ((asked conn.handler.log).length ≤ 2 ^ 64 - 1000000 →
        ((asked conn.handler.log).map Prod.fst).Nodup ∧
          ∀ call ∈ asked conn.handler.log, 1000000 ≤ call.1.toNat) := by
  obtain ⟨events, hlog, hsession⟩ := serve_session bodies _ h
  obtain rfl : conn.handler.log = events := hlog
  have hhandled := hsession.handled
  refine ⟨hhandled.ids, hhandled.returned, hhandled.reads, fun hfew => ?_⟩
  have hle : (1000000 : UInt64).toNat + (asked conn.handler.log).length ≤ 2 ^ 64 := by
    have hstart : (1000000 : UInt64).toNat = 1000000 := rfl
    omega
  have hids := hhandled.ids
  refine ⟨by rw [hids]; exact idsFrom_nodup hle, fun call hcall => ?_⟩
  have hmem := List.mem_map_of_mem (f := Prod.fst) hcall
  rw [hids] at hmem
  obtain ⟨k, -, hk⟩ := toNat_of_mem_idsFrom hle hmem
  rw [hk]
  exact Nat.le_add_right _ _

theorem inTurn_calls :
    ∃ conn, handleStream sessionSerde sessionBodies newEngine () inTurn = .ok conn ∧
      (asked conn.handler.log).map Prod.fst = [1000000] ∧
      ((asked conn.handler.log).map Prod.fst).Nodup := by
  have hids : (handleStream sessionSerde sessionBodies newEngine () inTurn).toOption.map
      (fun conn => (asked conn.handler.log).map Prod.fst) = some [1000000] := by decide +kernel
  obtain ⟨conn, hok, hcalls⟩ := Option.map_eq_some_iff.mp hids
  have hconn := Res.toOption_eq_some.mp hok
  obtain ⟨-, -, -, hfew⟩ := handleStream_calls _ _ _ _ _ conn hconn
  have hlength := congrArg List.length hcalls
  rw [List.length_map, List.length_singleton] at hlength
  exact ⟨conn, hconn, hcalls, (hfew (by rw [hlength]; decide)).1⟩

def Event.request (serde : Serde J) : Event → Option (Request J)
  | .received line => requestOf serde line
  | _ => none

def requestsIn (serde : Serde J) (events : List Event) : List (Request J) :=
  events.filterMap (Event.request serde)

def Offer.after (serde : Serde J) (o : Offer) (requests : List (Request J)) : Offer where
  registry := ⟨o.registry.scripts ++ requests.filterMap (scriptOf serde)⟩
  apiBindings := (requests.filterMap (specOf serde)).foldl
    (fun apis spec => (apis.registerApi spec).2) o.apiBindings

theorem Offer.after_nil (o : Offer) : o.after serde [] = o := by
  simp [Offer.after]

theorem Offer.after_append (o : Offer) (requests requests' : List (Request J)) :
    o.after serde (requests ++ requests') = (o.after serde requests).after serde requests' := by
  simp [Offer.after]

@[simp] theorem requestsIn_append (es es' : List Event) :
    requestsIn serde (es ++ es') = requestsIn serde es ++ requestsIn serde es' :=
  List.filterMap_append

@[simp] theorem requestsIn_received (line : Except Str Str) (events : List Event) :
    requestsIn serde (.received line :: events) =
      (requestOf serde line).toList ++ requestsIn serde events := by
  cases h : requestOf serde line <;> simp [requestsIn, Event.request, h]

@[simp] theorem requestsIn_response (r : Response Reply) (events : List Event) :
    requestsIn serde (.response r :: events) = requestsIn serde events := rfl

theorem Calls.requestsIn {s s' : Stream} {calls : List Event} (h : Calls serde s calls s') :
    requestsIn serde calls = [] := by
  induction h with
  | none => rfl
  | call ns method args _ ih => exact ih

theorem Exchange.after {t t' : Offer × Stream} {request : Request J} {calls : List Event}
    {r : Response Reply} (h : Exchange serde t request calls r t') :
    t'.1 = t.1.after serde [request] ∧ requestsIn serde calls = [] := by
  have hother (o : Offer) (hscript : scriptOf serde request = none)
      (hspec : specOf serde request = none) : o = o.after serde [request] := by
    simp [Offer.after, hscript, hspec]
  have hasks (o : Offer) {method : Str} (hmethod : request.method = method)
      (hscript : method ≠ "register".toList) (hspec : method ≠ "register_api".toList) :
      o = o.after serde [request] :=
    hother o (scriptOf_of_ne (by rwa [hmethod])) (specOf_of_ne (by rwa [hmethod]))
  cases h with
  | register hscript =>
    have hspec : specOf serde request = none := by
      refine specOf_of_ne fun hmethod => ?_
      rw [scriptOf_of_ne (by rw [hmethod]; decide)] at hscript
      cases hscript
    exact ⟨by simp [Offer.after, hscript, hspec], rfl⟩
  | registerApi hspec =>
    have hscript : scriptOf serde request = none := by
      refine scriptOf_of_ne fun hmethod => ?_
      rw [specOf_of_ne (by rw [hmethod]; decide)] at hspec
      cases hspec
    exact ⟨by simp [Offer.after, hscript, hspec], rfl⟩
  | dispatch hmethod hevent hcalls ms =>
    exact ⟨hasks _ hmethod (by decide) (by decide), hcalls.requestsIn⟩
  | query hmethod hevent => exact ⟨hasks _ hmethod (by decide) (by decide), rfl⟩
  | querySubset hmethod hevent => exact ⟨hasks _ hmethod (by decide) (by decide), rfl⟩
  | refused hscript hspec hevent code message => exact ⟨hother _ hscript hspec, rfl⟩

theorem Session.after {t t' : Offer × Stream} {events : List Event}
    (h : Session serde t events t') : t'.1 = t.1.after serde (requestsIn serde events) := by
  induction h with
  | ended hunread => exact (Offer.after_nil _).symm
  | failed => exact (Offer.after_nil _).symm
  | blank hblank _ ih =>
    rw [ih]
    simp [requestOf, hblank]
  | @invalid _ _ text _ _ _ _ hinvalid _ ih =>
    have hnone : requestOf serde (.ok text) = none := by simp [requestOf, hinvalid, Except.toOption]
    rw [ih, requestsIn_received, requestsIn_response, hnone]
    rfl
  | exchange hrequest hexchange _ ih =>
    obtain ⟨hmid, hcalls⟩ := hexchange.after
    rw [ih, hmid, ← Offer.after_append, requestsIn_received, requestsIn_append, hcalls,
      requestsIn_response, hrequest]
    rfl

theorem Calls.not_received {s s' : Stream} {calls : List Event} (h : Calls serde s calls s')
    (line : Except Str Str) : .received line ∉ calls := by
  induction h with
  | none => exact List.not_mem_nil
  | call ns method args _ ih => simpa using ih

theorem Exchange.not_received {t t' : Offer × Stream} {request : Request J} {calls : List Event}
    {r : Response Reply} (h : Exchange serde t request calls r t') (line : Except Str Str) :
    .received line ∉ calls := by
  cases h with
  | dispatch hmethod hevent hcalls ms => exact hcalls.not_received line
  | register hscript => exact List.not_mem_nil
  | registerApi hspec => exact List.not_mem_nil
  | query hmethod hevent => exact List.not_mem_nil
  | querySubset hmethod hevent => exact List.not_mem_nil
  | refused hscript hspec hevent code message => exact List.not_mem_nil

theorem Session.split {t t' : Offer × Stream} {events : List Event} (h : Session serde t events t')
    {pre post : List Event} {line : Except Str Str}
    (hevents : events = pre ++ .received line :: post) :
    ∃ s, s.1 = t.1.after serde (requestsIn serde pre) ∧
      Session serde s (.received line :: post) t' := by
  -- Either the session starts with the line, or the line comes after the first exchange.
  induction h generalizing pre with
  | ended hunread => simp at hevents
  | @failed o id e unread =>
    rcases List.cons_eq_append_iff.mp hevents with ⟨rfl, heq⟩ | ⟨pre, rfl, hrest⟩
    · exact ⟨_, (Offer.after_nil _).symm, heq ▸ .failed⟩
    · simp at hrest
  | @blank o id text unread events t hblank rest ih =>
    rcases List.cons_eq_append_iff.mp hevents with ⟨rfl, heq⟩ | ⟨pre, rfl, hrest⟩
    · exact ⟨_, (Offer.after_nil _).symm, heq ▸ .blank hblank rest⟩
    · obtain ⟨s, hs, hsession⟩ := ih hrest
      refine ⟨s, hs.trans ?_, hsession⟩
      simp [requestOf, hblank]
  | @invalid o id text e unread events t hinvalid rest ih =>
    rcases List.cons_eq_append_iff.mp hevents with ⟨rfl, heq⟩ | ⟨pre, rfl, hrest⟩
    · exact ⟨_, (Offer.after_nil _).symm, heq ▸ .invalid hinvalid rest⟩
    · rcases List.cons_eq_append_iff.mp hrest with ⟨rfl, heq⟩ | ⟨pre', rfl, hrest'⟩
      · cases heq
      · obtain ⟨s, hs, hsession⟩ := ih hrest'
        have hnone : requestOf serde (.ok text) = none := by
          simp [requestOf, hinvalid, Except.toOption]
        refine ⟨s, hs.trans ?_, hsession⟩
        rw [requestsIn_received, requestsIn_response, hnone]
        rfl
  | @exchange o id text unread request calls events r s t hrequest hexchange rest ih =>
    rcases List.cons_eq_append_iff.mp hevents with ⟨rfl, heq⟩ | ⟨pre, rfl, hrest⟩
    · exact ⟨_, (Offer.after_nil _).symm, heq ▸ .exchange hrequest hexchange rest⟩
    · obtain ⟨hmid, hcalls⟩ := hexchange.after
      rcases List.append_eq_append_iff.mp hrest with ⟨after, rfl, hafter⟩ | ⟨before, rfl, hbefore⟩
      · rcases List.cons_eq_append_iff.mp hafter with ⟨rfl, heq⟩ | ⟨after', rfl, hrest'⟩
        · cases heq
        · obtain ⟨s', hs', hsession⟩ := ih hrest'
          refine ⟨s', hs'.trans ?_, hsession⟩
          rw [hmid, ← Offer.after_append, requestsIn_received, requestsIn_append, hcalls,
            requestsIn_response, hrequest]
          rfl
      · rcases List.cons_eq_append_iff.mp hbefore with ⟨rfl, heq⟩ | ⟨before', rfl, hrest'⟩
        · cases heq
        · exact absurd (by simp) (hexchange.not_received line)

theorem Session.query {t t' : Offer × Stream} {text : Str} {request : Request J}
    {r : Response Reply} {post : List Event} {event : FieldMap}
    (h : Session serde t (.received (.ok text) :: .response r :: post) t')
    (hrequest : requestOf serde (.ok text) = some request)
    (hevent : eventOf serde request = some event) :
    (request.method = "query".toList → r = .ok request.id (queryReply t.1.registry event)) ∧
      (request.method = "query_subset".toList →
        r = .ok request.id (subsetReply t.1.registry event)) := by
  generalize hevents : Event.received (.ok text) :: .response r :: post = events at h
  cases h with
  | ended hunread => cases hevents
  | failed => cases hevents
  | @blank o id text' unread events t hblank rest =>
    cases hevents
    simp [requestOf, hblank] at hrequest
  | @invalid o id text' e unread events t hinvalid rest =>
    cases hevents
    simp [requestOf, hinvalid, Except.toOption] at hrequest
  | @exchange o id text' unread request' calls events r' s t hrequest' hexchange rest =>
    obtain ⟨hline, hrest⟩ := List.cons.inj hevents
    obtain rfl := Except.ok.inj (Event.received.inj hline)
    obtain rfl := Option.some.inj (hrequest.symm.trans hrequest')
    cases hexchange with
    | register hscript =>
      have hmethod : request.method = "register".toList := by
        by_contra hne
        rw [scriptOf_of_ne hne] at hscript
        cases hscript
      rw [eventOf_of_notMem (by rw [hmethod]; decide)] at hevent
      cases hevent
    | registerApi hspec =>
      have hmethod : request.method = "register_api".toList := by
        by_contra hne
        rw [specOf_of_ne hne] at hspec
        cases hspec
      rw [eventOf_of_notMem (by rw [hmethod]; decide)] at hevent
      cases hevent
    | dispatch hmethod _ _ _ =>
      refine ⟨fun hquery => ?_, fun hquery => ?_⟩ <;>
      · rw [hmethod] at hquery
        exact absurd hquery (by decide)
    | query hmethod hevent' =>
      obtain rfl := Option.some.inj (hevent.symm.trans hevent')
      refine ⟨fun _ => ?_, fun hsubset => ?_⟩
      · exact Event.response.inj (List.cons.inj hrest).1
      · rw [hmethod] at hsubset
        exact absurd hsubset (by decide)
    | querySubset hmethod hevent' =>
      obtain rfl := Option.some.inj (hevent.symm.trans hevent')
      refine ⟨fun hquery => ?_, fun _ => ?_⟩
      · rw [hmethod] at hquery
        exact absurd hquery (by decide)
      · exact Event.response.inj (List.cons.inj hrest).1
    | refused _ _ hnone _ _ =>
      rw [hnone] at hevent
      cases hevent

theorem registerApis_entries (specs : List (ApiBindingSpec Unit)) (apis : ApiBindings Unit) :
    (specs.foldl (fun apis spec => (apis.registerApi spec).2) apis).entries =
      apis.entries ++ (specs.zipIdx apis.nextId).map fun (spec, id) => ⟨id, spec⟩ := by
  induction specs generalizing apis with
  | nil => simp
  | cons spec specs ih =>
    rw [List.foldl_cons, ih]
    simp [ApiBindings.registerApi]

/-- Whatever the scripts do and whatever the client answers to their calls: after a session there is
registered what its requests have registered, in their order. -/
theorem handleStream_registers (serde : Serde J) (bodies : Bodies W) (engine : LuamlEngine)
    (lua : W) (reader : List (Except Str Str)) (conn : Connection W)
    (h : handleStream serde bodies engine lua reader = .ok conn) :
    conn.engine.registry.scripts = engine.registry.scripts ++
        (requestsIn serde conn.handler.log).filterMap (scriptOf serde) ∧
      conn.apiBindings.entries = ((requestsIn serde conn.handler.log).filterMap
        (specOf serde)).zipIdx.map fun (spec, id) => ⟨id, spec⟩ := by
  obtain ⟨events, hlog, hsession⟩ := serve_session bodies _ h
  obtain rfl : conn.handler.log = events := hlog
  have hafter := hsession.after
  constructor
  · exact congrArg (fun o => o.registry.scripts) hafter
  · refine (congrArg (fun o => o.apiBindings.entries) hafter).trans ?_
    exact registerApis_entries _ _

theorem inTurn_registers :
    ∃ conn, handleStream sessionSerde sessionBodies newEngine () inTurn = .ok conn ∧
      conn.engine.registry.scripts.map (·.sourcePath.text) = ["a.luaml".toList] ∧
      conn.apiBindings.entries.map (·.spec.ns) = ["client".toList] := by
  have hlog : (handleStream sessionSerde sessionBodies newEngine () inTurn).toOption.map
      (fun conn => decide
        (((requestsIn sessionSerde conn.handler.log).filterMap (scriptOf sessionSerde)).map
            (·.sourcePath.text) = ["a.luaml".toList] ∧
          ((requestsIn sessionSerde conn.handler.log).filterMap (specOf sessionSerde)).map
            (·.ns) = ["client".toList])) = some true := by decide +kernel
  obtain ⟨conn, hok, hdecide⟩ := Option.map_eq_some_iff.mp hlog
  obtain ⟨hscripts, hspecs⟩ := of_decide_eq_true hdecide
  have hconn := Res.toOption_eq_some.mp hok
  obtain ⟨hregistered, hbound⟩ := handleStream_registers _ _ _ _ _ conn hconn
  refine ⟨conn, hconn, ?_, ?_⟩
  · rw [hregistered]
    exact hscripts
  · rw [hbound, ← hspecs, List.map_map]
    conv_rhs => rw [← List.zipIdx_map_fst 0 (List.filterMap _ _), List.map_map]
    rfl

/-- A query is answered with what its event matches of the scripts that the requests before it have
registered. -/
theorem handleStream_queries (serde : Serde J) (bodies : Bodies W) (engine : LuamlEngine) (lua : W)
    (reader : List (Except Str Str)) (conn : Connection W)
    (h : handleStream serde bodies engine lua reader = .ok conn) (pre post : List Event)
    (text : Str) (request : Request J) (event : FieldMap) (r : Response Reply)
    (hlog : conn.handler.log = pre ++ .received (.ok text) :: .response r :: post)
    (hrequest : requestOf serde (.ok text) = some request)
    (hevent : eventOf serde request = some event) :
    let reg : ScriptRegistry :=
      ⟨engine.registry.scripts ++ (requestsIn serde pre).filterMap (scriptOf serde)⟩
    (request.method = "query".toList → r = .ok request.id (queryReply reg event)) ∧
      (request.method = "query_subset".toList → r = .ok request.id (subsetReply reg event)) := by
  obtain ⟨events, hevents, hsession⟩ := serve_session bodies _ h
  obtain rfl : conn.handler.log = events := hevents
  obtain ⟨s, hs, hrest⟩ := hsession.split hlog
  have hquery := hrest.query hrequest hevent
  rw [hs] at hquery
  exact hquery

def lineOf : Event → Option (Except Str Str) × Bool
  | .received line => (some line, false)
  | .response _ => (none, true)
  | .apiCall _ _ => (none, false)
  | .returned _ _ => (none, false)

theorem of_lineOf {log : List Event} {line : Except Str Str}
    (h : log.map lineOf = [(some line, false), (none, true)]) :
    ∃ r, log = [.received line, .response r] := by
  obtain ⟨first, rest, rfl, hfirst, hrest⟩ := List.map_eq_cons_iff.mp h
  obtain ⟨second, rest, rfl, hsecond, hrest⟩ := List.map_eq_cons_iff.mp hrest
  obtain rfl := List.map_eq_nil_iff.mp hrest
  cases first <;> cases hfirst
  cases second <;> cases hsecond
  exact ⟨_, rfl⟩

theorem inTurn_queries :
    ∃ conn pre r, handleStream sessionSerde sessionBodies newEngine () inTurn = .ok conn ∧
      conn.handler.log = pre ++ [.received (sessionLine 3), .response r] ∧
      r = .ok 4 (queryReply
        ⟨(requestsIn sessionSerde pre).filterMap (scriptOf sessionSerde)⟩ []) := by
  have hlog : (handleStream sessionSerde sessionBodies newEngine () inTurn).toOption.map
      (fun conn => (conn.handler.log.drop 8).map lineOf) =
        some [(some (sessionLine 3), false), (none, true)] := by decide +kernel
  obtain ⟨conn, hok, hlast⟩ := Option.map_eq_some_iff.mp hlog
  have hconn := Res.toOption_eq_some.mp hok
  obtain ⟨r, hdrop⟩ := of_lineOf hlast
  have hsplit : conn.handler.log =
      conn.handler.log.take 8 ++ [.received (sessionLine 3), .response r] := by
    rw [← hdrop, List.take_append_drop]
  have hquery := handleStream_queries _ _ _ _ _ conn hconn _ _ _
    (.new "query".toList dispatchJson 4) [] r hsplit rfl rfl
  exact ⟨conn, _, r, hconn, hsplit, hquery.1 rfl⟩

end Luaml.Service
