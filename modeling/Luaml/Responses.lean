import Luaml.Protocol
import Luaml.Sessions

namespace Luaml

open Rust Res Serde

namespace Service

def Response.document (r : Response Reply) : JsonValue :=
  Response.write ⟨r.jsonrpc, r.result.map Reply.toJson, r.error, r.id⟩

theorem DispatchMatch.toJson_ascends (m : DispatchMatch) : m.toJson.Ascends := by
  have hbindings := JsonValue.everyMember_iff.mp (FieldValue.toJsonEntries_ascend m.bindings)
  apply JsonValue.object_ascends
  simp only [List.forall_mem_cons]
  exact ⟨trivial, JsonValue.object_ascends hbindings, List.forall_mem_nil _⟩

theorem annotationsToJson_ascends (annotations : Annotations) :
    (annotationsToJson annotations).Ascends := by
  apply JsonValue.array_ascends
  intro item hitem
  obtain ⟨⟨key, value⟩, -, rfl⟩ := List.mem_map.mp hitem
  exact ⟨trivial, trivial, trivial, trivial⟩

theorem SubsetQueryMatch.toJson_ascends (m : SubsetQueryMatch) : m.toJson.Ascends := by
  apply JsonValue.object_ascends
  simp only [List.forall_mem_cons]
  refine ⟨trivial, trivial, annotationsToJson_ascends m.annotations, ?_, List.forall_mem_nil _⟩
  apply JsonValue.object_ascends
  intro member hmember
  obtain ⟨⟨field, annotations⟩, -, rfl⟩ := List.mem_map.mp hmember
  exact annotationsToJson_ascends annotations

theorem Reply.toJson_ascends (reply : Reply) : reply.toJson.Ascends := by
  cases reply with
  | done => exact ⟨List.pairwise_singleton _ _, trivial, trivial⟩
  | dispatch ms =>
    refine ⟨List.pairwise_singleton _ _, JsonValue.array_ascends fun item hitem => ?_, trivial⟩
    obtain ⟨m, -, rfl⟩ := List.mem_map.mp hitem
    exact m.toJson_ascends
  | subset ms =>
    refine ⟨List.pairwise_singleton _ _, JsonValue.array_ascends fun item hitem => ?_, trivial⟩
    obtain ⟨m, -, rfl⟩ := List.mem_map.mp hitem
    exact m.toJson_ascends

def readBindings : JsonValue → Option FieldBindings
  | .object members => (FieldValue.fromJsonMembers members).map (Map.extend [])
  | _ => none

def DispatchMatch.read (d : JsonValue) : Option DispatchMatch := do
  let parts ← Parts.ofStruct 2 d
  let scriptPath ← parts.get 0 (.required "script_path".toList JsonValue.asStr)
  let bindings ← parts.get 1 (.required "bindings".toList readBindings)
  some ⟨scriptPath, bindings⟩

def readMatches (d : JsonValue) : Option (List DispatchMatch) := do
  let parts ← Parts.ofStruct 1 d
  parts.get 0 (.required "matches".toList fun d => d.asArray.bind (·.mapM DispatchMatch.read))

/-- The matches have the same script, and give the same values to the same variables. -/
def DispatchMatch.Same (m m' : DispatchMatch) : Prop :=
  m.scriptPath = m'.scriptPath ∧ FieldMap.Same m.bindings m'.bindings

def DispatchMatch.WellFormed (m : DispatchMatch) : Prop :=
  FieldMap.Keyed m.bindings ∧ FieldValue.FiniteEntries m.bindings

theorem readBindings_toJson {bindings : FieldBindings} (hkeyed : FieldMap.Keyed bindings)
    (hfinite : FieldValue.FiniteEntries bindings) : ∃ bindings',
      readBindings (.object (BTreeMap.extend Str.cmp [] (FieldValue.toJsonEntries bindings))) =
        some bindings' ∧ FieldMap.Same bindings bindings' := by
  obtain ⟨w, hw, hsame⟩ := FieldValue.fromJson_toJson (.map bindings) hkeyed hfinite
  rw [FieldValue.toJson, FieldValue.fromJson_tagged] at hw
  obtain ⟨members, hmembers, rfl⟩ := Option.map_eq_some_iff.mp hw
  exact ⟨Map.extend [] members, by rw [readBindings, hmembers, Option.map_some], hsame⟩

theorem DispatchMatch.read_toJson {m : DispatchMatch} (hm : m.WellFormed) :
    ∃ m', DispatchMatch.read m.toJson = some m' ∧ m.Same m' := by
  obtain ⟨bindings, hbindings, hsame⟩ := readBindings_toJson hm.1 hm.2
  refine ⟨⟨m.scriptPath, bindings⟩, ?_, rfl, hsame⟩
  change ((readBindings (.object (BTreeMap.extend Str.cmp [] _))).bind fun bindings =>
    some (DispatchMatch.mk m.scriptPath bindings)) = _
  rw [hbindings, Option.bind_some]

theorem readMatches_toJson {ms : List DispatchMatch} (hms : ∀ m ∈ ms, m.WellFormed) :
    ∃ ms', readMatches (Reply.toJson (.dispatch ms)) = some ms' ∧
      List.Forall₂ DispatchMatch.Same ms ms' := by
  change ∃ ms', (ms.map DispatchMatch.toJson).mapM DispatchMatch.read = some ms' ∧ _
  induction ms with
  | nil => exact ⟨[], rfl, .nil⟩
  | cons m ms ih =>
    obtain ⟨hm, hrest⟩ := List.forall_mem_cons.mp hms
    obtain ⟨m', hread, hsame⟩ := DispatchMatch.read_toJson hm
    obtain ⟨ms', hreads, hsames⟩ := ih hrest
    exact ⟨m' :: ms', by simp [hread, hreads], .cons hsame hsames⟩

def errorCodes : List Int := [parseError, methodNotFound, invalidParams, luamlError]

inductive Response.Proper : Response Reply → Prop
  | ok (id : UInt64) (reply : Reply) : Proper (.ok id reply)
  | err (id : UInt64) {code : Int} (hcode : code ∈ errorCodes) (message : Str) :
    Proper (.err id code message)

theorem Response.Proper.read_document {r : Response Reply} (h : r.Proper) :
    Response.read r.document = some ⟨r.jsonrpc, r.result.map Reply.toJson, r.error, r.id⟩ := by
  cases h with
  | ok id reply =>
    have hvalue : reply.toJson.isNull = false := by cases reply <;> rfl
    obtain ⟨hwritable, hsettled⟩ := Response.ok_settled id reply.toJson_ascends hvalue
    exact (Response.read_write hwritable).trans (congrArg some hsettled)
  | err id hcode message =>
    have hbounds : ∀ code ∈ errorCodes, -2 ^ 63 ≤ code ∧ code < 2 ^ 63 := by decide
    obtain ⟨hlow, hhigh⟩ := hbounds _ hcode
    obtain ⟨hwritable, hsettled⟩ := Response.err_settled id hlow hhigh message
    exact (Response.read_write hwritable).trans (congrArg some hsettled)

variable {J W : Type} {serde : Service.Serde J} {bodies : Bodies W}

theorem handleRegister_proper {conn conn' : Connection W} {request : Request J}
    {r : Response Reply} (h : handleRegister serde conn request = .ok (r, conn')) : r.Proper := by
  unfold handleRegister at h
  split at h
  · cases h
    exact .err _ (by decide) _
  · split at h
    · cases h
      exact .ok _ _
    · cases h
      exact .err _ (by decide) _
    · cases h

theorem handleRegisterApi_proper (serde : Service.Serde J) (conn : Connection W)
    (request : Request J) : (handleRegisterApi serde conn request).1.Proper := by
  unfold handleRegisterApi
  split
  · exact .err _ (by decide) _
  · split
    · exact .err _ (by decide) _
    · exact .ok _ _

theorem handleDispatch_proper {conn conn' : Connection W} {request : Request J}
    {r : Response Reply} (h : handleDispatch serde bodies conn request = .ok (r, conn')) :
    r.Proper := by
  unfold handleDispatch at h
  split at h
  · cases h
    exact .err _ (by decide) _
  · obtain ⟨run, -, h⟩ := bind_eq_ok.mp h
    cases h
    exact .ok _ _

theorem handleQuery_proper (conn : Connection W) (request : Request J) :
    (handleQuery serde conn request).Proper ∧ (handleQuerySubset serde conn request).Proper := by
  unfold handleQuery handleQuerySubset
  split
  · exact ⟨.err _ (by decide) _, .err _ (by decide) _⟩
  · exact ⟨.ok _ _, .ok _ _⟩

theorem processRequest_proper {conn conn' : Connection W} {request : Request J}
    {r : Response Reply} (h : processRequest serde bodies conn request = .ok (r, conn')) :
    r.Proper := by
  unfold processRequest at h
  split at h
  · exact handleRegister_proper h
  split at h
  · have hr := handleRegisterApi_proper serde conn request
    rw [Res.ok.inj h] at hr
    exact hr
  split at h
  · exact handleDispatch_proper h
  split at h
  · cases h
    exact (handleQuery_proper conn request).1
  split at h
  · cases h
    exact (handleQuery_proper conn request).2
  · cases h
    exact .err _ (by decide) _

theorem Calls.silent {s s' : Stream} {calls : List Event} (h : Calls serde s calls s') :
    responses calls = [] := by
  induction h with
  | none => rfl
  | call ns method args _ ih => exact ih

theorem Exchange.silent {t t' : Offer × Stream} {request : Request J} {calls : List Event}
    {r : Response Reply} (h : Exchange serde t request calls r t') : responses calls = [] := by
  cases h with
  | dispatch hmethod hevent hcalls ms => exact hcalls.silent
  | _ => rfl

theorem Served.proper {conn conn' : Connection W} {events : List Event}
    (h : Served serde bodies conn events conn') : ∀ r ∈ responses events, r.Proper := by
  induction h with
  | ended hunread => exact List.forall_mem_nil _
  | failed => exact List.forall_mem_nil _
  | blank hblank _ ih => exact ih
  | invalid hinvalid _ ih => exact List.forall_mem_cons.mpr ⟨.err _ (by decide) _, ih⟩
  | @exchange _ _ _ _ _ _ _ _ calls events r _ _ hrequest hprocess hexchange hcalls _ ih =>
    change ∀ r' ∈ responses (calls ++ .response r :: events), r'.Proper
    rw [responses_append, hexchange.silent]
    exact List.forall_mem_cons.mpr ⟨processRequest_proper hprocess, ih⟩

/-- Every response of a session is read as what it is written for: a result, or an error under one
of the codes.  The matches of a dispatch or a query arrive with their bindings. -/
theorem handleStream_responses (serde : Service.Serde J) (bodies : Bodies W)
    (engine : LuamlEngine) (lua : W) (reader : List (Except Str Str)) (conn : Connection W)
    (h : handleStream serde bodies engine lua reader = .ok conn) :
    ∀ r ∈ responses conn.handler.log, r.Proper ∧
      Response.read r.document = some ⟨r.jsonrpc, r.result.map Reply.toJson, r.error, r.id⟩ ∧
      ∀ ms, r.result = some (.dispatch ms) → (∀ m ∈ ms, m.WellFormed) →
        ∃ ms', readMatches (Reply.toJson (.dispatch ms)) = some ms' ∧
          List.Forall₂ DispatchMatch.Same ms ms' := by
  obtain ⟨events, hserved⟩ := serve_served bodies _ h
  obtain rfl : conn.handler.log = events := hserved.log
  intro r hr
  have hproper := hserved.proper r hr
  exact ⟨hproper, hproper.read_document, fun ms _ hms => readMatches_toJson hms⟩

theorem inTurn_responses : ∃ conn,
    handleStream sessionSerde sessionBodies newEngine () inTurn = .ok conn ∧
      ∀ r ∈ responses conn.handler.log, Response.read r.document =
        some ⟨r.jsonrpc, r.result.map Reply.toJson, r.error, r.id⟩ := by
  have hok : (handleStream sessionSerde sessionBodies newEngine () inTurn).toOption.isSome := by
    decide +kernel
  obtain ⟨conn, hconn⟩ := Option.isSome_iff_exists.mp hok
  have hconn' := toOption_eq_some.mp hconn
  exact ⟨conn, hconn', fun r hr => (handleStream_responses sessionSerde sessionBodies newEngine ()
    inTurn conn hconn' r hr).2.1⟩

end Service

end Luaml
