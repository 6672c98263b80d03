import Luaml.Lib.Derive
import Luaml.Wire

/-! The messages of the protocol as documents: `derive(Serialize)` and `derive(Deserialize)` of the
types in `src/protocol.rs`. -/

namespace Luaml

open Rust Serde

namespace FieldValue

mutual
theorem toJson_ascends (v : FieldValue) : v.toJson.Ascends := by
  cases v with
  | list items => exact ⟨List.pairwise_singleton _ _, ⟨trivial, toJsonItems_ascend items⟩, trivial⟩
  | map entries =>
    have hvalues := JsonValue.everyMember_iff.mp (toJsonEntries_ascend entries)
    exact ⟨List.pairwise_singleton _ _, JsonValue.object_ascends hvalues, trivial⟩
  | float f =>
    refine ⟨List.pairwise_singleton _ _, ?_, trivial⟩
    rw [floatToJson]
    split <;> trivial
  | null => trivial
  | _ => exact ⟨List.pairwise_singleton _ _, trivial, trivial⟩

theorem toJsonItems_ascend (vs : List FieldValue) :
    JsonValue.EveryItem (fun _ => True) (BTreeMap.Ascending Str.cmp) (toJsonItems vs) := by
  cases vs with
  | nil => trivial
  | cons v vs => exact ⟨v.toJson_ascends, toJsonItems_ascend vs⟩

theorem toJsonEntries_ascend (m : List (Str × FieldValue)) :
    JsonValue.EveryMember (fun _ => True) (BTreeMap.Ascending Str.cmp) (toJsonEntries m) := by
  cases m with
  | nil => trivial
  | cons e m => exact ⟨e.2.toJson_ascends, toJsonEntries_ascend m⟩
end

end FieldValue

namespace Service

def RpcError.write (e : RpcError) : JsonValue :=
  .object [("code".toList, .number (.ofI64 (Int64.ofInt e.code))),
    ("message".toList, .string e.message)]

def RpcError.read (d : JsonValue) : Option RpcError := do
  let parts ← Parts.ofStruct 2 d
  let code ← parts.get 0 (.required "code".toList JsonValue.asI64)
  let message ← parts.get 1 (.required "message".toList JsonValue.asStr)
  some ⟨code.toInt, message⟩

def Request.write (r : Request JsonValue) : JsonValue :=
  .object [("jsonrpc".toList, .string r.jsonrpc), ("method".toList, .string r.method),
    ("params".toList, r.params), ("id".toList, .number (.posInt r.id))]

def Request.read (d : JsonValue) : Option (Request JsonValue) := do
  let parts ← Parts.ofStruct 4 d
  let jsonrpc ← parts.get 0 (.required "jsonrpc".toList JsonValue.asStr)
  let method ← parts.get 1 (.required "method".toList JsonValue.asStr)
  let params ← parts.get 2 (.withDefault "params".toList (some ∘ JsonValue.ofDocument) .null)
  let id ← parts.get 3 (.required "id".toList JsonValue.asU64)
  some ⟨jsonrpc, method, params, id⟩

def Response.write (r : Response JsonValue) : JsonValue :=
  .object (("jsonrpc".toList, .string r.jsonrpc) ::
    (r.result.map fun result => ("result".toList, result)).toList ++
    (r.error.map fun e => ("error".toList, e.write)).toList ++
    [("id".toList, .number (.posInt r.id))])

def Response.read (d : JsonValue) : Option (Response JsonValue) := do
  let parts ← Parts.ofStruct 4 d
  let jsonrpc ← parts.get 0 (.required "jsonrpc".toList JsonValue.asStr)
  let result ← parts.get 1 (.optional "result".toList (some ∘ JsonValue.ofDocument))
  let error ← parts.get 2 (.optional "error".toList RpcError.read)
  let id ← parts.get 3 (.required "id".toList JsonValue.asU64)
  some ⟨jsonrpc, result, error, id⟩

def requestNames : List Str :=
  ["jsonrpc".toList, "method".toList, "params".toList, "id".toList]

def responseNames : List Str :=
  ["jsonrpc".toList, "result".toList, "error".toList, "id".toList]

def readMembers (d : JsonValue) : Option (List (Str × JsonValue)) :=
  match d.ofDocument with
  | .object members => some members
  | _ => none

def RegisterParams.read (d : JsonValue) : Option RegisterParams := do
  let parts ← Parts.ofStruct 2 d
  let sourcePath ← parts.get 0 (.required "source_path".toList JsonValue.asStr)
  let text ← parts.get 1 (.required "text".toList JsonValue.asStr)
  some ⟨sourcePath, text⟩

def RegisterApiParams.read (d : JsonValue) : Option (RegisterApiParams JsonValue) := do
  let parts ← Parts.ofStruct 2 d
  let ns ← parts.get 0 (.required "namespace".toList JsonValue.asStr)
  let pattern ← parts.get 1 (.withDefault "pattern".toList readMembers [])
  some ⟨ns, pattern⟩

def DispatchParams.read (d : JsonValue) : Option (DispatchParams JsonValue) := do
  let parts ← Parts.ofStruct 1 d
  let event ← parts.get 0 (.required "event".toList readMembers)
  some ⟨event⟩

def ApiCallParams.toJson (params : ApiCallParams) : JsonValue :=
  .object (BTreeMap.extend Str.cmp [] [("namespace".toList, .string params.ns),
    ("method".toList, .string params.method),
    ("args".toList, .array (FieldValue.toJsonItems params.args))])

def DispatchMatch.toJson (m : DispatchMatch) : JsonValue :=
  .object (BTreeMap.extend Str.cmp [] [("script_path".toList, .string m.scriptPath),
    ("bindings".toList,
      .object (BTreeMap.extend Str.cmp [] (FieldValue.toJsonEntries m.bindings)))])

def annotationsToJson (annotations : Annotations) : JsonValue :=
  .array (annotations.map fun (key, value) => .array [.string key, .string value])

def SubsetQueryMatch.toJson (m : SubsetQueryMatch) : JsonValue :=
  .object (BTreeMap.extend Str.cmp [] [("script_path".toList, .string m.scriptPath),
    ("clause_index".toList, .number (.posInt (UInt64.ofNat m.clauseIndex))),
    ("annotations".toList, annotationsToJson m.annotations),
    ("field_annotations".toList, .object (BTreeMap.extend Str.cmp []
      (m.fieldAnnotations.map fun (field, annotations) =>
        (field, annotationsToJson annotations))))])

def Reply.toJson : Reply → JsonValue
  | .done => .object [("ok".toList, .bool true)]
  | .dispatch ms => .object [("matches".toList, .array (ms.map DispatchMatch.toJson))]
  | .subset ms => .object [("matches".toList, .array (ms.map SubsetQueryMatch.toJson))]

theorem RpcError.read_write {e : RpcError} (hlow : -2 ^ 63 ≤ e.code) (hhigh : e.code < 2 ^ 63) :
    RpcError.read e.write = some e := by
  change ((JsonNumber.ofI64 (Int64.ofInt e.code)).asI64.bind fun code =>
    some (RpcError.mk code.toInt e.message)) = some e
  rw [JsonNumber.asI64_ofI64, Option.bind_some, Int64.toInt_ofInt_of_le hlow hhigh]

theorem Request.read_write {r : Request JsonValue} (hparams : r.params.Ascends) :
    Request.read r.write = some r := by
  change some (Request.mk r.jsonrpc r.method r.params.ofDocument r.id) = some r
  rw [JsonValue.ofDocument_of_ascends _ hparams]

structure Response.Writable (r : Response JsonValue) : Prop where
  result : ∀ j, r.result = some j → j.Ascends
  code : ∀ e, r.error = some e → -2 ^ 63 ≤ e.code ∧ e.code < 2 ^ 63

def Response.settled (r : Response JsonValue) : Response JsonValue :=
  { r with result := r.result.filter (! ·.isNull) }

def responseMembers (jsonrpc : Str) (id : UInt64) (result error : Option JsonValue) :
    List (Str × JsonValue) :=
  ("jsonrpc".toList, .string jsonrpc) ::
    (result.map fun result => ("result".toList, result)).toList ++
    (error.map fun e => ("error".toList, e)).toList ++ [("id".toList, .number (.posInt id))]

theorem Response.read_members (jsonrpc : Str) (id : UInt64) (result error : Option JsonValue) :
    Response.read (.object (responseMembers jsonrpc id result error)) =
      (error.elim (some none) (Field.optional "error".toList RpcError.read).read).map fun error =>
        ⟨jsonrpc, (result.map JsonValue.ofDocument).filter (! ·.isNull), error, id⟩ := by
  have hresult : (Parts.named (responseMembers jsonrpc id result error)).get 1
      (.optional "result".toList (some ∘ JsonValue.ofDocument)) =
        some ((result.map JsonValue.ofDocument).filter (! ·.isNull)) := by
    cases result with
    | none => cases error <;> rfl
    | some j =>
      have hread : (Parts.named (responseMembers jsonrpc id (some j) error)).get 1
          (.optional "result".toList (some ∘ JsonValue.ofDocument)) =
            if j.isNull then some none else some (some j.ofDocument) := by
        cases error <;> rfl
      rw [hread, Option.map_some, Option.filter_some, JsonValue.ofDocument_isNull]
      cases j.isNull <;> rfl
  have herror : (Parts.named (responseMembers jsonrpc id result error)).get 2
      (.optional "error".toList RpcError.read) =
        error.elim (some none) (Field.optional "error".toList RpcError.read).read := by
    cases result <;> cases error <;> rfl
  have hothers : (Parts.named (responseMembers jsonrpc id result error)).get 0
        (.required "jsonrpc".toList JsonValue.asStr) = some jsonrpc ∧
      (Parts.named (responseMembers jsonrpc id result error)).get 3
        (.required "id".toList JsonValue.asU64) = some id := by
    cases result <;> cases error <;> exact ⟨rfl, rfl⟩
  rw [Response.read, Parts.ofStruct, Option.bind_eq_bind, Option.bind_some]
  simp only [hothers.1, hothers.2, hresult, herror, Option.bind_eq_bind, Option.bind_some]
  exact Option.map_eq_bind.symm

theorem Response.read_write {r : Response JsonValue} (hr : r.Writable) :
    Response.read r.write = some r.settled := by
  obtain ⟨jsonrpc, result, error, id⟩ := r
  have hresult : result.map JsonValue.ofDocument = result := by
    cases result with
    | none => rfl
    | some j => exact congrArg some (JsonValue.ofDocument_of_ascends j (hr.result j rfl))
  have hmembers := Response.read_members jsonrpc id result (error.map RpcError.write)
  rw [responseMembers, Option.map_map, hresult] at hmembers
  refine hmembers.trans ?_
  cases error with
  | none => rfl
  | some e =>
    have herror := RpcError.read_write (hr.code e rfl).1 (hr.code e rfl).2
    change Option.map _ ((RpcError.read e.write).map some) = _
    rw [herror]
    rfl

theorem RpcError.read_code {d : JsonValue} {e : RpcError} (h : RpcError.read d = some e) :
    -2 ^ 63 ≤ e.code ∧ e.code < 2 ^ 63 := by
  obtain ⟨parts, -, h⟩ := Option.bind_eq_some_iff.mp h
  obtain ⟨code, -, h⟩ := Option.bind_eq_some_iff.mp h
  obtain ⟨message, -, h⟩ := Option.bind_eq_some_iff.mp h
  cases h
  exact ⟨code.le_toInt, code.toInt_lt⟩

theorem Response.read_writable {d : JsonValue} {r : Response JsonValue}
    (h : Response.read d = some r) : r.Writable ∧ r.settled = r := by
  obtain ⟨parts, -, h⟩ := Option.bind_eq_some_iff.mp h
  obtain ⟨jsonrpc, -, h⟩ := Option.bind_eq_some_iff.mp h
  obtain ⟨result, hresult, h⟩ := Option.bind_eq_some_iff.mp h
  obtain ⟨error, herror, h⟩ := Option.bind_eq_some_iff.mp h
  obtain ⟨id, -, h⟩ := Option.bind_eq_some_iff.mp h
  cases h
  refine ⟨⟨fun j hj => ?_, fun e he => ?_⟩, ?_⟩
  · obtain rfl : result = some j := hj
    obtain ⟨d', -, hd'⟩ := Parts.of_get_optional hresult
    cases hd'
    exact d'.ofDocument_ascends
  · obtain rfl : error = some e := he
    obtain ⟨d', -, hd'⟩ := Parts.of_get_optional herror
    exact RpcError.read_code hd'
  · cases result with
    | none => rfl
    | some j =>
      obtain ⟨d', hnull, hd'⟩ := Parts.of_get_optional hresult
      cases hd'
      have hvalue : (! d'.ofDocument.isNull) = true := by
        rw [JsonValue.ofDocument_isNull, hnull]
        rfl
      rw [settled, Option.filter_some, if_pos hvalue]

theorem Request.read_ascends {d : JsonValue} {r : Request JsonValue}
    (h : Request.read d = some r) : r.params.Ascends := by
  obtain ⟨parts, -, h⟩ := Option.bind_eq_some_iff.mp h
  obtain ⟨jsonrpc, -, h⟩ := Option.bind_eq_some_iff.mp h
  obtain ⟨method, -, h⟩ := Option.bind_eq_some_iff.mp h
  obtain ⟨params, hparams, h⟩ := Option.bind_eq_some_iff.mp h
  obtain ⟨id, -, h⟩ := Option.bind_eq_some_iff.mp h
  cases h
  obtain ⟨d', hd'⟩ | hmissing | hcut := Parts.of_get hparams
  · cases hd'
    exact d'.ofDocument_ascends
  · cases hmissing
    exact trivial
  · cases hcut
    exact trivial

theorem Response.ok_settled (id : UInt64) {j : JsonValue} (hj : j.Ascends)
    (hvalue : j.isNull = false) :
    (Response.ok id j).Writable ∧ (Response.ok id j).settled = .ok id j := by
  refine ⟨⟨fun j' hj' => ?_, fun e he => ?_⟩, ?_⟩
  · obtain rfl : j = j' := Option.some.inj hj'
    exact hj
  · cases he
  · rw [settled, Response.ok, Option.filter_some, hvalue]
    rfl

theorem Response.err_settled (id : UInt64) {code : Int} (hlow : -2 ^ 63 ≤ code)
    (hhigh : code < 2 ^ 63) (message : Str) :
    (Response.err id code message : Response JsonValue).Writable ∧
      (Response.err id code message : Response JsonValue).settled = .err id code message := by
  refine ⟨⟨fun j hj => ?_, fun e he => ?_⟩, rfl⟩
  · cases hj
  · obtain rfl : RpcError.mk code message = e := Option.some.inj he
    exact ⟨hlow, hhigh⟩

/-- A message that is accepted is read again as itself from what is written for it, and it is the
same whatever the order of its members and whatever other members there are. -/
theorem messages_normal :
    (∀ d r, Request.read d = some r → Request.read r.write = some r) ∧
    (∀ d r, Response.read d = some r → Response.read r.write = some r) ∧
    ∀ members members' others : List (Str × JsonValue), members.Perm members' →
      ((∀ m ∈ others, m.1 ∉ requestNames) →
        Request.read (.object (members' ++ others)) = Request.read (.object members)) ∧
      ((∀ m ∈ others, m.1 ∉ responseNames) →
        Response.read (.object (members' ++ others)) = Response.read (.object members)) := by
  refine ⟨fun d r h => Request.read_write (Request.read_ascends h), fun d r h => ?_, ?_⟩
  · obtain ⟨hwritable, hsettled⟩ := Response.read_writable h
    rw [Response.read_write hwritable, hsettled]
  · intro members members' others hperm
    have hname : ∀ {names : List Str}, (∀ m ∈ others, m.1 ∉ names) →
        ∀ name ∈ names, ∀ m ∈ others, m.1 ≠ name := fun hothers name hmem m hm heq =>
      hothers m hm (heq ▸ hmem)
    refine ⟨fun hothers => ?_, fun hothers => ?_⟩
    · simp only [Request.read, Parts.ofStruct, Option.bind_eq_bind, Option.bind_some]
      rw [Parts.get_append hperm (hname hothers "jsonrpc".toList (by decide)),
        Parts.get_append hperm (hname hothers "method".toList (by decide)),
        Parts.get_append hperm (hname hothers "params".toList (by decide)),
        Parts.get_append hperm (hname hothers "id".toList (by decide))]
    · simp only [Response.read, Parts.ofStruct, Option.bind_eq_bind, Option.bind_some]
      rw [Parts.get_append hperm (hname hothers "jsonrpc".toList (by decide)),
        Parts.get_append hperm (hname hothers "result".toList (by decide)),
        Parts.get_append hperm (hname hothers "error".toList (by decide)),
        Parts.get_append hperm (hname hothers "id".toList (by decide))]

end Service

end Luaml
