import Luaml.Client
import Luaml.RpcLaws

namespace Luaml

open Rust Serde Lua

namespace Lua.CountM

variable {H α β : Type}

/-- Whatever `x` comes to the counter goes on by some steps, and what `x` gives fits to these. -/
def Takes (x : CountM H α) (Q : α → List Nat → Prop) : Prop :=
  ∀ taken h r taken' h', x taken h = some (r, taken', h') →
    ∃ k, taken' = taken + k ∧ ∀ a, r = .ok a → Q a (List.range' taken k)

theorem Takes.pure {a : α} {Q : α → List Nat → Prop} (hQ : Q a []) :
    Takes (H := H) (Pure.pure a) Q := by
  intro taken h r taken' h' hrun
  cases hrun
  refine ⟨0, rfl, fun a' ha => ?_⟩
  cases ha
  exact hQ

theorem Takes.lift (x : RecM H α) : Takes (lift x) fun _ steps => steps = [] := by
  intro taken h r taken' h' hrun
  obtain ⟨⟨r, h₁⟩, -, heq⟩ := Option.map_eq_some_iff.mp hrun
  cases heq
  exact ⟨0, rfl, fun _ _ => rfl⟩

theorem Takes.throw (message : Str) {Q : α → List Nat → Prop} :
    Takes (H := H) (throw message) Q := by
  intro taken h r taken' h' hrun
  cases hrun
  exact ⟨0, rfl, fun a ha => by cases ha⟩

theorem Takes.abort {Q : α → List Nat → Prop} : Takes (H := H) abort Q := by
  intro taken h r taken' h' hrun
  cases hrun

theorem Takes.bind {x : CountM H α} {f : α → CountM H β} {P : α → List Nat → Prop}
    {Q : β → List Nat → Prop} (hx : Takes x P)
    (hf : ∀ a, Takes (f a) fun b steps' => ∀ steps, P a steps → Q b (steps ++ steps')) :
    Takes (x >>= f) Q := by
  intro taken h r taken'' h'' hrun
  change CountM.bind x f taken h = _ at hrun
  rw [CountM.bind] at hrun
  split at hrun
  case h_1 => cases hrun
  case h_2 a taken' h' heq =>
    obtain ⟨k, rfl, hP⟩ := hx _ _ _ _ _ heq
    obtain ⟨k', rfl, hQ⟩ := hf a _ _ _ _ _ hrun
    refine ⟨k + k', Nat.add_assoc _ _ _, fun b hb => ?_⟩
    rw [← List.range'_append_1]
    exact hQ b hb _ (hP a rfl)
  case h_3 e taken' h' heq =>
    cases hrun
    obtain ⟨k, rfl, -⟩ := hx _ _ _ _ _ heq
    exact ⟨k, rfl, fun b hb => by cases hb⟩

end Lua.CountM

namespace Rpc

open Json CountM

variable {H : Type} {host : Host H} {vm : Vm H} {n : Nat}

theorem idOf_nodup {taken : Nat} (htaken : taken ≤ 2 ^ 64) :
    ((List.range' 0 taken).map idOf).Nodup := by
  refine List.Nodup.map_on (fun i hi j hj heq => ?_) List.nodup_range'
  rw [List.mem_range'_1] at hi hj
  have hmod := congrArg UInt64.toNat heq
  rw [idOf, idOf, UInt64.toNat_ofNat', UInt64.toNat_ofNat'] at hmod
  omega

theorem fetchAdd_takes : Takes (fetchAdd (H := H)) fun id steps => steps.map idOf = [id] := by
  intro taken h r taken' h' hrun
  cases hrun
  refine ⟨1, rfl, fun id hid => ?_⟩
  cases hid
  rfl

def Awaited.ids : Awaited → List UInt64
  | .result id => [id]
  | .nothing => []
  | .entries ids => ids

/-- A request of JSON-RPC for what is awaited: a call with an id, a notification without one, or a
batch of one call or more. -/
inductive Spoken : Awaited → JsonValue → Prop
  | call (id : UInt64) (method : Str) (params : JsonValue) :
    Spoken (.result id) (buildRequest (some id) method params)
  | notify (method : Str) (params : JsonValue) : Spoken .nothing (buildRequest none method params)
  | batch {calls : List (UInt64 × Str × JsonValue)} : calls ≠ [] →
    Spoken (.entries (calls.map Prod.fst))
      (.array (calls.map fun call => buildRequest (some call.1) call.2.1 call.2.2))

theorem elements_takes (batch : Ref) (count : Nat) (i : Int64) :
    Takes (elements host vm n batch count i) fun sent steps =>
      ∃ calls : List (UInt64 × Str × JsonValue), calls.length = count ∧
        sent = (calls.map (fun call => buildRequest (some call.1) call.2.1 call.2.2),
          calls.map Prod.fst) ∧ calls.map Prod.fst = steps.map idOf := by
  induction count generalizing i with
  | zero => exact .pure ⟨[], rfl, rfl, rfl⟩
  | succ count ih =>
    refine (Takes.lift _).bind fun ⟨method, params⟩ => fetchAdd_takes.bind fun id =>
      (ih (i + 1)).bind fun sent => .pure ?_
    rintro _ ⟨calls, rfl, rfl, hids⟩ _ hid _ rfl
    refine ⟨(id, method, params) :: calls, rfl, rfl, ?_⟩
    rw [List.map_cons, hids]
    simp [hid]

theorem buildBatchBody_takes (batch : Ref) :
    Takes (buildBatchBody host vm n batch) fun sent steps =>
      Spoken (.entries sent.2) sent.1 ∧ sent.2 = steps.map idOf ∧ sent.2.length < 2 ^ 63 := by
  refine (Takes.lift _).bind fun len => ?_
  by_cases hzero : len = 0
  · rw [if_pos hzero]
    exact .throw _
  rw [if_neg hzero]
  by_cases hneg : len < 0
  · rw [if_pos hneg]
    exact .abort
  · rw [if_neg hneg]
    refine (elements_takes batch _ 1).bind fun sent => .pure ?_
    rintro _ ⟨calls, hlen, rfl, hids⟩ _ rfl
    rw [List.nil_append, List.append_nil]
    have hnonneg : 0 ≤ len.toInt := Int64.le_iff_toInt_le.mp (Int64.not_lt.mp hneg)
    have hpos : len.toInt ≠ 0 := fun h => hzero (Int64.toInt_inj.mp h)
    have hlt : len.toInt < 2 ^ 63 := len.toInt_lt
    refine ⟨.batch ?_, hids, ?_⟩
    · rintro rfl
      rw [List.length_nil] at hlen
      omega
    · rw [List.length_map, hlen]
      omega

theorem request_takes (m : Method) :
    Takes (m.request host vm n) fun request steps =>
      Spoken request.awaited request.body ∧ request.awaited.ids = steps.map idOf ∧
        request.awaited.ids.length < 2 ^ 63 := by
  cases m with
  | call method params =>
    refine (Takes.lift _).bind fun paramsJson => fetchAdd_takes.bind fun id => .pure ?_
    rintro steps hid _ rfl
    rw [List.nil_append, List.append_nil]
    exact ⟨.call .., hid.symm, by simp [Awaited.ids]⟩
  | notify method params =>
    refine (Takes.lift _).bind fun paramsJson => .pure ?_
    rintro _ rfl
    exact ⟨.notify .., rfl, by simp [Awaited.ids]⟩
  | batch t =>
    refine (buildBatchBody_takes t).bind fun ⟨body, ids⟩ => .pure ?_
    intro steps hsent
    rw [List.append_nil]
    exact hsent

inductive Answer
  | result (value : JsonValue)
  | error (err : JsonValue)

def Answer.single : Answer → Except Str JsonValue
  | .result value => .ok value
  | .error err => .error (formatServerError err)

def Answer.entry : Answer → BatchEntry
  | .result value => .ok value
  | .error err => .err (parseServerError err)

inductive Says (id : UInt64) (reply : JsonValue) : Answer → Prop
  | result {value : JsonValue} : replyId reply = some id →
    (reply.get "error".toList).filter (! ·.isNull) = none →
      reply.get "result".toList = some value → Says id reply (.result value)
  | error {err : JsonValue} : replyId reply = some id →
    reply.get "error".toList = some err → err.isNull = false → Says id reply (.error err)

inductive Answered (answers : UInt64 → Answer) : JsonValue → JsonValue → Prop
  | one {body reply : JsonValue} {id : UInt64} : replyId body = some id →
    Says id reply (answers id) → Answered answers body reply
  | many {bodies replies : List JsonValue} {ids : List UInt64} :
    ids.Perm (bodies.filterMap replyId) →
      List.Forall₂ (fun id reply => Says id reply (answers id)) ids replies →
        Answered answers (.array bodies) (.array replies)

theorem replyId_buildRequest (id : Option UInt64) (method : Str) (params : JsonValue) :
    replyId (buildRequest id method params) = id := by
  cases id <;> rfl

theorem Spoken.of_one {awaited : Awaited} {body : JsonValue} (hspoken : Spoken awaited body)
    {id : UInt64} (hid : replyId body = some id) : awaited = .result id := by
  cases hspoken with
  | call id' method params =>
    rw [replyId_buildRequest] at hid
    rw [Option.some.inj hid]
  | notify method params =>
    rw [replyId_buildRequest] at hid
    cases hid
  | batch hne => cases hid

theorem Spoken.of_many {awaited : Awaited} {bodies : List JsonValue}
    (hspoken : Spoken awaited (.array bodies)) :
    awaited = .entries (bodies.filterMap replyId) := by
  generalize hbody : JsonValue.array bodies = body at hspoken
  cases hspoken with
  | call id method params => cases hbody
  | notify method params => cases hbody
  | @batch calls hne =>
    cases hbody
    rw [List.filterMap_map]
    have hids : (replyId ∘ fun call : UInt64 × Str × JsonValue =>
        buildRequest (some call.1) call.2.1 call.2.2) = some ∘ Prod.fst :=
      funext fun call => replyId_buildRequest _ _ _
    rw [hids, List.filterMap_eq_map]

namespace Says

variable {id id' : UInt64} {reply : JsonValue} {answer : Answer}

theorem replyId (hsaid : Says id reply answer) : Rpc.replyId reply = some id := by
  cases hsaid with
  | result hid _ _ => exact hid
  | error hid _ _ => exact hid

theorem entry (hsaid : Says id reply answer) : replyEntry id (some reply) = answer.entry := by
  cases hsaid with
  | result hid hnone hresult => rw [replyEntry, hnone, hresult]; rfl
  | error hid herror hnull =>
    rw [replyEntry, herror, Option.filter_some, hnull]
    rfl

theorem single (hsaid : Says id reply answer) :
    extractSingleResult host reply id = answer.single := by
  obtain ⟨v, hv, hid⟩ := Option.bind_eq_some_iff.mp hsaid.replyId
  cases hsaid with
  | result _ hnone hresult =>
    rw [extractSingleResult, hnone, hv]
    dsimp only
    rw [if_pos hid, hresult]
    rfl
  | error _ herror hnull =>
    rw [extractSingleResult, herror, Option.filter_some, hnull]
    rfl

theorem not_single (hsaid : Says id reply answer) (hne : id ≠ id') :
    ∃ e, extractSingleResult host reply id' = .error e := by
  obtain ⟨v, hv, hid⟩ := Option.bind_eq_some_iff.mp hsaid.replyId
  rw [extractSingleResult]
  split
  · exact ⟨_, rfl⟩
  · rw [hv]
    dsimp only
    rw [if_neg fun h => hne (Option.some.inj (hid.symm.trans h))]
    exact ⟨_, rfl⟩

end Says

theorem repliesTo_eq_nil {id : UInt64} {replies : List JsonValue}
    (hid : id ∉ replies.filterMap replyId) : repliesTo id replies = [] := by
  rw [repliesTo, List.filter_eq_nil_iff]
  intro reply hreply hfound
  exact hid (List.mem_filterMap.mpr ⟨reply, hreply, of_decide_eq_true hfound⟩)

section

variable {answers : UInt64 → Answer} {ids : List UInt64} {replies : List JsonValue}

theorem filterMap_replyId
    (hsaid : List.Forall₂ (fun id reply => Says id reply (answers id)) ids replies) :
    replies.filterMap replyId = ids := by
  induction hsaid with
  | nil => rfl
  | cons hsaid _ ih => rw [List.filterMap_cons, hsaid.replyId, ih]

theorem entry_of_says
    (hsaid : List.Forall₂ (fun id reply => Says id reply (answers id)) ids replies)
    (hnodup : ids.Nodup) {id : UInt64} (hid : id ∈ ids) :
    replyEntry id (repliesTo id replies).getLast? = (answers id).entry := by
  induction hsaid with
  | nil => cases hid
  | @cons id' reply ids replies hreply hrest ih =>
    rw [repliesTo_cons, hreply.replyId]
    obtain ⟨hnotMem, hnodup⟩ := List.nodup_cons.mp hnodup
    rcases List.mem_cons.mp hid with rfl | hmem
    · rw [if_pos rfl, repliesTo_eq_nil (by rwa [filterMap_replyId hrest]), List.getLast?_singleton]
      exact hreply.entry
    · have hne : some id' ≠ some id := fun heq => hnotMem (Option.some.inj heq ▸ hmem)
      rw [if_neg hne]
      exact ih hnodup hmem

end

def Awaited.expected (texts : Texts) (answers : UInt64 → Answer) :
    Awaited → Except Str FieldValue
  | .result id => (answers id).single.map (jsonToField texts)
  | .nothing => .ok .null
  | .entries ids => .ok (batchEntriesToField texts (ids.map fun id => (answers id).entry))

def Awaited.Unanswered (texts : Texts) : Awaited → Except Str FieldValue → Prop
  | .result _, r => ∃ e, r = .error e
  | .nothing, r => r = .ok .null
  | .entries ids, r =>
    (∃ e, r = .error e) ∨ r = .ok (batchEntriesToField texts (ids.map fun id => replyEntry id none))

variable {awaited awaited' : Awaited} {body body' reply : JsonValue} {answers : UInt64 → Answer}

theorem settle_result (id : UInt64) (reply : JsonValue) :
    (Awaited.result id).settle host (.success (.ok reply)) =
      (extractSingleResult host reply id).map (jsonToField host.texts) := by
  change (extractSingleResult host reply id >>= fun result => pure _) = _
  cases extractSingleResult host reply id <;> rfl

theorem settle_entries (ids : List UInt64) (reply : JsonValue) :
    (Awaited.entries ids).settle host (.success (.ok reply)) =
      (correlateBatchResponse reply ids).map (batchEntriesToField host.texts) := by
  change (correlateBatchResponse reply ids >>= fun entries => pure _) = _
  cases correlateBatchResponse reply ids <;> rfl

theorem settle_own (hspoken : Spoken awaited body) (hnodup : awaited.ids.Nodup)
    (hanswered : Answered answers body reply) :
    awaited.settle host (.success (.ok reply)) = awaited.expected host.texts answers := by
  cases hanswered with
  | one hid hsaid => rw [hspoken.of_one hid, settle_result, hsaid.single, Awaited.expected]
  | many hperm hsaid =>
    rw [hspoken.of_many] at hnodup ⊢
    have hentries := List.map_congr_left fun id hid =>
      entry_of_says hsaid (hperm.nodup_iff.mpr hnodup) (hperm.mem_iff.mpr hid)
    rw [settle_entries, correlateBatchResponse_eq, hentries, Awaited.expected]
    rfl

theorem settle_foreign (hspoken : Spoken awaited' body')
    (hdisjoint : List.Disjoint awaited'.ids awaited.ids)
    (hanswered : Answered answers body' reply) :
    awaited.Unanswered host.texts (awaited.settle host (.success (.ok reply))) := by
  cases awaited with
  | nothing => rfl
  | result id =>
    rw [settle_result, Awaited.Unanswered]
    cases hanswered with
    | @one _ _ id' hid hsaid =>
      rw [hspoken.of_one hid] at hdisjoint
      have hne : id' ≠ id := by
        rintro rfl
        exact hdisjoint List.mem_cons_self List.mem_cons_self
      obtain ⟨e, he⟩ := hsaid.not_single hne
      exact ⟨e, by rw [he]; rfl⟩
    | many => exact ⟨_, rfl⟩
  | entries ids =>
    rw [settle_entries, Awaited.Unanswered]
    cases hanswered with
    | @one _ _ id' hid hsaid =>
      refine .inl ⟨"batch response is not an array".toList, ?_⟩
      have hid' := hsaid.replyId
      cases reply with
      | array => cases hid'
      | _ => rfl
    | @many bodies replies _ hperm hsaid =>
      rw [hspoken.of_many] at hdisjoint
      have hnone : ∀ id ∈ ids,
          replyEntry id (repliesTo id replies).getLast? = replyEntry id none := by
        intro id hid
        have hnotMem : id ∉ replies.filterMap replyId := by
          rw [filterMap_replyId hsaid, hperm.mem_iff]
          exact fun hmem => hdisjoint hmem hid
        rw [repliesTo_eq_nil hnotMem]
        rfl
      refine .inr ?_
      rw [correlateBatchResponse_eq, List.map_congr_left hnone]
      rfl

def noHost : Host Unit where
  texts := noTexts
  float _ := []
  notTable _ := []
  notString _ := []
  display _ := []
  len _ := .ofExcept (.ok 0)

def ping : Method := .call "ping".toList .nil

def pong (id : UInt64) : JsonValue :=
  .object [("id".toList, .number (.posInt id)), ("result".toList, .bool true)]

def pinged (taken : Nat) : Request :=
  ⟨.result (idOf taken), buildRequest (some (idOf taken)) "ping".toList .null⟩

theorem ping_request (taken : Nat) :
    ping.request noHost noCode 1 taken [] = some (.ok (pinged taken), taken + 1, []) := rfl

theorem pong_answers (taken : Nat) :
    Answered (fun _ => .result (.bool true)) (pinged taken).body (pong (idOf taken)) :=
  .one rfl (.result rfl rfl rfl)

end Rpc

end Luaml
