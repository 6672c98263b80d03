import Luaml.ClientLaws
import Mathlib.Logic.Relation

namespace Luaml

open Rust Serde Lua

namespace Rpc

open Json CountM

structure Reply where
  request : Nat
  answers : UInt64 → Answer
  body : JsonValue

structure Settled where
  request : Nat
  reply : Option Reply
  result : Except Str FieldValue

structure Traffic where
  taken : Nat
  requests : List Request
  replies : List Reply
  settled : List Settled

def Traffic.none : Traffic := ⟨0, [], [], []⟩

section

variable {H : Type} (host : Host H) (vm : Vm H)

inductive Step (s : Traffic) : Traffic → Prop
  | sends {m : Method} {n taken : Nat} {h h' : Heap H} {q : Request} :
    m.request host vm n s.taken h = some (.ok q, taken, h') →
      Step s { s with taken := taken, requests := s.requests ++ [q] }
  | raises {m : Method} {n taken : Nat} {h h' : Heap H} {e : Str} :
    m.request host vm n s.taken h = some (.error e, taken, h') →
      Step s { s with taken := taken }
  | replies {k : Nat} {q : Request} {answers : UInt64 → Answer} {body : JsonValue} :
    s.requests[k]? = some q → Answered answers q.body body →
      Step s { s with replies := s.replies ++ [⟨k, answers, body⟩] }
  | delivers {k : Nat} {q : Request} {reply : Reply} :
    s.requests[k]? = some q → reply ∈ s.replies →
      Step s { s with
        settled := s.settled ++
          [⟨k, some reply, q.awaited.settle host (.success (.ok reply.body))⟩] }
  | fails {k : Nat} {q : Request} {response : Response} :
    s.requests[k]? = some q → (∀ body, response ≠ .success (.ok body)) →
      Step s { s with settled := s.settled ++ [⟨k, Option.none, q.awaited.settle host response⟩] }

abbrev Run : Traffic → Traffic → Prop := Relation.ReflTransGen (Step host vm)

end

section

variable {H : Type} {host : Host H} {vm : Vm H} {s s' : Traffic}

structure Numbered (s : Traffic) : Prop where
  spoken : ∀ q ∈ s.requests, Spoken q.awaited q.body
  ids : (s.requests.flatMap fun q => q.awaited.ids).Sublist ((List.range' 0 s.taken).map idOf)

theorem step_numbered (hstep : Step host vm s s') (hs : Numbered s) : Numbered s' := by
  cases hstep with
  | @sends m n taken h h' q hrequest =>
    obtain ⟨k, rfl, hq⟩ := request_takes m _ _ _ _ _ hrequest
    obtain ⟨hspoken, hids, -⟩ := hq q rfl
    refine ⟨fun q' hq' => ?_, ?_⟩
    · rcases List.mem_append.mp hq' with hq' | hq'
      · exact hs.spoken q' hq'
      · rw [List.mem_singleton.mp hq']
        exact hspoken
    · rw [List.flatMap_append, List.flatMap_singleton, hids, ← List.range'_append_1,
        List.map_append, Nat.zero_add]
      exact hs.ids.append (.refl _)
  | @raises m n taken h h' e hrequest =>
    obtain ⟨k, rfl, -⟩ := request_takes m _ _ _ _ _ hrequest
    refine ⟨hs.spoken, ?_⟩
    rw [← List.range'_append_1, List.map_append]
    exact hs.ids.trans (List.sublist_append_left _ _)
  | replies | delivers | fails => exact ⟨hs.spoken, hs.ids⟩

theorem run_numbered (hrun : Run host vm .none s) : Numbered s := by
  induction hrun with
  | refl => exact ⟨fun q hq => (List.not_mem_nil hq).elim, .refl _⟩
  | tail _ hstep ih => exact step_numbered hstep ih

theorem step_requests (hstep : Step host vm s s') {k : Nat} {q : Request}
    (hk : s.requests[k]? = some q) : s'.requests[k]? = some q := by
  cases hstep with
  | sends => exact List.getElem?_append_left (List.getElem?_eq_some_iff.mp hk).1 ▸ hk
  | raises | replies | delivers | fails => exact hk

def Settled.Follows (host : Host H) (s : Traffic) (o : Settled) : Prop :=
  ∃ q, s.requests[o.request]? = some q ∧ ∀ reply, o.reply = some reply →
    reply ∈ s.replies ∧ o.result = q.awaited.settle host (.success (.ok reply.body))

def Reply.Follows (s : Traffic) (reply : Reply) : Prop :=
  ∃ q, s.requests[reply.request]? = some q ∧ Answered reply.answers q.body reply.body

structure Routes (host : Host H) (s : Traffic) : Prop where
  replies : ∀ reply ∈ s.replies, reply.Follows s
  settled : ∀ o ∈ s.settled, o.Follows host s

theorem step_replies (hstep : Step host vm s s') {reply : Reply} (hreply : reply ∈ s.replies) :
    reply ∈ s'.replies := by
  cases hstep with
  | replies => exact List.mem_append_left _ hreply
  | sends | raises | delivers | fails => exact hreply

theorem Reply.Follows.step {reply : Reply} (hreply : reply.Follows s)
    (hstep : Step host vm s s') : reply.Follows s' := by
  obtain ⟨q, hq, hanswered⟩ := hreply
  exact ⟨q, step_requests hstep hq, hanswered⟩

theorem Settled.Follows.step {o : Settled} (ho : o.Follows host s)
    (hstep : Step host vm s s') : o.Follows host s' := by
  obtain ⟨q, hq, hby⟩ := ho
  refine ⟨q, step_requests hstep hq, fun reply hreply => ?_⟩
  exact ⟨step_replies hstep (hby reply hreply).1, (hby reply hreply).2⟩

theorem step_routes (hstep : Step host vm s s') (hs : Routes host s) : Routes host s' := by
  have hreplies : ∀ reply ∈ s.replies, reply.Follows s' := fun reply hreply =>
    (hs.replies reply hreply).step hstep
  have hsettled : ∀ o ∈ s.settled, o.Follows host s' := fun o ho => (hs.settled o ho).step hstep
  cases hstep with
  | sends | raises => exact ⟨hreplies, hsettled⟩
  | @replies k q answers body hk hanswered =>
    refine ⟨fun reply hreply => ?_, hsettled⟩
    rcases List.mem_append.mp hreply with hreply | hreply
    · exact hreplies reply hreply
    · obtain rfl := List.mem_singleton.mp hreply
      exact ⟨q, hk, hanswered⟩
  | @delivers k q reply hk hreply =>
    refine ⟨hreplies, fun o ho => ?_⟩
    rcases List.mem_append.mp ho with ho | ho
    · exact hsettled o ho
    · obtain rfl := List.mem_singleton.mp ho
      refine ⟨q, hk, fun reply' heq => ?_⟩
      obtain rfl := Option.some.inj heq
      exact ⟨hreply, rfl⟩
  | @fails k q response hk hresponse =>
    refine ⟨hreplies, fun o ho => ?_⟩
    rcases List.mem_append.mp ho with ho | ho
    · exact hsettled o ho
    · obtain rfl := List.mem_singleton.mp ho
      exact ⟨q, hk, fun reply heq => by cases heq⟩

theorem run_routes (hrun : Run host vm .none s) : Routes host s := by
  induction hrun with
  | refl => exact ⟨fun _ h => (List.not_mem_nil h).elim, fun _ h => (List.not_mem_nil h).elim⟩
  | tail _ hstep ih => exact step_routes hstep ih

/-- While its ids have not been used up, a client takes for the result of a request what the server
has said to that very request, with the answers to a batch in the order of its calls, and no reply
to another request for an answer to this one. -/
theorem run_answers (hrun : Run host vm .none s) (htaken : s.taken ≤ 2 ^ 64) {o : Settled}
    (ho : o ∈ s.settled) {reply : Reply} (hreply : o.reply = some reply) :
    ∃ q, s.requests[o.request]? = some q ∧
      (reply.request = o.request → o.result = q.awaited.expected host.texts reply.answers) ∧
      (reply.request ≠ o.request → q.awaited.Unanswered host.texts o.result) := by
  have hnumbered := run_numbered hrun
  have hroutes := run_routes hrun
  obtain ⟨hown, hpairwise⟩ := List.nodup_flatMap.mp ((idOf_nodup htaken).sublist hnumbered.ids)
  obtain ⟨q, hq, hby⟩ := hroutes.settled o ho
  obtain ⟨hmem, hresult⟩ := hby reply hreply
  obtain ⟨q', hq', hanswered⟩ := hroutes.replies reply hmem
  have hspoken' := hnumbered.spoken q' (List.mem_of_getElem? hq')
  refine ⟨q, hq, fun heq => ?_, fun hne => ?_⟩
  · rw [heq, hq] at hq'
    obtain rfl := Option.some.inj hq'
    rw [hresult]
    exact settle_own hspoken' (hown q (List.mem_of_getElem? hq)) hanswered
  · rw [hresult]
    refine settle_foreign hspoken' ?_ hanswered
    obtain ⟨hlt, rfl⟩ := List.getElem?_eq_some_iff.mp hq
    obtain ⟨hlt', rfl⟩ := List.getElem?_eq_some_iff.mp hq'
    rw [List.pairwise_iff_getElem] at hpairwise
    rcases Nat.lt_or_gt_of_ne hne with hless | hgreater
    · exact hpairwise _ _ hlt' hlt hless
    · exact (hpairwise _ _ hlt hlt' hgreater).symm

/-- In every run a client sends requests of JSON-RPC, whose ids in the order of the requests are
some of 1, 2, 3, … in their order, and are pairwise different as long as these are. -/
theorem run_ids (hrun : Run host vm .none s) :
    (∀ q ∈ s.requests, Spoken q.awaited q.body) ∧
      (s.requests.flatMap fun q => q.awaited.ids).Sublist ((List.range' 0 s.taken).map idOf) ∧
      (s.taken ≤ 2 ^ 64 → (s.requests.flatMap fun q => q.awaited.ids).Nodup) :=
  have hs := run_numbered hrun
  ⟨hs.spoken, hs.ids, fun htaken => (idOf_nodup htaken).sublist hs.ids⟩

end

def astray : Traffic where
  taken := 2
  requests := [pinged 0, pinged 1]
  replies := [⟨1, fun _ => .result (.bool true), pong 2⟩]
  settled := [⟨0, some ⟨1, fun _ => .result (.bool true), pong 2⟩,
    (pinged 0).awaited.settle noHost (.success (.ok (pong 2)))⟩]

theorem astray_run : Run noHost noCode .none astray := by
  have hfirst : Step noHost noCode .none ⟨1, [pinged 0], [], []⟩ := .sends (ping_request 0)
  have hsecond : Step noHost noCode ⟨1, [pinged 0], [], []⟩ ⟨2, [pinged 0, pinged 1], [], []⟩ :=
    .sends (ping_request 1)
  have hreply : Step noHost noCode ⟨2, [pinged 0, pinged 1], [], []⟩
      ⟨2, [pinged 0, pinged 1], astray.replies, []⟩ := .replies rfl (pong_answers 1)
  have hdelivered : Step noHost noCode ⟨2, [pinged 0, pinged 1], astray.replies, []⟩ astray :=
    .delivers (k := 0) rfl (List.mem_singleton_self _)
  exact .tail (.tail (.tail (.single hfirst) hsecond) hreply) hdelivered

theorem astray_answers : ∃ q, astray.requests[0]? = some q ∧
    (1 = 0 → (pinged 0).awaited.settle noHost (.success (.ok (pong 2))) =
      q.awaited.expected noTexts fun _ => .result (.bool true)) ∧
    (1 ≠ 0 → q.awaited.Unanswered noTexts
      ((pinged 0).awaited.settle noHost (.success (.ok (pong 2))))) :=
  run_answers astray_run (by decide) (List.mem_singleton_self _) rfl

theorem astray_ids :
    (∀ q ∈ astray.requests, Spoken q.awaited q.body) ∧
      (astray.requests.flatMap fun q => q.awaited.ids).Sublist ((List.range' 0 2).map idOf) ∧
      (2 ≤ 2 ^ 64 → (astray.requests.flatMap fun q => q.awaited.ids).Nodup) :=
  run_ids astray_run

end Rpc

end Luaml
