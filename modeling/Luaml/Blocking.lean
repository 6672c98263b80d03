import Luaml.ClientLaws
import Luaml.WaitAll

namespace Luaml

open Rust Serde Lua Thread

namespace Rpc

open Json

variable {H : Type} {host : Host H} {vm : Vm H} {awaited : Awaited} {response : Response}

theorem get_sound {j : JsonValue} (hj : j.Sound) {key : Str} {v : JsonValue}
    (hv : j.get key = some v) : v.Sound := by
  cases j with
  | object members =>
    exact JsonValue.everyMember_iff.mp hj.2 (key, v) (Map.mem_of_get hv)
  | _ => cases hv

theorem single_sound {reply result : JsonValue} {id : UInt64} (hreply : reply.Sound)
    (hresult : extractSingleResult host reply id = .ok result) : result.Sound := by
  rw [extractSingleResult] at hresult
  split at hresult
  · cases hresult
  · split at hresult
    · split_ifs at hresult
      split at hresult
      · next found => cases hresult; exact get_sound hreply found
      · cases hresult
    · cases hresult

theorem parseServerError_sound {err : JsonValue} (herr : err.Sound) :
    (parseServerError err).data.Sound := by
  change ((err.get "data".toList).getD .null).Sound
  cases hdata : err.get "data".toList with
  | none => exact trivial
  | some data => exact get_sound herr hdata

theorem entry_sound {id : UInt64} {item : Option JsonValue}
    (hitem : ∀ j, item = some j → j.Sound) : (replyEntry id item).Sound := by
  cases item with
  | none => exact trivial
  | some item =>
    have hsound := hitem item rfl
    rw [replyEntry]
    split
    · next err result herr =>
      exact parseServerError_sound (get_sound hsound (Option.filter_eq_some_iff.mp herr).1)
    · next result _ hresult => exact get_sound hsound hresult
    · exact trivial

theorem entries_sound {reply : JsonValue} {ids : List UInt64} {entries : List BatchEntry}
    (hreply : reply.Sound) (hentries : correlateBatchResponse reply ids = .ok entries) :
    (∀ e ∈ entries, e.Sound) ∧ entries.length = ids.length := by
  cases reply with
  | array items =>
    rw [correlateBatchResponse_eq] at hentries
    cases hentries
    refine ⟨fun e he => ?_, List.length_map _⟩
    obtain ⟨id, -, rfl⟩ := List.mem_map.mp he
    refine entry_sound fun item hitem => ?_
    have hmem := List.mem_of_mem_filter (List.mem_of_getLast? hitem)
    exact JsonValue.everyItem_iff.mp hreply.2 item hmem
  | _ => cases hentries

theorem settle_sound (hids : awaited.ids.length < 2 ^ 63)
    (hsound : ∀ reply, response = .success (.ok reply) → reply.Sound) {f : FieldValue}
    (hf : awaited.settle host response = .ok f) : f.Sound := by
  cases response with
  | sendError | status => cases awaited <;> cases hf
  | success body =>
    cases body with
    | error e =>
      cases awaited with
      | nothing => cases hf; trivial
      | result | entries => cases hf
    | ok reply =>
      have hreply := hsound reply rfl
      cases awaited with
      | nothing => cases hf; trivial
      | result id =>
        rw [settle_result] at hf
        cases hresult : extractSingleResult host reply id with
        | error e => rw [hresult] at hf; cases hf
        | ok result =>
          rw [hresult] at hf
          cases hf
          exact jsonToField_sound _ (single_sound hreply hresult)
      | entries ids =>
        rw [settle_entries] at hf
        cases hentries : correlateBatchResponse reply ids with
        | error e => rw [hentries] at hf; cases hf
        | ok entries =>
          rw [hentries] at hf
          cases hf
          obtain ⟨hall, hlen⟩ := entries_sound hreply hentries
          exact batchEntriesToField_sound _ hall (hlen ▸ hids)

theorem toLua_eq (hsound : ∀ reply, response = .success (.ok reply) → reply.Sound) :
    awaited.toLua host vm response = deliver vm (awaited.settle host response) := by
  cases response with
  | sendError | status => cases awaited <;> rfl
  | success body =>
    cases body with
    | error e => cases awaited <;> rfl
    | ok reply =>
      have hreply := hsound reply rfl
      cases awaited with
      | nothing => rfl
      | result id =>
        rw [settle_result]
        change (LuaM.ofExcept (extractSingleResult host reply id) >>= _) = _
        cases hresult : extractSingleResult host reply id with
        | error e => rfl
        | ok result => exact jsonToLua_eq _ _ (single_sound hreply hresult)
      | entries ids =>
        rw [settle_entries]
        change (LuaM.ofExcept (correlateBatchResponse reply ids) >>= _) = _
        cases hentries : correlateBatchResponse reply ids with
        | error e => rfl
        | ok entries => exact batchEntriesToLua_eq (entries_sound hreply hentries).1

/-- How a task ends that comes to that, in whatever order its maps give their entries. -/
inductive EndsWith : Except Str FieldValue → Joined → Prop
  | ok {f g : FieldValue} : FieldValue.Same f g → EndsWith (.ok g) (.ok f)
  | err (e : Str) : EndsWith (.error e) (.err e)

/-- The same outcome in two heaps: the same content, or the same error with nothing changed. -/
inductive AlikeOutcome (h h' : Heap H) : Except Str LuaValue → Except Str LuaValue → Prop
  | ok {v v' : LuaValue} : Alike (· = ·) h h' v v' → AlikeOutcome h h' (.ok v) (.ok v')
  | error (e : Str) : h = h' → AlikeOutcome h h' (.error e) (.error e)

/-- A method that blocks comes to what awaiting the promise of its twin comes to, for the same
response, and takes the same ids. -/
theorem blocking_awaits {m : Method} {n taken taken' : Nat} {h h₁ : Heap H} {q : Request}
    {post : JsonValue → Response} {texts : Thread.Texts} {w : World H} {ud : LuaValue}
    {task : Task} (hrequest : m.request host vm n taken h = some (.ok q, taken', h₁))
    (hsound : ∀ reply, post q.body = .success (.ok reply) → reply.Sound)
    (hheap : w.heap = h₁) (hslot : w.slot ud = some (some task))
    (hends : EndsWith (q.awaited.settle host (post q.body)) task.joined)
    (hfinished : ∃ moment, task.isFinished moment = true) :
    ∃ moments r w' r' h', Thread.await vm texts moments ud w = some (r, w') ∧
      m.blocking host vm n post taken h = some (r', taken', h') ∧
        AlikeOutcome h' w'.heap r' r := by
  obtain ⟨k, -, hq⟩ := request_takes m _ _ _ _ _ hrequest
  obtain ⟨-, -, hids⟩ := hq q rfl
  have hfinish : ∀ handle, w.slot ud = some (some handle) →
      ∃ moment, handle.isFinished moment = true := fun handle hhandle => by
    cases hslot.symm.trans hhandle
    exact hfinished
  obtain ⟨moments, ⟨r, w'⟩, hr⟩ : ∃ n r, Thread.await vm texts n ud w = some r :=
    await_ends hfinish
  have hawait : (r, w'.heap) = deliver vm task.joined.result h₁ := by
    rw [(await_awaits hr).result, hheap, World.outcome, hslot]
  have hblocking : m.blocking host vm n post taken h =
      some ((deliver vm (q.awaited.settle host (post q.body)) h₁).1, taken',
        (deliver vm (q.awaited.settle host (post q.body)) h₁).2) := by
    rw [← toLua_eq hsound]
    change CountM.bind (m.request host vm n) _ taken h = _
    rw [CountM.bind, hrequest]
    rfl
  generalize task.joined = joined at hends hawait
  cases hsettled : q.awaited.settle host (post q.body) with
  | error e =>
    rw [hsettled] at hends hblocking
    cases hends
    cases hawait
    exact ⟨moments, _, w', _, _, hr, hblocking, .error e rfl⟩
  | ok g =>
    rw [hsettled] at hends hblocking
    cases hends with
    | @ok f _ hsame =>
      obtain ⟨v, h₂, v', h₃, hg, hf, halike⟩ :=
        fieldValueToLua_alike hsame (settle_sound hids hsound hsettled) h₁
      rw [deliver, hg] at hblocking
      rw [Joined.result, deliver, hf] at hawait
      cases hawait
      exact ⟨moments, _, w', _, _, hr, hblocking, .ok halike⟩

theorem blocking_awaits_pong : ∃ moments r w' r' h',
    Thread.await noCode Thread.noTexts moments (.userdata 0)
        ⟨fun _ => some (some ⟨fun _ => true, fun _ _ _ h => h, .ok (.bool true)⟩), 0, []⟩ =
      some (r, w') ∧
    ping.blocking noHost noCode 1 (fun _ => .success (.ok (pong 1))) 0 [] = some (r', 1, h') ∧
      AlikeOutcome h' w'.heap r' r := by
  refine blocking_awaits (ping_request 0) ?_ rfl rfl (.ok (.bool true)) ⟨0, rfl⟩
  intro reply hreply
  cases hreply
  have hascending : BTreeMap.Ascending Str.cmp [("id".toList, JsonValue.number (.posInt 1)),
      ("result".toList, .bool true)] := .cons (by simp; rfl) (List.pairwise_singleton _ _)
  exact ⟨hascending, trivial, trivial, trivial⟩

end Rpc

end Luaml
