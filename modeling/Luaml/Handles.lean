import Luaml.Executor
import Luaml.Lib.Handles

/-! The API bindings of an engine, those with a handler and the local ones, whose ids come from one
counter: `register_api` to `unregister_local_api` in `src/lib.rs`. -/

namespace Luaml

open Rust Lua

structure LocalApiBindingEntry (H : Type) where
  id : Nat
  spec : LocalApiBindingSpec H

/-- An id is a `u64` in the source, and agrees with it as long as it is below `2 ^ 64`. -/
structure Apis (H : Type) where
  apiBindings : List (ApiBindingEntry H)
  localApiBindings : List (LocalApiBindingEntry H)
  nextApiId : Nat

namespace Apis

variable {H : Type}

def new : Apis H := ⟨[], [], 0⟩

def bindings (apis : Apis H) : ApiBindings H := ⟨apis.apiBindings, apis.nextApiId⟩

def withBindings (apis : Apis H) (bindings : ApiBindings H) : Apis H :=
  { apis with apiBindings := bindings.entries, nextApiId := bindings.nextId }

def registerApi (apis : Apis H) (spec : ApiBindingSpec H) : Nat × Apis H :=
  let (id, bindings) := apis.bindings.registerApi spec
  (id, apis.withBindings bindings)

def unregisterApi (apis : Apis H) (id : Nat) : Bool × Apis H :=
  let (removed, bindings) := apis.bindings.unregisterApi id
  (removed, apis.withBindings bindings)

def replaceApi (apis : Apis H) (id : Nat) (spec : ApiBindingSpec H) : Bool × Apis H :=
  let (replaced, bindings) := apis.bindings.replaceApi id spec
  (replaced, apis.withBindings bindings)

def registerLocalApi (apis : Apis H) (spec : LocalApiBindingSpec H) : Nat × Apis H :=
  (apis.nextApiId, { apis with
    localApiBindings := apis.localApiBindings ++ [⟨apis.nextApiId, spec⟩]
    nextApiId := apis.nextApiId + 1 })

def unregisterLocalApi (apis : Apis H) (id : Nat) : Bool × Apis H :=
  let localApiBindings := apis.localApiBindings.filter fun e => e.id ≠ id
  (localApiBindings.length != apis.localApiBindings.length,
    { apis with localApiBindings := localApiBindings })

end Apis

variable {H : Type}

inductive ApiCall (H : Type)
  | registerApi (spec : ApiBindingSpec H)
  | unregisterApi (id : Nat)
  | replaceApi (id : Nat) (spec : ApiBindingSpec H)
  | registerLocalApi (spec : LocalApiBindingSpec H)
  | unregisterLocalApi (id : Nat)

inductive ApiReturn
  | id (id : Nat)
  | done (changed : Bool)
  deriving DecidableEq

def ApiCall.run : ApiCall H → Apis H → ApiReturn × Apis H
  | .registerApi spec, apis => (apis.registerApi spec).map .id id
  | .unregisterApi id, apis => (apis.unregisterApi id).map .done fun apis => apis
  | .replaceApi id spec, apis => (apis.replaceApi id spec).map .done fun apis => apis
  | .registerLocalApi spec, apis => (apis.registerLocalApi spec).map .id id
  | .unregisterLocalApi id, apis => (apis.unregisterLocalApi id).map .done fun apis => apis

def ApiCall.runAll : List (ApiCall H) → Apis H → List ApiReturn × Apis H
  | [], apis => ([], apis)
  | call :: calls, apis =>
    let (r, apis) := call.run apis
    let (rs, apis) := runAll calls apis
    (r :: rs, apis)

/-- What each id that has been given out stands for, if for anything. -/
structure ApiTable (H : Type) where
  api : Nat → Option (ApiBindingSpec H)
  localApi : Nat → Option (LocalApiBindingSpec H)
  issued : Nat

def ApiTable.none : ApiTable H := ⟨fun _ => .none, fun _ => .none, 0⟩

def ApiCall.act : ApiCall H → ApiTable H → ApiReturn × ApiTable H
  | .registerApi spec, t =>
    (.id t.issued, { t with
      api := Function.update t.api t.issued (some spec)
      issued := t.issued + 1 })
  | .unregisterApi id, t =>
    (.done (t.api id).isSome, { t with api := Function.update t.api id .none })
  | .replaceApi id spec, t =>
    (.done (t.api id).isSome,
      { t with api := Function.update t.api id ((t.api id).map fun _ => spec) })
  | .registerLocalApi spec, t =>
    (.id t.issued, { t with
      localApi := Function.update t.localApi t.issued (some spec)
      issued := t.issued + 1 })
  | .unregisterLocalApi id, t =>
    (.done (t.localApi id).isSome, { t with localApi := Function.update t.localApi id .none })

def ApiCall.actAll : List (ApiCall H) → ApiTable H → List ApiReturn × ApiTable H
  | [], t => ([], t)
  | call :: calls, t =>
    let (r, t) := call.act t
    let (rs, t) := actAll calls t
    (r :: rs, t)

/-- The lists have what the ids stand for, oldest first, and no id is given out twice: one that has
not been given out stands for nothing, and no id for two bindings. -/
structure Apis.Lists (apis : Apis H) (t : ApiTable H) : Prop where
  apiBindings : apis.apiBindings = Handles.listed ApiBindingEntry.mk t.issued t.api
  localApiBindings :
    apis.localApiBindings = Handles.listed LocalApiBindingEntry.mk t.issued t.localApi
  nextApiId : apis.nextApiId = t.issued
  unissued : ∀ id ≥ t.issued, t.api id = .none ∧ t.localApi id = .none
  single : ∀ id, t.api id = .none ∨ t.localApi id = .none

theorem replaceEntry_eq (id : Nat) (spec : ApiBindingSpec H) {entries : List (ApiBindingEntry H)}
    (hnodup : (entries.map ApiBindingEntry.id).Nodup) :
    ApiBindings.replaceEntry id spec entries =
      (decide (∃ e ∈ entries, e.id = id),
        entries.map fun e => if e.id = id then ⟨id, spec⟩ else e) := by
  induction entries with
  | nil => simp [ApiBindings.replaceEntry]
  | cons e entries ih =>
    obtain ⟨hnotMem, hnodup⟩ := List.nodup_cons.mp hnodup
    rw [ApiBindings.replaceEntry]
    by_cases hid : e.id = id
    · have hrest : ∀ e' ∈ entries, ¬e'.id = id := fun e' he' heq =>
        hnotMem (List.mem_map.mpr ⟨e', he', heq.trans hid.symm⟩)
      rw [if_pos hid, List.map_cons, if_pos hid, List.map_congr_left fun e' he' =>
        if_neg (hrest e' he'), List.map_id', hid]
      simp [hid]
    · rw [if_neg hid, ih hnodup]
      simp [hid]

theorem run_lists {apis : Apis H} {t : ApiTable H} (h : apis.Lists t) (call : ApiCall H) :
    (call.run apis).1 = (call.act t).1 ∧ (call.run apis).2.Lists (call.act t).2 := by
  obtain ⟨hentries, hlocals, hnext, hunissued, hsingle⟩ := h
  cases call with
  | registerApi spec =>
    refine ⟨congrArg ApiReturn.id hnext, ?_, ?_, congrArg (· + 1) hnext, fun id hid => ?_,
      fun id => ?_⟩
    · change apis.apiBindings ++ [⟨apis.nextApiId, spec⟩] = _
      rw [hentries, hnext]
      exact (Handles.listed_issue _ _ _).symm
    · change apis.localApiBindings = _
      rw [hlocals]
      exact (Handles.listed_skip (hunissued _ le_rfl).2).symm
    · obtain ⟨hapi, hlocal⟩ := hunissued id (Nat.le_of_succ_le hid)
      exact ⟨(Function.update_of_ne (Nat.ne_of_gt hid) _ _).trans hapi, hlocal⟩
    · by_cases heq : id = t.issued
      · exact .inr (hunissued id heq.ge).2
      · exact (hsingle id).imp_left (Function.update_of_ne heq _ _).trans
  | unregisterApi id =>
    refine ⟨?_, ?_, hlocals, hnext, fun i hi => ?_, fun i => ?_⟩
    · change ApiReturn.done ((apis.apiBindings.filter fun e => e.id ≠ id).length !=
        apis.apiBindings.length) = _
      rw [hentries]
      exact congrArg _
        (Handles.listed_retire_length (fun _ _ => rfl) fun i hi => (hunissued i hi).1)
    · change apis.apiBindings.filter (fun e => e.id ≠ id) = _
      rw [hentries]
      exact Handles.listed_retire (fun _ _ => rfl) _ _ _
    · exact ⟨Handles.update_eq_none (fun _ => rfl) (hunissued i hi).1, (hunissued i hi).2⟩
    · exact (hsingle i).imp_left (Handles.update_eq_none fun _ => rfl)
  | replaceApi id spec =>
    have hput : t.api id = none → (t.api id).map (fun _ => spec) = none := fun hid => by
      rw [hid]; rfl
    have hnodup : (apis.apiBindings.map ApiBindingEntry.id).Nodup := by
      rw [hentries]
      exact Handles.listed_nodup (fun _ _ => rfl) _ _
    have hreplaced := replaceEntry_eq id spec hnodup
    refine ⟨?_, ?_, hlocals, hnext, fun i hi => ?_, fun i => ?_⟩
    · change ApiReturn.done (ApiBindings.replaceEntry id spec apis.apiBindings).1 = _
      rw [hreplaced, hentries]
      refine congrArg ApiReturn.done (Bool.eq_iff_iff.mpr ?_)
      rw [decide_eq_true_iff]
      exact Handles.listed_found (fun _ _ => rfl) fun i hi => (hunissued i hi).1
    · change (ApiBindings.replaceEntry id spec apis.apiBindings).2 = _
      rw [hreplaced, hentries]
      exact Handles.listed_put (fun _ _ => rfl) _ _ _ _
    · exact ⟨Handles.update_eq_none hput (hunissued i hi).1, (hunissued i hi).2⟩
    · exact (hsingle i).imp_left (Handles.update_eq_none hput)
  | registerLocalApi spec =>
    refine ⟨congrArg ApiReturn.id hnext, ?_, ?_, congrArg (· + 1) hnext, fun id hid => ?_,
      fun id => ?_⟩
    · change apis.apiBindings = _
      rw [hentries]
      exact (Handles.listed_skip (hunissued _ le_rfl).1).symm
    · change apis.localApiBindings ++ [⟨apis.nextApiId, spec⟩] = _
      rw [hlocals, hnext]
      exact (Handles.listed_issue _ _ _).symm
    · obtain ⟨hapi, hlocal⟩ := hunissued id (Nat.le_of_succ_le hid)
      exact ⟨hapi, (Function.update_of_ne (Nat.ne_of_gt hid) _ _).trans hlocal⟩
    · by_cases heq : id = t.issued
      · exact .inl (hunissued id heq.ge).1
      · exact (hsingle id).imp_right (Function.update_of_ne heq _ _).trans
  | unregisterLocalApi id =>
    refine ⟨?_, hentries, ?_, hnext, fun i hi => ?_, fun i => ?_⟩
    · change ApiReturn.done ((apis.localApiBindings.filter fun e => e.id ≠ id).length !=
        apis.localApiBindings.length) = _
      rw [hlocals]
      exact congrArg _
        (Handles.listed_retire_length (fun _ _ => rfl) fun i hi => (hunissued i hi).2)
    · change apis.localApiBindings.filter (fun e => e.id ≠ id) = _
      rw [hlocals]
      exact Handles.listed_retire (fun _ _ => rfl) _ _ _
    · exact ⟨(hunissued i hi).1, Handles.update_eq_none (fun _ => rfl) (hunissued i hi).2⟩
    · exact (hsingle i).imp_right (Handles.update_eq_none fun _ => rfl)

theorem new_lists : (Apis.new : Apis H).Lists .none :=
  ⟨rfl, rfl, rfl, fun _ _ => ⟨rfl, rfl⟩, fun _ => .inl rfl⟩

theorem runAll_lists {apis : Apis H} {t : ApiTable H} (h : apis.Lists t)
    (calls : List (ApiCall H)) :
    (ApiCall.runAll calls apis).1 = (ApiCall.actAll calls t).1 ∧
      (ApiCall.runAll calls apis).2.Lists (ApiCall.actAll calls t).2 := by
  induction calls generalizing apis t with
  | nil => exact ⟨rfl, h⟩
  | cons call calls ih =>
    obtain ⟨hreturn, hlists⟩ := run_lists h call
    obtain ⟨hreturns, hlists⟩ := ih hlists
    exact ⟨congrArg₂ List.cons hreturn hreturns, hlists⟩

/-- However the host registers, replaces and unregisters, what it is told is what a table of the ids
that have been given out says, and the engine's lists have the bindings of that table in the order
in which their ids were given out: no id is given out twice or for both kinds, one that has been
unregistered is never in use again, and a replaced binding keeps its place. -/
theorem runAll_table (calls : List (ApiCall H)) :
    (ApiCall.runAll calls .new).1 = (ApiCall.actAll calls .none).1 ∧
      (ApiCall.runAll calls .new).2.Lists (ApiCall.actAll calls .none).2 :=
  runAll_lists new_lists calls

end Luaml
