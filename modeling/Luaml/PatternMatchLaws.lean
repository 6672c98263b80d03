import Luaml.PatternMatch

namespace Luaml.Pattern

open Rust Str

/-- The field takes what the event has under its key. -/
def FieldMatches (event : FieldMap) (field : Str × Pattern) : Prop :=
  match Map.get event field.1 with
  | some value => (matchFieldValue field.2 value).isSome
  | none => isGlobalEnum field.2

theorem matchFieldsFrom_isSome (event : FieldMap) (fields : List (Str × Pattern))
    (bindings : FieldBindings) :
    (matchFieldsFrom event fields bindings).isSome ↔ ∀ f ∈ fields, FieldMatches event f := by
  induction fields generalizing bindings with
  | nil => simp [matchFieldsFrom]
  | cons f fields ih =>
    obtain ⟨key, pattern⟩ := f
    rw [matchFieldsFrom, List.forall_mem_cons, FieldMatches]
    cases hget : Map.get event key with
    | none => cases isGlobalEnum pattern <;> simp [ih]
    | some value => cases hvalue : matchFieldValue pattern value <;> simp [hvalue, ih]

theorem matchFields_isSome (fields : List (Str × Pattern)) (event : FieldMap) :
    (matchFields fields event).isSome ↔ ∀ f ∈ fields, FieldMatches event f :=
  matchFieldsFrom_isSome event fields []

theorem matchList_headTail_isSome (head tail : Pattern) (v : FieldValue) (vs : List FieldValue) :
    (matchList (.headTail head tail) (v :: vs)).isSome ↔
      (matchFieldValue head v).isSome ∧ (matchFieldValue tail (.list vs)).isSome := by
  rw [matchList]
  cases matchFieldValue head v <;> cases matchFieldValue tail (.list vs) <;> simp

theorem matchElements_isSome (ps : List Pattern) (vs : List FieldValue) (bindings : FieldBindings)
    (h : List.Forall₂ (fun p v => (matchFieldValue p v).isSome) ps vs) :
    (matchElements ps vs bindings).isSome := by
  induction h generalizing bindings with
  | nil => simp [matchElements]
  | cons hv _ ih =>
    obtain ⟨sub, hsub⟩ := Option.isSome_iff_exists.mp hv
    rw [matchElements, hsub]
    exact ih _

theorem matchMap_isSome (fields : List (Str × Pattern)) (entries : List (Str × FieldValue))
    (bindings : FieldBindings) :
    (matchMap fields entries bindings).isSome ↔
      ∀ f ∈ fields, ∃ v, Map.get entries f.1 = some v ∧ (matchFieldValue f.2 v).isSome := by
  induction fields generalizing bindings with
  | nil => simp [matchMap]
  | cons f fields ih =>
    obtain ⟨key, p⟩ := f
    rw [matchMap, List.forall_mem_cons]
    cases hget : Map.get entries key with
    | none => simp
    | some v => cases hvalue : matchFieldValue p v <;> simp [hvalue, ih]

end Luaml.Pattern
