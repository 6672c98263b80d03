import Luaml.PatternMatchLaws
import Luaml.Registry

namespace Luaml.Pattern

open Rust Str

mutual
/-- `match_field_value`, but that a pin takes the value its name has in the context. -/
def matchPinned (context : FieldBindings) : Pattern → FieldValue → Option FieldBindings
  | .pin name, value => matchFieldValueWithContext (.pin name) value context
  | .list p, .list array => matchListPinned context p array
  | .list _, _ => none
  | .map fields, .map entries => matchMapPinned context fields entries []
  | .map _, _ => none
  | .wildcard, value => matchFieldValue .wildcard value
  | .enum name, value => matchFieldValue (.enum name) value
  | .stringLiteral text, value => matchFieldValue (.stringLiteral text) value
  | .numberLiteral n, value => matchFieldValue (.numberLiteral n) value
  | .boolLiteral b, value => matchFieldValue (.boolLiteral b) value
  | .variable name, value => matchFieldValue (.variable name) value

def matchListPinned (context : FieldBindings) :
    ListPattern → List FieldValue → Option FieldBindings
  | .empty, array => if array.isEmpty then some [] else none
  | .headTail _ _, [] => none
  | .headTail head tail, headVal :: tailVals =>
    match matchPinned context head headVal, matchPinned context tail (.list tailVals) with
    | some bindings, some tailBindings => some (Map.extend bindings tailBindings)
    | _, _ => none
  | .elements patterns, array =>
    if array.length ≠ patterns.length then none else matchElementsPinned context patterns array []

def matchElementsPinned (context : FieldBindings) :
    List Pattern → List FieldValue → FieldBindings → Option FieldBindings
  | pat :: pats, val :: vals, bindings =>
    match matchPinned context pat val with
    | some sub => matchElementsPinned context pats vals (Map.extend bindings sub)
    | none => none
  | _, _, bindings => some bindings

def matchMapPinned (context : FieldBindings) :
    List (Str × Pattern) → List (Str × FieldValue) → FieldBindings → Option FieldBindings
  | [], _, bindings => some bindings
  | (key, pat) :: fields, entries, bindings =>
    match Map.get entries key with
    | none => none
    | some val =>
      match matchPinned context pat val with
      | some sub => matchMapPinned context fields entries (Map.extend bindings sub)
      | none => none
end

def matchFieldsPinnedFrom (input : FieldMap) :
    List (Str × Pattern) → FieldBindings → Option FieldBindings
  | [], allBindings => some allBindings
  | (key, pattern) :: fields, allBindings =>
    match Map.get input key with
    | some value =>
      match matchPinned allBindings pattern value with
      | some bindings => matchFieldsPinnedFrom input fields (Map.extend allBindings bindings)
      | none => none
    | none =>
      if isGlobalEnum pattern then matchFieldsPinnedFrom input fields allBindings else none

def matchFieldsPinned (fields : List (Str × Pattern)) (input : FieldMap) :
    Option FieldBindings :=
  matchFieldsPinnedFrom input fields []

mutual
def hasPin : Pattern → Bool
  | .pin _ => true
  | .list p => hasPinList p
  | .map fields => hasPinFields fields
  | .wildcard | .enum _ | .stringLiteral _ | .numberLiteral _ | .boolLiteral _ | .variable _ =>
    false

def hasPinList : ListPattern → Bool
  | .empty => false
  | .headTail head tail => hasPin head || hasPin tail
  | .elements patterns => hasPinElements patterns

def hasPinElements : List Pattern → Bool
  | [] => false
  | p :: ps => hasPin p || hasPinElements ps

def hasPinFields : List (Str × Pattern) → Bool
  | [] => false
  | (_, p) :: fields => hasPin p || hasPinFields fields
end

mutual
theorem matchFieldValue_of_hasPin (p : Pattern) (value : FieldValue) (h : hasPin p) :
    matchFieldValue p value = none := by
  cases p with
  | pin name => simp [matchFieldValue]
  | list p =>
    cases value with
    | list array =>
      simpa [matchFieldValue] using matchList_of_hasPin p array (by simpa [hasPin] using h)
    | _ => simp [matchFieldValue]
  | map fields =>
    cases value with
    | map entries =>
      simpa [matchFieldValue] using matchMap_of_hasPin fields entries [] (by simpa [hasPin] using h)
    | _ => simp [matchFieldValue]
  | _ => simp [hasPin] at h

theorem matchList_of_hasPin (p : ListPattern) (array : List FieldValue) (h : hasPinList p) :
    matchList p array = none := by
  cases p with
  | empty => simp [hasPinList] at h
  | headTail head tail =>
    cases array with
    | nil => simp [matchList]
    | cons v vs =>
      rw [matchList]
      rcases Bool.or_eq_true_iff.mp (by simpa [hasPinList] using h) with hh | ht
      · rw [matchFieldValue_of_hasPin head v hh]
      · rw [matchFieldValue_of_hasPin tail (.list vs) ht]
        cases matchFieldValue head v <;> rfl
  | elements patterns =>
    rw [matchList]
    split_ifs with hlen
    · rfl
    · exact matchElements_of_hasPin patterns array [] (not_not.mp hlen)
        (by simpa [hasPinList] using h)

theorem matchElements_of_hasPin (ps : List Pattern) (vs : List FieldValue)
    (bindings : FieldBindings) (hlen : vs.length = ps.length) (h : hasPinElements ps) :
    matchElements ps vs bindings = none := by
  cases ps with
  | nil => simp [hasPinElements] at h
  | cons p ps =>
    cases vs with
    | nil => simp at hlen
    | cons v vs =>
      rw [matchElements]
      rcases Bool.or_eq_true_iff.mp (by simpa [hasPinElements] using h) with hp | hps
      · rw [matchFieldValue_of_hasPin p v hp]
      · cases matchFieldValue p v with
        | none => rfl
        | some sub => exact matchElements_of_hasPin ps vs _ (by simpa using hlen) hps

theorem matchMap_of_hasPin (fields : List (Str × Pattern)) (entries : List (Str × FieldValue))
    (bindings : FieldBindings) (h : hasPinFields fields) :
    matchMap fields entries bindings = none := by
  cases fields with
  | nil => simp [hasPinFields] at h
  | cons f fields =>
    obtain ⟨key, p⟩ := f
    rw [matchMap]
    cases Map.get entries key with
    | none => rfl
    | some v =>
      dsimp only
      rcases Bool.or_eq_true_iff.mp (by simpa [hasPinFields] using h) with hp | hfields
      · rw [matchFieldValue_of_hasPin p v hp]
      · cases matchFieldValue p v with
        | none => rfl
        | some sub => exact matchMap_of_hasPin fields entries _ hfields
end

mutual
theorem matchPinned_eq (context : FieldBindings) (p : Pattern) (value : FieldValue)
    (h : hasPin p = false) : matchPinned context p value = matchFieldValue p value := by
  cases p with
  | pin name => simp [hasPin] at h
  | list p =>
    cases value with
    | list array =>
      simpa [matchPinned, matchFieldValue] using
        matchListPinned_eq context p array (by simpa [hasPin] using h)
    | _ => simp [matchPinned, matchFieldValue]
  | map fields =>
    cases value with
    | map entries =>
      simpa [matchPinned, matchFieldValue] using
        matchMapPinned_eq context fields entries [] (by simpa [hasPin] using h)
    | _ => simp [matchPinned, matchFieldValue]
  | _ => simp [matchPinned]

theorem matchListPinned_eq (context : FieldBindings) (p : ListPattern) (array : List FieldValue)
    (h : hasPinList p = false) : matchListPinned context p array = matchList p array := by
  cases p with
  | empty => simp [matchListPinned, matchList]
  | headTail head tail =>
    obtain ⟨hh, ht⟩ := Bool.or_eq_false_iff.mp (by simpa [hasPinList] using h)
    cases array with
    | nil => simp [matchListPinned, matchList]
    | cons v vs =>
      cases hhead : matchFieldValue head v <;>
        cases htail : matchFieldValue tail (.list vs) <;>
          simp only [matchListPinned, matchList, matchPinned_eq context head v hh,
            matchPinned_eq context tail (.list vs) ht, hhead, htail]
  | elements patterns =>
    rw [matchListPinned, matchList,
      matchElementsPinned_eq context patterns array [] (by simpa [hasPinList] using h)]

theorem matchElementsPinned_eq (context : FieldBindings) (ps : List Pattern)
    (vs : List FieldValue) (bindings : FieldBindings) (h : hasPinElements ps = false) :
    matchElementsPinned context ps vs bindings = matchElements ps vs bindings := by
  cases ps with
  | nil => simp [matchElementsPinned, matchElements]
  | cons p ps =>
    obtain ⟨hp, hps⟩ := Bool.or_eq_false_iff.mp (by simpa [hasPinElements] using h)
    cases vs with
    | nil => simp [matchElementsPinned, matchElements]
    | cons v vs =>
      rw [matchElementsPinned, matchElements, matchPinned_eq context p v hp]
      cases matchFieldValue p v with
      | none => rfl
      | some sub => exact matchElementsPinned_eq context ps vs _ hps

theorem matchMapPinned_eq (context : FieldBindings) (fields : List (Str × Pattern))
    (entries : List (Str × FieldValue)) (bindings : FieldBindings)
    (h : hasPinFields fields = false) :
    matchMapPinned context fields entries bindings = matchMap fields entries bindings := by
  cases fields with
  | nil => simp [matchMapPinned, matchMap]
  | cons f fields =>
    obtain ⟨key, p⟩ := f
    obtain ⟨hp, hfields⟩ := Bool.or_eq_false_iff.mp (by simpa [hasPinFields] using h)
    rw [matchMapPinned, matchMap]
    cases Map.get entries key with
    | none => rfl
    | some v =>
      dsimp only
      rw [matchPinned_eq context p v hp]
      cases matchFieldValue p v with
      | none => rfl
      | some sub => exact matchMapPinned_eq context fields entries _ hfields
end

theorem matchFields_of_hasPin {fields : List (Str × Pattern)} (h : hasPinFields fields)
    (event : FieldMap) : matchFields fields event = none := by
  rw [← Option.not_isSome_iff_eq_none, matchFields_isSome]
  intro hall
  induction fields with
  | nil => simp [hasPinFields] at h
  | cons f fields ih =>
    obtain ⟨key, p⟩ := f
    obtain ⟨hf, hfields⟩ := List.forall_mem_cons.mp hall
    rcases Bool.or_eq_true_iff.mp (by simpa [hasPinFields] using h) with hp | hrest
    · rw [FieldMatches] at hf
      cases hget : Map.get event key with
      | none =>
        rw [hget] at hf
        cases p <;> simp [isGlobalEnum, hasPin] at hf hp
      | some v => simp [hget, matchFieldValue_of_hasPin p v hp] at hf
    · exact ih hrest hfields

theorem matchFieldsPinnedFrom_eq {fields : List (Str × Pattern)} (h : hasPinFields fields = false)
    (event : FieldMap) (bindings : FieldBindings) :
    matchFieldsPinnedFrom event fields bindings = matchFieldsFrom event fields bindings := by
  induction fields generalizing bindings with
  | nil => rfl
  | cons f fields ih =>
    obtain ⟨key, p⟩ := f
    obtain ⟨hp, hfields⟩ := Bool.or_eq_false_iff.mp (by simpa [hasPinFields] using h)
    cases hget : Map.get event key with
    | none => simp only [matchFieldsPinnedFrom, matchFieldsFrom, hget, ih hfields]
    | some v =>
      cases hvalue : matchFieldValue p v <;>
        simp only [matchFieldsPinnedFrom, matchFieldsFrom, hget, matchPinned_eq _ p _ hp, hvalue,
          ih hfields]

/-- The event is matched as it is with pins that compare, and a clause that it matches so can be
returned. -/
def PinsCompare (fields : List (Str × Pattern)) (event : FieldMap) : Prop :=
  matchFields fields event = matchFieldsPinned fields event ∧
    ((matchFieldsPinned fields event).isSome →
      ∃ (reg : ScriptRegistry) (m : ClauseMatch), m ∈ reg.matchClauses event ∧
        m.clause.policy.fields = fields)

theorem matchClauses_of_matchFields {fields : List (Str × Pattern)} {event : FieldMap}
    {bindings : FieldBindings} (h : matchFields fields event = some bindings) :
    ∃ (reg : ScriptRegistry) (m : ClauseMatch), m ∈ reg.matchClauses event ∧
      m.clause.policy.fields = fields := by
  let clause : Clause := ⟨⟨fields⟩, none, ⟨[]⟩, [], []⟩
  let script : Script := ⟨⟨[]⟩, none, [clause]⟩
  have hmatch : ScriptRegistry.matchFirstClause script event = some ⟨script, clause, bindings⟩ := by
    simp [ScriptRegistry.matchFirstClause, script, clause, h, ScriptRegistry.passes]
  exact ⟨⟨[script]⟩, _, List.mem_filterMap.mpr ⟨script, List.mem_singleton_self _, hmatch⟩, rfl⟩

/-- Pins compare exactly where there are none, or where no comparison could succeed. -/
theorem pinsCompare_iff (fields : List (Str × Pattern)) (event : FieldMap) :
    PinsCompare fields event ↔
      hasPinFields fields = false ∨ matchFieldsPinned fields event = none := by
  cases hpin : hasPinFields fields with
  | true =>
    rw [PinsCompare, matchFields_of_hasPin hpin, eq_comm]
    simp only [Bool.true_eq_false, false_or]
    refine and_iff_left_of_imp ?_
    intro hnone hsome
    simp [hnone] at hsome
  | false =>
    have heq : matchFieldsPinned fields event = matchFields fields event :=
      matchFieldsPinnedFrom_eq hpin event []
    refine iff_of_true ⟨heq.symm, fun hsome => ?_⟩ (.inl rfl)
    rw [heq] at hsome
    obtain ⟨bindings, hbindings⟩ := Option.isSome_iff_exists.mp hsome
    exact matchClauses_of_matchFields hbindings

/-- A pin in one field that names the value bound in the field before it. -/
theorem pin_not_compared :
    ¬∀ (fields : List (Str × Pattern)) (event : FieldMap), PinsCompare fields event := by
  intro h
  have hcompare := (h [("a".toList, .variable "x".toList), ("b".toList, .pin "x".toList)]
    [("a".toList, .bool true), ("b".toList, .bool true)]).1
  exact absurd (congrArg Option.isSome hcompare) (by decide +kernel)

end Luaml.Pattern
