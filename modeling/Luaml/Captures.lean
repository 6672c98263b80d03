import Luaml.Pins

namespace Luaml.Pattern

open Rust Str

mutual
/-- The value matches the pattern, a pin read as equal to what the context has under its name. -/
def Accepts (context : FieldBindings) : Pattern → FieldValue → Prop
  | .wildcard, _ | .variable _, _ => True
  | .enum expected, value =>
    ∃ actual, value = .enum actual ∧ (expected = globalEnum ∨ expected = actual)
  | .stringLiteral expected, value => value = .string expected
  | .numberLiteral expected, value => value = .number expected
  | .boolLiteral expected, value => value = .bool expected
  | .pin name, value => ∃ expected, Map.get context name = some expected ∧ expected.eq value
  | .list p, value => ∃ array, value = .list array ∧ AcceptsList context p array
  | .map fields, value => ∃ entries, value = .map entries ∧ AcceptsFields context fields entries

def AcceptsList (context : FieldBindings) : ListPattern → List FieldValue → Prop
  | .empty, array => array = []
  | .headTail head tail, array =>
    ∃ v vs, array = v :: vs ∧ Accepts context head v ∧ Accepts context tail (.list vs)
  | .elements patterns, array => AcceptsElements context patterns array

def AcceptsElements (context : FieldBindings) : List Pattern → List FieldValue → Prop
  | [], array => array = []
  | p :: ps, array => ∃ v vs, array = v :: vs ∧ Accepts context p v ∧ AcceptsElements context ps vs

def AcceptsFields (context : FieldBindings) :
    List (Str × Pattern) → List (Str × FieldValue) → Prop
  | [], _ => True
  | (key, p) :: fields, entries =>
    (∃ v, Map.get entries key = some v ∧ Accepts context p v) ∧
      AcceptsFields context fields entries
end

theorem AcceptsElements.length {context : FieldBindings} {ps : List Pattern}
    {vs : List FieldValue} (h : AcceptsElements context ps vs) : vs.length = ps.length := by
  induction ps generalizing vs with
  | nil => exact congrArg List.length h
  | cons p ps ih =>
    obtain ⟨v, vs, rfl, -, hrest⟩ := h
    simp [ih hrest]

mutual
def captures : Pattern → FieldValue → FieldBindings
  | .variable name, value => [(name, value)]
  | .list p, .list array => listCaptures p array
  | .map fields, .map entries => fieldCaptures fields entries
  | _, _ => []

def listCaptures : ListPattern → List FieldValue → FieldBindings
  | .headTail head tail, v :: vs => captures head v ++ captures tail (.list vs)
  | .elements patterns, array => elementCaptures patterns array
  | _, _ => []

def elementCaptures : List Pattern → List FieldValue → FieldBindings
  | p :: ps, v :: vs => captures p v ++ elementCaptures ps vs
  | _, _ => []

def fieldCaptures : List (Str × Pattern) → List (Str × FieldValue) → FieldBindings
  | [], _ => []
  | (key, p) :: fields, entries =>
    (match Map.get entries key with
      | some v => captures p v
      | none => []) ++ fieldCaptures fields entries
end

def bound (p : Pattern) (value : FieldValue) : FieldBindings := Map.extend [] (captures p value)

theorem extend_bound (bindings : FieldBindings) (p : Pattern) (value : FieldValue) :
    Map.extend bindings (bound p value) = Map.extend bindings (captures p value) :=
  Map.extend_assoc bindings (by simp) _

theorem none_or_some {o : Option FieldBindings} {accepted : Prop} {captured : FieldBindings}
    (h : ∀ b, o = some b ↔ accepted ∧ b = captured) :
    o = none ∧ ¬accepted ∨ o = some captured ∧ accepted := by
  cases o with
  | none =>
    refine .inl ⟨rfl, fun ha => ?_⟩
    exact absurd ((h captured).mpr ⟨ha, rfl⟩) (by simp)
  | some b =>
    obtain ⟨ha, rfl⟩ := (h b).mp rfl
    exact .inr ⟨rfl, ha⟩

mutual
theorem matchPinned_eq_some (context : FieldBindings) (p : Pattern) (value : FieldValue)
    (b : FieldBindings) :
    matchPinned context p value = some b ↔ Accepts context p value ∧ b = bound p value := by
  cases p with
  | wildcard => simp [matchPinned, matchFieldValue, Accepts, bound, captures, Map.extend, eq_comm]
  | enum expected =>
    cases value <;>
      simp [matchPinned, matchFieldValue, Accepts, bound, captures, Map.extend, eq_comm]
  | stringLiteral expected =>
    simp [matchPinned, matchFieldValue, Accepts, bound, captures, Map.extend, eq_comm]
  | numberLiteral expected =>
    simp [matchPinned, matchFieldValue, Accepts, bound, captures, Map.extend, eq_comm]
  | boolLiteral expected =>
    simp [matchPinned, matchFieldValue, Accepts, bound, captures, Map.extend, eq_comm]
  | «variable» name =>
    simp [matchPinned, matchFieldValue, Accepts, bound, captures, Map.extend, Map.insert, eq_comm]
  | pin name =>
    cases hget : Map.get context name with
    | none => simp [matchPinned, matchFieldValueWithContext, Accepts, hget]
    | some expected =>
      cases heq : expected.eq value with
      | false => simp [matchPinned, matchFieldValueWithContext, Accepts, hget, heq]
      | true =>
        simp only [matchPinned, matchFieldValueWithContext, Accepts, bound, captures, Map.extend,
          hget, heq, if_true, List.foldl_nil, Option.some.injEq, exists_eq_left', true_and]
        exact eq_comm
  | list p =>
    cases value with
    | list array =>
      simp [matchPinned, Accepts, bound, captures, matchListPinned_eq_some context p array b]
    | _ => simp [matchPinned, Accepts]
  | map fields =>
    cases value with
    | map entries =>
      simp [matchPinned, Accepts, bound, captures, matchMapPinned_eq_some context fields entries]
    | _ => simp [matchPinned, Accepts]

theorem matchListPinned_eq_some (context : FieldBindings) (p : ListPattern)
    (array : List FieldValue) (b : FieldBindings) :
    matchListPinned context p array = some b ↔
      AcceptsList context p array ∧ b = Map.extend [] (listCaptures p array) := by
  cases p with
  | empty => cases array <;> simp [matchListPinned, AcceptsList, listCaptures, Map.extend, eq_comm]
  | headTail head tail =>
    cases array with
    | nil => simp [matchListPinned, AcceptsList]
    | cons v vs =>
      rw [matchListPinned]
      rcases none_or_some (matchPinned_eq_some context head v) with ⟨hv, hn⟩ | ⟨hv, ha⟩
      · simp [hv, hn, AcceptsList]
      · rcases none_or_some (matchPinned_eq_some context tail (.list vs)) with ⟨ht, hn⟩ | ⟨ht, hb⟩
        · simp [hv, ht, hn, AcceptsList]
        · have hcaptured : Map.extend (bound head v) (bound tail (.list vs)) =
              Map.extend [] (listCaptures (.headTail head tail) (v :: vs)) := by
            rw [extend_bound, listCaptures, Map.extend_append, bound]
          simp [hv, ht, ha, hb, AcceptsList, hcaptured, eq_comm]
  | elements patterns =>
    rw [matchListPinned, AcceptsList, listCaptures]
    split_ifs with hlen
    · have hnot : ¬AcceptsElements context patterns array := fun h => hlen h.length
      simp [hnot]
    · exact matchElementsPinned_eq_some context patterns array [] b (not_not.mp hlen)

theorem matchElementsPinned_eq_some (context : FieldBindings) (ps : List Pattern)
    (vs : List FieldValue) (bindings b : FieldBindings) (hlen : vs.length = ps.length) :
    matchElementsPinned context ps vs bindings = some b ↔
      AcceptsElements context ps vs ∧ b = Map.extend bindings (elementCaptures ps vs) := by
  cases ps with
  | nil =>
    obtain rfl := List.length_eq_zero_iff.mp hlen
    simp [matchElementsPinned, AcceptsElements, elementCaptures, Map.extend, eq_comm]
  | cons p ps =>
    cases vs with
    | nil => simp at hlen
    | cons v vs =>
      rw [matchElementsPinned, elementCaptures, Map.extend_append]
      rcases none_or_some (matchPinned_eq_some context p v) with ⟨hv, hn⟩ | ⟨hv, ha⟩
      · simp [hv, hn, AcceptsElements]
      · have hrest := matchElementsPinned_eq_some context ps vs (Map.extend bindings (bound p v)) b
          (by simpa using hlen)
        rw [extend_bound] at hrest
        simp [hv, ha, hrest, AcceptsElements, extend_bound]

theorem matchMapPinned_eq_some (context : FieldBindings) (fields : List (Str × Pattern))
    (entries : List (Str × FieldValue)) (bindings b : FieldBindings) :
    matchMapPinned context fields entries bindings = some b ↔
      AcceptsFields context fields entries ∧
        b = Map.extend bindings (fieldCaptures fields entries) := by
  cases fields with
  | nil => simp [matchMapPinned, AcceptsFields, fieldCaptures, Map.extend, eq_comm]
  | cons f fields =>
    obtain ⟨key, p⟩ := f
    rw [matchMapPinned, fieldCaptures, AcceptsFields, Map.extend_append]
    cases hget : Map.get entries key with
    | none => simp
    | some v =>
      rcases none_or_some (matchPinned_eq_some context p v) with ⟨hv, hn⟩ | ⟨hv, ha⟩
      · simp [hv, hn]
      · have hrest := matchMapPinned_eq_some context fields entries
          (Map.extend bindings (bound p v)) b
        rw [extend_bound] at hrest
        simp [hv, ha, hrest, extend_bound]
end

mutual
theorem Accepts.hasPin {p : Pattern} {value : FieldValue} (h : Accepts [] p value) :
    hasPin p = false := by
  cases p with
  | pin name =>
    obtain ⟨expected, hget, -⟩ := h
    simp [Map.get] at hget
  | list p =>
    obtain ⟨array, -, h⟩ := h
    rw [Pattern.hasPin]
    exact AcceptsList.hasPin h
  | map fields =>
    obtain ⟨entries, -, h⟩ := h
    rw [Pattern.hasPin]
    exact AcceptsFields.hasPin h
  | _ => rfl

theorem AcceptsList.hasPin {p : ListPattern} {array : List FieldValue}
    (h : AcceptsList [] p array) :
    hasPinList p = false := by
  cases p with
  | empty => rfl
  | headTail head tail =>
    obtain ⟨v, vs, -, hhead, htail⟩ := h
    rw [hasPinList, hhead.hasPin, htail.hasPin, Bool.or_false]
  | elements patterns => exact AcceptsElements.hasPin h

theorem AcceptsElements.hasPin {ps : List Pattern} {array : List FieldValue}
    (h : AcceptsElements [] ps array) : hasPinElements ps = false := by
  cases ps with
  | nil => rfl
  | cons p ps =>
    obtain ⟨v, vs, -, hp, hrest⟩ := h
    rw [hasPinElements, hp.hasPin, AcceptsElements.hasPin hrest, Bool.or_false]

theorem AcceptsFields.hasPin {fields : List (Str × Pattern)} {entries : List (Str × FieldValue)}
    (h : AcceptsFields [] fields entries) : hasPinFields fields = false := by
  cases fields with
  | nil => rfl
  | cons f fields =>
    obtain ⟨⟨v, -, hp⟩, hrest⟩ := h
    rw [hasPinFields, hp.hasPin, AcceptsFields.hasPin hrest, Bool.or_false]
end

theorem matchFieldValue_eq_some (p : Pattern) (value : FieldValue) (b : FieldBindings) :
    matchFieldValue p value = some b ↔ Accepts [] p value ∧ b = bound p value := by
  cases hpin : hasPin p with
  | false => rw [← matchPinned_eq [] p value hpin, matchPinned_eq_some]
  | true =>
    rw [matchFieldValue_of_hasPin p value hpin]
    refine iff_of_false (by simp) fun h => ?_
    simp [h.1.hasPin] at hpin

def headTails : List Pattern → Pattern
  | [] => .list .empty
  | p :: ps => .list (.headTail p (headTails ps))

theorem accepts_headTails (context : FieldBindings) (ps : List Pattern) (value : FieldValue) :
    Accepts context (headTails ps) value ↔ Accepts context (.list (.elements ps)) value := by
  induction ps generalizing value with
  | nil => simp [headTails, Accepts, AcceptsList, AcceptsElements]
  | cons p ps ih =>
    simp only [headTails, Accepts, AcceptsList, AcceptsElements, ih]
    simp

theorem captures_headTails (ps : List Pattern) (array : List FieldValue) :
    captures (headTails ps) (.list array) = elementCaptures ps array := by
  induction ps generalizing array with
  | nil => cases array <;> simp [headTails, captures, listCaptures, elementCaptures]
  | cons p ps ih =>
    cases array with
    | nil => simp [headTails, captures, listCaptures, elementCaptures]
    | cons v vs => simp [headTails, captures, listCaptures, elementCaptures, ih]

theorem bound_headTails (ps : List Pattern) (value : FieldValue) :
    bound (headTails ps) value = bound (.list (.elements ps)) value := by
  rw [bound, bound]
  cases value with
  | list array => rw [captures_headTails, captures, listCaptures]
  | _ => cases ps <;> simp [headTails, captures]

theorem matchFieldValue_headTails (ps : List Pattern) (value : FieldValue) :
    matchFieldValue (.list (.elements ps)) value = matchFieldValue (headTails ps) value := by
  apply Option.ext
  intro b
  rw [matchFieldValue_eq_some, matchFieldValue_eq_some, accepts_headTails, bound_headTails]

/-- In the context the value is matched as pins at every depth ask for, and its captures bound. -/
def HonoursPins (p : Pattern) (value : FieldValue) (context : FieldBindings) : Prop :=
  ∀ b, matchFieldValueWithContext p value context = some b ↔
    Accepts context p value ∧ b = bound p value

theorem honoursPins_pin (name : Str) (value : FieldValue) (context : FieldBindings) :
    HonoursPins (.pin name) value context := by
  intro b
  rw [← matchPinned_eq_some, matchPinned]

/-- Below the top a pin has no context: it takes nothing, whatever its name is bound to. -/
theorem honoursPins_iff (p : Pattern) (value : FieldValue) (context : FieldBindings) :
    HonoursPins p value context ↔
      (∃ name, p = .pin name) ∨ hasPin p = false ∨ ¬Accepts context p value := by
  by_cases hpin : ∃ name, p = .pin name
  · obtain ⟨name, rfl⟩ := hpin
    exact iff_of_true (honoursPins_pin name value context) (.inl ⟨name, rfl⟩)
  · have hcontext : matchFieldValueWithContext p value context = matchFieldValue p value := by
      cases p with
      | pin name => exact absurd ⟨name, rfl⟩ hpin
      | _ => rfl
    rw [HonoursPins, hcontext, or_iff_right hpin]
    cases hp : hasPin p with
    | false =>
      refine iff_of_true (fun b => ?_) (.inl rfl)
      rw [← matchPinned_eq context p value hp, matchPinned_eq_some]
    | true =>
      simp only [matchFieldValue_of_hasPin p value hp, Bool.true_eq_false, false_or, reduceCtorEq,
        false_iff, not_and, forall_eq_apply_imp_iff]

/-- `[^x]` against the one value that `x` is bound to. -/
theorem pin_in_list_not_honoured :
    ¬∀ (p : Pattern) (value : FieldValue) (context : FieldBindings),
      HonoursPins p value context := by
  intro h
  have hpin := h (.list (.elements [.pin "x".toList])) (.list [.bool true])
    [("x".toList, .bool true)] []
  have haccepts : Accepts [("x".toList, .bool true)] (.list (.elements [.pin "x".toList]))
      (.list [.bool true]) :=
    ⟨[.bool true], rfl, .bool true, [], rfl, ⟨.bool true, by decide +kernel, by decide +kernel⟩,
      rfl⟩
  exact absurd (congrArg Option.isSome (hpin.mpr ⟨haccepts, rfl⟩)) (by decide +kernel)

end Luaml.Pattern
