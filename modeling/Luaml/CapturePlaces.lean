import Luaml.Captures
import Luaml.Inheritance

namespace Luaml.Pattern

open Rust Str

/-- A step from a pattern to a part of it, and from a value to the part in that place. -/
inductive Step
  | key (name : Str)
  | index (i : Nat)
  | head
  | tail

inductive Occurs : Pattern → List Step → Str → Prop
  | here (x : Str) : Occurs (.variable x) [] x
  | key {fields : List (Str × Pattern)} {name : Str} {p : Pattern} {path : List Step} {x : Str} :
    (name, p) ∈ fields → Occurs p path x → Occurs (.map fields) (.key name :: path) x
  | index {ps : List Pattern} {i : Nat} {p : Pattern} {path : List Step} {x : Str} :
    ps[i]? = some p → Occurs p path x → Occurs (.list (.elements ps)) (.index i :: path) x
  | head {h t : Pattern} {path : List Step} {x : Str} :
    Occurs h path x → Occurs (.list (.headTail h t)) (.head :: path) x
  | tail {h t : Pattern} {path : List Step} {x : Str} :
    Occurs t path x → Occurs (.list (.headTail h t)) (.tail :: path) x

def valueAt : List Step → FieldValue → Option FieldValue
  | [], value => some value
  | .key name :: path, .map entries => (Map.get entries name).bind (valueAt path)
  | .index i :: path, .list array => array[i]?.bind (valueAt path)
  | .head :: path, .list (v :: _) => valueAt path v
  | .tail :: path, .list (_ :: vs) => valueAt path (.list vs)
  | _, _ => none

theorem AcceptsElements.getElem? {context : FieldBindings} {ps : List Pattern}
    {array : List FieldValue} (h : AcceptsElements context ps array) {i : Nat} {p : Pattern}
    (hp : ps[i]? = some p) :
    ∃ v, array[i]? = some v ∧ Accepts context p v ∧
      ∀ e ∈ captures p v, e ∈ elementCaptures ps array := by
  induction ps generalizing array i with
  | nil => simp at hp
  | cons q ps ih =>
    obtain ⟨v, vs, rfl, hv, hrest⟩ := h
    cases i with
    | zero =>
      obtain rfl : q = p := by simpa using hp
      exact ⟨v, rfl, hv, fun e he => List.mem_append_left _ he⟩
    | succ i =>
      obtain ⟨w, hw, ha, hsub⟩ := ih hrest (by simpa using hp)
      exact ⟨w, by simpa using hw, ha, fun e he => List.mem_append_right _ (hsub e he)⟩

theorem captures_subset_fieldCaptures {fields : List (Str × Pattern)} {key : Str} {p : Pattern}
    (hp : (key, p) ∈ fields) {entries : List (Str × FieldValue)} {v : FieldValue}
    (hget : Map.get entries key = some v) :
    ∀ e ∈ captures p v, e ∈ fieldCaptures fields entries := by
  induction fields with
  | nil => simp at hp
  | cons f fields ih =>
    intro e he
    rcases List.mem_cons.mp hp with rfl | hp
    · simp [fieldCaptures, hget, he]
    · exact List.mem_append_right _ (ih hp e he)

theorem AcceptsFields.get {context : FieldBindings} {fields : List (Str × Pattern)}
    {entries : List (Str × FieldValue)} (h : AcceptsFields context fields entries) {key : Str}
    {p : Pattern} (hp : (key, p) ∈ fields) :
    ∃ v, Map.get entries key = some v ∧ Accepts context p v := by
  induction fields with
  | nil => simp at hp
  | cons f fields ih =>
    rcases List.mem_cons.mp hp with rfl | hp
    · exact h.1
    · exact ih h.2 hp

theorem Occurs.captured {p : Pattern} {path : List Step} {x : Str} (h : Occurs p path x)
    {context : FieldBindings} {value : FieldValue} (ha : Accepts context p value) :
    ∃ sub, valueAt path value = some sub ∧ (x, sub) ∈ captures p value := by
  induction h generalizing value with
  | here x => exact ⟨value, by rw [valueAt], by simp [captures]⟩
  | key hp _ ih =>
    obtain ⟨entries, rfl, hfields⟩ := ha
    obtain ⟨v, hget, hv⟩ := AcceptsFields.get hfields hp
    obtain ⟨sub, hat, hmem⟩ := ih hv
    refine ⟨sub, by rw [valueAt, hget, Option.bind_some, hat], ?_⟩
    rw [captures]
    exact captures_subset_fieldCaptures hp hget _ hmem
  | index hi _ ih =>
    obtain ⟨array, rfl, helements⟩ := ha
    obtain ⟨v, hv, hav, hsub⟩ := AcceptsElements.getElem? helements hi
    obtain ⟨sub, hat, hmem⟩ := ih hav
    refine ⟨sub, by rw [valueAt, hv, Option.bind_some, hat], ?_⟩
    rw [captures, listCaptures]
    exact hsub _ hmem
  | head _ ih =>
    obtain ⟨array, rfl, v, vs, rfl, hhead, -⟩ := ha
    obtain ⟨sub, hat, hmem⟩ := ih hhead
    refine ⟨sub, by rw [valueAt, hat], ?_⟩
    rw [captures, listCaptures]
    exact List.mem_append_left _ hmem
  | tail _ ih =>
    obtain ⟨array, rfl, v, vs, rfl, -, htail⟩ := ha
    obtain ⟨sub, hat, hmem⟩ := ih htail
    refine ⟨sub, by rw [valueAt, hat], ?_⟩
    rw [captures, listCaptures]
    exact List.mem_append_right _ hmem

mutual
theorem Accepts.captured_names {context : FieldBindings} {p : Pattern} {value : FieldValue}
    (h : Accepts context p value) : (captures p value).map Prod.fst = collectVariables p := by
  cases p with
  | list p =>
    obtain ⟨array, rfl, h⟩ := h
    rw [captures, collectVariables]
    exact AcceptsList.captured_names h
  | map fields =>
    obtain ⟨entries, rfl, h⟩ := h
    rw [captures, collectVariables]
    exact AcceptsFields.captured_names h
  | _ => simp [captures, collectVariables]

theorem AcceptsList.captured_names {context : FieldBindings} {p : ListPattern}
    {array : List FieldValue} (h : AcceptsList context p array) :
    (listCaptures p array).map Prod.fst = collectListVariables p := by
  cases p with
  | empty => simp [listCaptures, collectListVariables]
  | headTail head tail =>
    obtain ⟨v, vs, rfl, hhead, htail⟩ := h
    rw [listCaptures, List.map_append, hhead.captured_names, htail.captured_names,
      collectListVariables]
  | elements patterns =>
    rw [listCaptures, collectListVariables]
    exact AcceptsElements.captured_names h

theorem AcceptsElements.captured_names {context : FieldBindings} {ps : List Pattern}
    {array : List FieldValue} (h : AcceptsElements context ps array) :
    (elementCaptures ps array).map Prod.fst = collectElementVariables ps := by
  cases ps with
  | nil => simp [elementCaptures, collectElementVariables]
  | cons p ps =>
    obtain ⟨v, vs, rfl, hp, hrest⟩ := h
    rw [elementCaptures, List.map_append, hp.captured_names,
      AcceptsElements.captured_names hrest, collectElementVariables]

theorem AcceptsFields.captured_names {context : FieldBindings} {fields : List (Str × Pattern)}
    {entries : List (Str × FieldValue)} (h : AcceptsFields context fields entries) :
    (fieldCaptures fields entries).map Prod.fst = collectFieldVariables fields := by
  cases fields with
  | nil => simp [fieldCaptures, collectFieldVariables]
  | cons f fields =>
    obtain ⟨⟨v, hget, hp⟩, hrest⟩ := h
    rw [fieldCaptures, hget, List.map_append, hp.captured_names,
      AcceptsFields.captured_names hrest, collectFieldVariables]
end

theorem matchFieldsFrom_eq_some (event : FieldMap) (fields : List (Str × Pattern))
    (bindings b : FieldBindings) :
    matchFieldsFrom event fields bindings = some b ↔
      (∀ f ∈ fields, FieldMatches event f) ∧
        b = Map.extend bindings (fieldCaptures fields event) := by
  induction fields generalizing bindings with
  | nil => simp [matchFieldsFrom, fieldCaptures, Map.extend, eq_comm]
  | cons f fields ih =>
    obtain ⟨key, p⟩ := f
    rw [matchFieldsFrom, fieldCaptures, List.forall_mem_cons, FieldMatches, Map.extend_append]
    cases hget : Map.get event key with
    | none => cases isGlobalEnum p <;> simp [ih, Map.extend]
    | some v =>
      rcases none_or_some (matchFieldValue_eq_some p v) with ⟨hv, -⟩ | ⟨hv, -⟩
      · simp [hv]
      · simp [hv, ih, extend_bound]

theorem captured_names_of_fieldMatches {event : FieldMap} {fields : List (Str × Pattern)}
    (h : ∀ f ∈ fields, FieldMatches event f) :
    (fieldCaptures fields event).map Prod.fst = collectFieldVariables fields := by
  induction fields with
  | nil => simp [fieldCaptures, collectFieldVariables]
  | cons f fields ih =>
    obtain ⟨key, p⟩ := f
    obtain ⟨hf, hfields⟩ := List.forall_mem_cons.mp h
    rw [fieldCaptures, List.map_append, ih hfields, collectFieldVariables]
    rw [FieldMatches] at hf
    cases hget : Map.get event key with
    | none =>
      -- only `:global:` may be absent from the event, and it has no variable
      cases p <;> simp [hget, isGlobalEnum] at hf
      simp [collectVariables]
    | some v =>
      rw [hget] at hf
      obtain ⟨b, hb⟩ := Option.isSome_iff_exists.mp hf
      rw [((matchFieldValue_eq_some p v b).mp hb).1.captured_names]

/-- A pattern whose variables are distinct binds each of them to the value in its place. -/
theorem matchFields_captures {fields : List (Str × Pattern)} {event : FieldMap}
    {b : FieldBindings} (hcheck : checkDuplicateVariables fields = .ok ())
    (h : matchFields fields event = some b) :
    (b.map Prod.fst).Perm (collectFieldVariables fields) ∧
      ∀ f ∈ fields, ∀ path x, Occurs f.2 path x →
        ∃ value sub, Map.get event f.1 = some value ∧ valueAt path value = some sub ∧
          Map.get b x = some sub := by
  obtain ⟨hmatches, hb⟩ := (matchFieldsFrom_eq_some event fields [] b).mp h
  have hnames := captured_names_of_fieldMatches hmatches
  have hnodup : ((fieldCaptures fields event).map Prod.fst).Nodup :=
    hnames ▸ Parser.checkDuplicateVariables_eq_ok.mp hcheck
  rw [Map.extend_of_nodup (by simpa using hnodup), List.nil_append] at hb
  subst hb
  refine ⟨.of_eq hnames, fun ⟨key, p⟩ hf path x hx => ?_⟩
  have hfield := hmatches (key, p) hf
  rw [FieldMatches] at hfield
  cases hget : Map.get event key with
  | none => cases hx <;> simp [hget, isGlobalEnum] at hfield
  | some value =>
    rw [hget] at hfield
    obtain ⟨b, hvalue⟩ := Option.isSome_iff_exists.mp hfield
    obtain ⟨sub, hat, hmem⟩ := hx.captured ((matchFieldValue_eq_some p value b).mp hvalue).1
    exact ⟨value, sub, rfl, hat,
      Map.get_of_mem hnodup (captures_subset_fieldCaptures hf hget _ hmem)⟩

theorem tail_captured :
    ∃ value sub,
      Map.get [("tags".toList, FieldValue.list [.bool true, .null])] "tags".toList = some value ∧
      valueAt [.tail] value = some sub ∧
      Map.get [("h".toList, .bool true), ("t".toList, .list [.null])] "t".toList = some sub :=
  (@matchFields_captures
    [("tags".toList, .list (.headTail (.variable "h".toList) (.variable "t".toList)))]
    [("tags".toList, .list [.bool true, .null])]
    [("h".toList, .bool true), ("t".toList, .list [.null])]
    (by decide +kernel) (by decide +kernel)).2
    _ (List.mem_singleton_self _) [.tail] "t".toList (.tail (.here _))

end Luaml.Pattern
