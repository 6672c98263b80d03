import Luaml.Lib.Json

universe u

namespace Serde

open Rust

namespace JsonValue

mutual
/-- The value that a document is read as: of the members under a name the last one counts. -/
def ofDocument : JsonValue → JsonValue
  | .array items => .array (ofDocuments items)
  | .object members => .object (BTreeMap.extend Str.cmp [] (ofMembers members))
  | other => other

def ofDocuments : List JsonValue → List JsonValue
  | [] => []
  | item :: items => ofDocument item :: ofDocuments items

def ofMembers : List (Str × JsonValue) → List (Str × JsonValue)
  | [] => []
  | (name, d) :: members => (name, ofDocument d) :: ofMembers members
end

theorem array_ascends {items : List JsonValue} (h : ∀ item ∈ items, item.Ascends) :
    (array items).Ascends := ⟨trivial, everyItem_iff.mpr h⟩

theorem object_ascends {members : List (Str × JsonValue)} (h : ∀ m ∈ members, m.2.Ascends) :
    (object (BTreeMap.extend Str.cmp [] members)).Ascends :=
  ⟨.extend .nil _, everyMember_iff.mpr (BTreeMap.forall_extend (List.forall_mem_nil _) h)⟩

mutual
theorem ofDocument_ascends (d : JsonValue) : d.ofDocument.Ascends := by
  cases d with
  | array items => exact ⟨trivial, ofDocuments_ascend items⟩
  | object members => exact object_ascends (everyMember_iff.mp (ofMembers_ascend members))
  | _ => trivial

theorem ofDocuments_ascend (items : List JsonValue) :
    EveryItem (fun _ => True) (BTreeMap.Ascending Str.cmp) (ofDocuments items) := by
  cases items with
  | nil => trivial
  | cons item items => exact ⟨ofDocument_ascends item, ofDocuments_ascend items⟩

theorem ofMembers_ascend (members : List (Str × JsonValue)) :
    EveryMember (fun _ => True) (BTreeMap.Ascending Str.cmp) (ofMembers members) := by
  cases members with
  | nil => trivial
  | cons m members => exact ⟨ofDocument_ascends m.2, ofMembers_ascend members⟩
end

mutual
theorem ofDocument_of_ascends (j : JsonValue) (hj : j.Ascends) : j.ofDocument = j := by
  cases j with
  | array items => rw [ofDocument, ofDocuments_of_ascend items hj.2]
  | object members =>
    rw [ofDocument, ofMembers_of_ascend members hj.2, BTreeMap.extend_of_ascending hj.1,
      List.nil_append]
  | _ => rfl

theorem ofDocuments_of_ascend (items : List JsonValue)
    (hitems : EveryItem (fun _ => True) (BTreeMap.Ascending Str.cmp) items) :
    ofDocuments items = items := by
  cases items with
  | nil => rfl
  | cons item items =>
    rw [ofDocuments, ofDocument_of_ascends item hitems.1, ofDocuments_of_ascend items hitems.2]

theorem ofMembers_of_ascend (members : List (Str × JsonValue))
    (hmembers : EveryMember (fun _ => True) (BTreeMap.Ascending Str.cmp) members) :
    ofMembers members = members := by
  cases members with
  | nil => rfl
  | cons m members =>
    rw [ofMembers, ofDocument_of_ascends m.2 hmembers.1, ofMembers_of_ascend members hmembers.2]
end

theorem ofDocument_isNull (d : JsonValue) : d.ofDocument.isNull = d.isNull := by cases d <;> rfl

end JsonValue

/-- A field of a struct: what its type makes of a document, and what the field is where an object
has no member of its name, and where an array ends before it. -/
structure Field (α : Type u) where
  name : Str
  read : JsonValue → Option α
  missing : Option α
  cut : Option α

namespace Field

variable {α : Type u}

def required (name : Str) (read : JsonValue → Option α) : Field α := ⟨name, read, none, none⟩

def withDefault (name : Str) (read : JsonValue → Option α) (default : α) : Field α :=
  ⟨name, read, some default, some default⟩

def optional (name : Str) (read : JsonValue → Option α) : Field (Option α) :=
  ⟨name, fun d => if d.isNull then some none else (read d).map some, some none, none⟩

end Field

inductive Parts
  | named (members : List (Str × JsonValue))
  | placed (items : List JsonValue)

namespace Parts

def ofStruct (fields : Nat) : JsonValue → Option Parts
  | .object members => some (.named members)
  | .array items => if items.length ≤ fields then some (.placed items) else none
  | _ => none

variable {α : Type u}

/-- The field, which is at that place.  Two members under its name are an error, and members under
other names are none. -/
def get (place : Nat) (field : Field α) : Parts → Option α
  | .named members =>
    match members.filter fun m => m.1 = field.name with
    | [] => field.missing
    | [m] => field.read m.2
    | _ => none
  | .placed items =>
    match items[place]? with
    | some d => field.read d
    | none => field.cut

variable {members members' : List (Str × JsonValue)} {place : Nat} {field : Field α}

theorem of_get {parts : Parts} {a : α} (h : parts.get place field = some a) :
    (∃ d, field.read d = some a) ∨ field.missing = some a ∨ field.cut = some a := by
  cases parts with
  | named members =>
    rw [get] at h
    split at h
    · exact .inr (.inl h)
    · exact .inl ⟨_, h⟩
    · cases h
  | placed items =>
    rw [get] at h
    split at h
    · exact .inl ⟨_, h⟩
    · exact .inr (.inr h)

theorem of_get_optional {parts : Parts} {name : Str} {read : JsonValue → Option α} {a : α}
    (h : parts.get place (.optional name read) = some (some a)) :
    ∃ d, d.isNull = false ∧ read d = some a := by
  obtain ⟨d, hd⟩ | hmissing | hcut := of_get h
  · change (if d.isNull then some none else (read d).map some) = some (some a) at hd
    split_ifs at hd with hnull
    · cases hd
    · obtain ⟨a', ha', heq⟩ := Option.map_eq_some_iff.mp hd
      cases heq
      exact ⟨d, Bool.eq_false_iff.mpr hnull, ha'⟩
  · cases hmissing
  · cases hcut

theorem get_perm (h : members.Perm members') :
    get place field (.named members) = get place field (.named members') := by
  have hfilter := h.filter fun m => m.1 = field.name
  rw [get, get]
  generalize members.filter _ = found at hfilter
  generalize members'.filter _ = found' at hfilter
  match found, found', hfilter with
  | [], found', hfilter => rw [List.nil_perm.mp hfilter]
  | [m], found', hfilter => rw [List.singleton_perm.mp hfilter]
  | _ :: _ :: _, found', hfilter =>
    match found', hfilter.length_eq with
    | _ :: _ :: _, _ => rfl

theorem get_append {others : List (Str × JsonValue)} (hperm : members.Perm members')
    (hothers : ∀ m ∈ others, m.1 ≠ field.name) :
    get place field (.named (members' ++ others)) = get place field (.named members) := by
  have hnone : others.filter (fun m => m.1 = field.name) = [] :=
    List.filter_eq_nil_iff.mpr fun m hm => by simpa using hothers m hm
  rw [get_perm hperm, get, get, List.filter_append, hnone, List.append_nil]

end Parts

end Serde
