import Luaml.Contents
import Luaml.Rpc

namespace Luaml

open Rust Serde Lua

namespace Rpc

open Json

variable {H : Type} {texts : Texts} {vm : Vm H} {outOfRange : JsonNumber → Str}

theorem jsonToFieldItems_length (items : List JsonValue) :
    (jsonToFieldItems texts items).length = items.length := by
  induction items with
  | nil => rfl
  | cons item items ih => rw [jsonToFieldItems, List.length_cons, ih, List.length_cons]

theorem jsonToFieldMembers_keys (texts : Texts) (members : List (Str × JsonValue)) :
    (jsonToFieldMembers texts members).map Prod.fst = members.map Prod.fst := by
  induction members with
  | nil => rfl
  | cons e members ih => rw [jsonToFieldMembers, List.map_cons, ih, List.map_cons]

theorem jsonToField_object {members : List (Str × JsonValue)}
    (hmembers : BTreeMap.Ascending Str.cmp members) :
    jsonToField texts (.object members) = .map (jsonToFieldMembers texts members) := by
  have hnodup := hmembers.nodup
  rw [← jsonToFieldMembers_keys texts] at hnodup
  rw [jsonToField, Map.extend_of_nodup hnodup, List.nil_append]

mutual
theorem jsonToField_sound (j : JsonValue) (hj : j.Sound) : (jsonToField texts j).Sound := by
  cases j with
  | array items =>
    refine ⟨?_, jsonToFieldItems_sound items hj.2⟩
    rw [jsonToFieldItems_length]
    exact hj.1
  | object members =>
    rw [jsonToField_object hj.1]
    refine ⟨?_, jsonToFieldMembers_sound members hj.2⟩
    rw [jsonToFieldMembers_keys]
    exact hj.1.nodup
  | number n =>
    rw [jsonToField]
    split <;> trivial
  | null | bool | string => trivial

theorem jsonToFieldItems_sound (items : List JsonValue) (hitems : JsonValue.SoundItems items) :
    FieldValue.SoundItems (jsonToFieldItems texts items) := by
  cases items with
  | nil => trivial
  | cons item items =>
    exact ⟨jsonToField_sound item hitems.1, jsonToFieldItems_sound items hitems.2⟩

theorem jsonToFieldMembers_sound (members : List (Str × JsonValue))
    (hmembers : JsonValue.SoundMembers members) :
    FieldValue.SoundEntries (jsonToFieldMembers texts members) := by
  cases members with
  | nil => trivial
  | cons e members =>
    exact ⟨jsonToField_sound e.2 hmembers.1, jsonToFieldMembers_sound members hmembers.2⟩
end

mutual
theorem jsonToLua_eq (texts : Texts) (j : JsonValue) (hj : j.Sound) :
    jsonToLua vm outOfRange j = fieldValueToLua vm (jsonToField texts j) := by
  cases j with
  | null | bool | string => rfl
  | number n =>
    obtain ⟨f, hf⟩ := Option.isSome_iff_exists.mp n.asF64_isSome
    rw [jsonToLua, jsonToField, hf]
    cases n.asI64 <;> rfl
  | array items =>
    rw [jsonToLua, jsonToField, fieldValueToLua]
    simp only [setArray_eq texts items hj.2]
  | object members =>
    rw [jsonToLua, jsonToField_object hj.1, fieldValueToLua]
    simp only [setMembers_eq texts members hj.2]

theorem setArray_eq (texts : Texts) (items : List JsonValue)
    (hitems : JsonValue.SoundItems items) (t : Ref) (i : Int64) :
    setArray vm outOfRange t i items = setItems vm t i (jsonToFieldItems texts items) := by
  cases items with
  | nil => rfl
  | cons item items =>
    rw [setArray, jsonToFieldItems, setItems, jsonToLua_eq texts item hitems.1]
    simp only [setArray_eq texts items hitems.2]

theorem setMembers_eq (texts : Texts) (members : List (Str × JsonValue))
    (hmembers : JsonValue.SoundMembers members) (t : Ref) :
    setMembers vm outOfRange t members = setEntries vm t (jsonToFieldMembers texts members) := by
  cases members with
  | nil => rfl
  | cons e members =>
    obtain ⟨k, v⟩ := e
    rw [setMembers, jsonToFieldMembers, setEntries, jsonToLua_eq texts v hmembers.1]
    simp only [setMembers_eq texts members hmembers.2]
end

theorem jsonToLua_made (vm : Vm H) (outOfRange : JsonNumber → Str) (texts : Texts)
    (j : JsonValue) (hj : j.Sound) (h : Heap H) :
    ∃ v h', jsonToLua vm outOfRange j h = (.ok v, h') ∧ Made h h' v (jsonToField texts j) := by
  rw [jsonToLua_eq texts j hj]
  exact fieldValueToLua_made vm _ (jsonToField_sound j hj) h

def BatchEntry.Sound : BatchEntry → Prop
  | .ok v => v.Sound
  | .err e => e.data.Sound

theorem batchEntryToField_sound (texts : Texts) {entry : BatchEntry} (hentry : entry.Sound) :
    (batchEntryToField texts entry).Sound := by
  cases entry with
  | ok v =>
    refine ⟨by simp, trivial, jsonToField_sound v hentry, trivial⟩
  | err e =>
    refine ⟨by simp, trivial, ⟨by simp, trivial, trivial, ?_, trivial⟩, trivial⟩
    exact jsonToField_sound e.data hentry

theorem batchEntriesToField_sound (texts : Texts) {entries : List BatchEntry}
    (hentries : ∀ e ∈ entries, e.Sound) (hlen : entries.length < 2 ^ 63) :
    (batchEntriesToField texts entries).Sound := by
  refine ⟨by rwa [List.length_map], ?_⟩
  clear hlen
  induction entries with
  | nil => trivial
  | cons e entries ih =>
    rw [List.forall_mem_cons] at hentries
    exact ⟨batchEntryToField_sound texts hentries.1, ih hentries.2⟩

theorem batchEntryToLua_eq {entry : BatchEntry} (hentry : entry.Sound) :
    batchEntryToLua texts vm entry = fieldValueToLua vm (batchEntryToField texts entry) := by
  cases entry with
  | ok v =>
    simp only [batchEntryToLua, batchEntryToField, fieldValueToLua, setEntries,
      jsonToLua_eq texts v hentry, pure_bind, bind_assoc, bind_pure_unit]
  | err e =>
    simp only [batchEntryToLua, batchEntryToField, fieldValueToLua, setEntries,
      jsonToLua_eq texts e.data hentry, pure_bind, bind_assoc, bind_pure_unit]

theorem setBatchEntries_eq {entries : List BatchEntry} (hentries : ∀ e ∈ entries, e.Sound)
    (out : Ref) (i : Int64) :
    setBatchEntries texts vm out i entries =
      setItems vm out i (entries.map (batchEntryToField texts)) := by
  induction entries generalizing i with
  | nil => rfl
  | cons e entries ih =>
    rw [List.forall_mem_cons] at hentries
    rw [setBatchEntries, List.map_cons, setItems, batchEntryToLua_eq hentries.1]
    simp only [ih hentries.2]

theorem batchEntriesToLua_eq {entries : List BatchEntry} (hentries : ∀ e ∈ entries, e.Sound) :
    batchEntriesToLua texts vm entries =
      fieldValueToLua vm (batchEntriesToField texts entries) := by
  rw [batchEntriesToLua, batchEntriesToField, fieldValueToLua]
  simp only [setBatchEntries_eq hentries]

theorem fieldValueToLua_alike {f g : FieldValue} (hsame : FieldValue.Same f g) (hg : g.Sound)
    (h : Heap H) :
    ∃ v h₁ v' h₂, fieldValueToLua vm g h = (.ok v, h₁) ∧ fieldValueToLua vm f h = (.ok v', h₂) ∧
      Alike (· = ·) h₁ h₂ v v' := by
  obtain ⟨v, h₁, hv, hmade⟩ := fieldValueToLua_made vm g hg h
  obtain ⟨v', h₂, hv', hmade'⟩ := fieldValueToLua_made vm f (.same hsame hg) h
  refine ⟨v, h₁, v', h₂, hv, hv', hmade.holds.alike (hmade'.holds.same hsame) ?_⟩
  rintro t t' metatable metatable' ⟨-, rfl⟩ ⟨-, rfl⟩
  rfl

/-- What goes to Lua at once and what goes by way of a field value, in whatever order the maps of
that give their entries, are the same value. -/
theorem direct_alike_field (texts : Texts) (vm : Vm H) :
    (∀ entries : List BatchEntry, (∀ e ∈ entries, e.Sound) → entries.length < 2 ^ 63 →
      ∀ f, FieldValue.Same f (batchEntriesToField texts entries) → ∀ h, ∃ v h₁ v' h₂,
        batchEntriesToLua texts vm entries h = (.ok v, h₁) ∧
          fieldValueToLua vm f h = (.ok v', h₂) ∧ Alike (· = ·) h₁ h₂ v v') ∧
      ∀ j : JsonValue, j.Sound → ∀ f, FieldValue.Same f (jsonToField texts j) → ∀ h,
        ∃ v h₁ v' h₂, jsonToLua vm (Rpc.outOfRange texts) j h = (.ok v, h₁) ∧
          fieldValueToLua vm f h = (.ok v', h₂) ∧ Alike (· = ·) h₁ h₂ v v' := by
  constructor
  · intro entries hentries hlen f hsame h
    rw [batchEntriesToLua_eq hentries]
    exact fieldValueToLua_alike hsame (batchEntriesToField_sound texts hentries hlen) h
  · intro j hj f hsame h
    rw [jsonToLua_eq texts j hj]
    exact fieldValueToLua_alike hsame (jsonToField_sound j hj) h

theorem array_alike_field : ∃ v h₁ v' h₂,
    jsonToLua noCode (Rpc.outOfRange noTexts) (.array [.bool true, .null]) [] = (.ok v, h₁) ∧
      fieldValueToLua noCode (.list [.bool true, .null]) [] = (.ok v', h₂) ∧
        Alike (· = ·) h₁ h₂ v v' :=
  (direct_alike_field noTexts noCode).2 (.array [.bool true, .null])
    ⟨by decide, trivial, trivial, trivial⟩ _ (.list (.cons (.bool true) (.cons .null .nil))) []

def repliesTo (id : UInt64) (items : List JsonValue) : List JsonValue :=
  items.filter fun item => replyId item = some id

theorem repliesTo_cons (id : UInt64) (item : JsonValue) (items : List JsonValue) :
    repliesTo id (item :: items) =
      if replyId item = some id then item :: repliesTo id items else repliesTo id items := by
  rw [repliesTo, List.filter_cons]
  simp only [decide_eq_true_eq]
  rfl

theorem get_byId (items : List JsonValue) (map : List (UInt64 × JsonValue)) (id : UInt64) :
    Map.get (byId items map) id = (repliesTo id items).getLast?.or (Map.get map id) := by
  induction items generalizing map with
  | nil => rfl
  | cons item items ih =>
    rw [byId, repliesTo_cons]
    cases hid : replyId item with
    | none => rw [if_neg (by simp), ih]
    | some id' =>
      dsimp only
      rw [ih, Map.get_insert]
      by_cases heq : id' = id
      · rw [if_pos heq, if_pos (by rw [heq]), List.getLast?_cons]
        cases (repliesTo id items).getLast? <;> rfl
      · rw [if_neg heq, if_neg (by simpa using heq)]

theorem correlateBatchResponse_eq (items : List JsonValue) (ids : List UInt64) :
    correlateBatchResponse (.array items) ids =
      .ok (ids.map fun id => replyEntry id (repliesTo id items).getLast?) := by
  rw [correlateBatchResponse, JsonValue.asArray]
  simp only [get_byId, Map.get, Option.or_none]

theorem repliesTo_length_le {items : List JsonValue} (hids : (items.filterMap replyId).Nodup)
    (id : UInt64) : (repliesTo id items).length ≤ 1 := by
  rw [repliesTo, ← List.countP_eq_length_filter]
  have hcount := List.nodup_iff_count_le_one.mp hids id
  rw [List.count_filterMap] at hcount
  simpa only [beq_eq_decide] using hcount

theorem repliesTo_perm {items items' : List JsonValue} (hperm : items.Perm items')
    (hids : (items.filterMap replyId).Nodup) (id : UInt64) :
    repliesTo id items' = repliesTo id items := by
  have hfilter : (repliesTo id items).Perm (repliesTo id items') := hperm.filter _
  have hlen := repliesTo_length_le hids id
  cases h : repliesTo id items with
  | nil =>
    rw [h] at hfilter
    exact hfilter.nil_eq.symm
  | cons item rest =>
    rw [h] at hfilter hlen
    have hrest : rest.length = 0 := Nat.le_zero.mp (Nat.le_of_succ_le_succ hlen)
    obtain rfl := List.length_eq_zero_iff.mp hrest
    exact List.perm_singleton.mp hfilter.symm

def Known (ids : List UInt64) (item : JsonValue) : Prop := ∃ id ∈ ids, replyId item = some id

instance (ids : List UInt64) : DecidablePred (Known ids) :=
  fun item => inferInstanceAs (Decidable (∃ id ∈ ids, replyId item = some id))

theorem repliesTo_known {ids : List UInt64} {id : UInt64} (hid : id ∈ ids)
    (items : List JsonValue) :
    repliesTo id (items.filter fun item => Known ids item) = repliesTo id items := by
  rw [repliesTo, repliesTo, List.filter_filter]
  refine List.filter_congr fun item _ => ?_
  rw [Bool.and_eq_left_iff_imp]
  intro hitem
  exact decide_eq_true ⟨id, hid, of_decide_eq_true hitem⟩

/-- A batch has an entry for every id in their order, the one for the last reply with that id: in
whatever order replies with distinct ids come, and whatever replies come with no id or an unknown
one, the entries are the same, and an id without a reply has an error. -/
theorem correlateBatchResponse_byId (ids : List UInt64) (items : List JsonValue) :
    ∃ entries, correlateBatchResponse (.array items) ids = .ok entries ∧
      entries.length = ids.length ∧
      (∀ (i : Nat) (id : UInt64), ids[i]? = some id →
        entries[i]? = some (replyEntry id (repliesTo id items).getLast?)) ∧
      (∀ (i : Nat) (id : UInt64), ids[i]? = some id →
        ∀ items', repliesTo id items' = repliesTo id items →
          ∃ entries', correlateBatchResponse (.array items') ids = .ok entries' ∧
            entries'[i]? = entries[i]?) ∧
      (∀ items', items.Perm items' → (items.filterMap replyId).Nodup →
        correlateBatchResponse (.array items') ids = .ok entries) ∧
      (∀ items', (items'.filter fun item => Known ids item) =
          (items.filter fun item => Known ids item) →
        correlateBatchResponse (.array items') ids = .ok entries) ∧
      ∀ (i : Nat) (id : UInt64), ids[i]? = some id → (∀ item ∈ items, replyId item ≠ some id) →
        ∃ error, entries[i]? = some (BatchEntry.err error) := by
  simp only [correlateBatchResponse_eq, Except.ok.injEq]
  refine ⟨_, rfl, List.length_map _, ?_, ?_, ?_, ?_, ?_⟩
  · intro i id hid
    rw [List.getElem?_map, hid, Option.map_some]
  · intro i id hid items' hsame
    refine ⟨_, rfl, ?_⟩
    rw [List.getElem?_map, List.getElem?_map, hid, Option.map_some, Option.map_some, hsame]
  · intro items' hperm hids
    exact List.map_congr_left fun id _ => by rw [repliesTo_perm hperm hids]
  · intro items' hknown
    refine List.map_congr_left fun id hid => ?_
    rw [← repliesTo_known hid items', hknown, repliesTo_known hid]
  · intro i id hid hnone
    have hempty : repliesTo id items = [] := by
      rw [repliesTo, List.filter_eq_nil_iff]
      simpa using hnone
    rw [List.getElem?_map, hid, Option.map_some, hempty]
    exact ⟨_, rfl⟩

end Rpc

end Luaml
