import Luaml.Discovery
import Luaml.Plain

namespace Luaml

open Rust Str

instance : Std.Total fun a b : Str × FieldValueSig => Str.le a.1 b.1 :=
  ⟨fun a b => Str.le_total a.1 b.1⟩

instance : IsTrans (Str × FieldValueSig) fun a b => Str.le a.1 b.1 :=
  ⟨fun _ _ _ h h' => Str.le_trans h h'⟩

theorem sortByKey_eq_of_perm {pairs pairs' : List (Str × FieldValueSig)}
    (hkeys : (pairs.map Prod.fst).Nodup) (h : pairs.Perm pairs') :
    sortByKey pairs = sortByKey pairs' := by
  have hperm : (sortByKey pairs).Perm (sortByKey pairs') := calc
    (sortByKey pairs).Perm pairs := List.perm_insertionSort _ _
    List.Perm _ pairs' := h
    List.Perm _ (sortByKey pairs') := (List.perm_insertionSort _ _).symm
  refine List.Perm.eq_of_pairwise ?_ (List.pairwise_insertionSort _ _)
    (List.pairwise_insertionSort _ _) hperm
  rintro ⟨k, v⟩ ⟨l, w⟩ hv hw hkl hlk
  obtain rfl : k = l := Str.le_antisymm hkl hlk
  have hvget := Map.get_of_mem hkeys ((List.perm_insertionSort _ _).mem_iff.mp hv)
  have hwget := Map.get_of_mem hkeys (h.mem_iff.mpr ((List.perm_insertionSort _ _).mem_iff.mp hw))
  rw [Option.some.inj (hvget.symm.trans hwget)]

theorem fromEntries_keys (m : List (Str × FieldValue)) :
    (fromEntries m).map Prod.fst = m.map Prod.fst := by
  rw [fromEntries_eq_map, List.map_map]
  rfl

theorem fromEntries_perm {m m' : List (Str × FieldValue)} (h : m.Perm m') :
    (fromEntries m).Perm (fromEntries m') := by
  rw [fromEntries_eq_map, fromEntries_eq_map]
  exact h.map _

mutual
theorem fromValue_of_same {v w : FieldValue} (hv : v.Keyed) (h : v.Same w) :
    fromValue v = fromValue w := by
  cases h with
  | list hitems =>
    rw [FieldValue.Keyed] at hv
    rw [fromValue, fromValue, fromItems_of_same hv hitems]
  | map hentries hperm =>
    obtain ⟨hkeys, hvalues⟩ := hv
    have hsame := fromEntries_of_same hvalues hentries
    rw [← fromEntries_keys] at hkeys
    rw [fromValue, fromValue, sortByKey_eq_of_perm hkeys (hsame ▸ fromEntries_perm hperm)]
  | _ => rfl

theorem fromItems_of_same {vs ws : List FieldValue} (hvs : FieldValue.KeyedList vs)
    (h : FieldValue.SameItems vs ws) : fromItems vs = fromItems ws := by
  cases h with
  | nil => rfl
  | cons hv hrest => rw [fromItems, fromItems, fromValue_of_same hvs.1 hv,
      fromItems_of_same hvs.2 hrest]

theorem fromEntries_of_same {m m' : List (Str × FieldValue)} (hm : FieldValue.KeyedEntries m)
    (h : FieldValue.SameEntries m m') : fromEntries m = fromEntries m' := by
  cases h with
  | nil => rfl
  | cons hv hrest => rw [fromEntries, fromEntries, fromValue_of_same hm.1 hv,
      fromEntries_of_same hm.2 hrest]
end

/-- Two events have one signature if and only if they are the same. -/
theorem eventSignature_eq_iff {event event' : FieldMap} (h : FieldMap.Keyed event) :
    eventSignature event = eventSignature event' ↔ FieldMap.Same event event' := by
  constructor
  · exact same_of_eventSignature
  · intro hsame
    have hvalue := fromValue_of_same h hsame
    rw [fromValue, fromValue] at hvalue
    exact FieldValue.map.inj hvalue

theorem eventSignature_eq_iff_swapped :
    eventSignature [("a".toList, .map [("x".toList, .null), ("y".toList, .bool true)]),
        ("b".toList, .number 1)] =
      eventSignature [("b".toList, .number 1),
        ("a".toList, .map [("y".toList, .bool true), ("x".toList, .null)])] ↔
    FieldMap.Same [("a".toList, .map [("x".toList, .null), ("y".toList, .bool true)]),
        ("b".toList, .number 1)]
      [("b".toList, .number 1),
        ("a".toList, .map [("y".toList, .bool true), ("x".toList, .null)])] :=
  eventSignature_eq_iff (by simp [FieldMap.Keyed, FieldValue.Keyed, FieldValue.KeyedEntries])

end Luaml
