import Luaml.Bridge
import Luaml.ExecutorLaws
import Mathlib.Data.Nat.Find

namespace Luaml

open Rust Lua

variable {H : Type}

structure Written (lib : Library) (vm : Vm H) (h h' : Heap H) (value : LuaValue) (v : FieldValue) :
    Prop where
  length_le : h.length ≤ h'.length
  old : ∀ r, r < h.length → h'[r]? = h[r]?
  nil_iff : value = .nil ↔ v = .null
  reads : Reads lib vm h.length h' value (bridged v)

theorem bridgedItems_length (vs : List FieldValue) : (bridgedItems vs).length = vs.length := by
  induction vs with
  | nil => rfl
  | cons v vs ih => simp [bridgedItems, ih]

structure Grown (h h' : Heap H) (t : Ref) (entries' : List (LuaValue × LuaValue)) : Prop where
  length_le : h.length ≤ h'.length
  old : ∀ r, r < h.length → r ≠ t → h'[r]? = h[r]?
  table : h'[t]? = some (.table entries' none)

theorem bridgedEntries_names (m : List (Str × FieldValue)) :
    ((bridgedEntries m).map Prod.fst).Sublist (m.map Prod.fst) := by
  induction m with
  | nil => exact .slnil
  | cons e m ih =>
    obtain ⟨k, v⟩ := e
    rw [bridgedEntries]
    split_ifs
    · exact ih.cons k
    · exact ih.cons_cons k

section

variable {lib : Library} {vm : Vm H}

theorem Written.of_scalar {h : Heap H} {value : LuaValue} {v : FieldValue}
    (hnil : value = .nil ↔ v = .null) (hread : ∀ n (h' : Heap H),
      luaValueToFieldValue lib vm (n + 1) value h' = some (bridged v, h')) :
    Written lib vm h h value v :=
  ⟨Nat.le_refl _, fun _ _ => rfl, hnil, Reads.of_read hread⟩

theorem set_grown {h h' : Heap H} (hle : h.length ≤ h'.length)
    (hold : ∀ r, r < h.length → h'[r]? = h[r]?) {t : Ref} {entries : List (LuaValue × LuaValue)}
    (ht : h[t]? = some (.table entries none)) (key value : LuaValue) :
    Lua.set vm t key value h' =
        (.ok (), h'.set t (.table (rawSet entries key value) none)) ∧
      Grown h (h'.set t (.table (rawSet entries key value) none)) t (rawSet entries key value) := by
  have hlt : t < h.length := (List.getElem?_eq_some_iff.mp ht).1
  have ht' : h'[t]? = some (.table entries none) := by rw [hold t hlt, ht]
  refine ⟨set_eq ht' (fun _ => rfl) value, ?_, ?_, ?_⟩
  · rw [List.length_set]
    exact hle
  · intro r hr hne
    rw [List.getElem?_set_ne (Ne.symm hne), hold r hr]
  · rw [List.getElem?_set_self (hlt.trans_le hle)]

theorem Grown.trans {g h h' : Heap H} {t : Ref} {entries entries' : List (LuaValue × LuaValue)}
    (hg : Grown g h t entries) (hh : Grown h h' t entries') : Grown g h' t entries' where
  length_le := hg.length_le.trans hh.length_le
  old r hr hne := (hh.old r (hr.trans_le hg.length_le) hne).trans (hg.old r hr hne)
  table := hh.table

theorem Grown.refl {h : Heap H} {t : Ref} {entries : List (LuaValue × LuaValue)}
    (ht : h[t]? = some (.table entries none)) : Grown h h t entries :=
  ⟨Nat.le_refl _, fun _ _ _ => rfl, ht⟩

theorem Grown.above_new {h h' : Heap H} {entries : List (LuaValue × LuaValue)}
    (hgrown : Grown (h ++ [.table [] none]) h' h.length entries) :
    h.length ≤ h'.length ∧ ∀ r, r < h.length → h'[r]? = h[r]? := by
  have hlen := hgrown.length_le
  rw [List.length_append] at hlen
  refine ⟨(Nat.le_add_right _ _).trans hlen, fun r hr => ?_⟩
  rw [hgrown.old r (by simp; omega) (Nat.ne_of_lt hr), List.getElem?_append_left hr]

theorem Grown.old_of_set {h h' : Heap H} {t : Ref} {o : Object H}
    {entries : List (LuaValue × LuaValue)} (hgrown : Grown (h.set t o) h' t entries) {r : Ref}
    (hr : t < r) (hrh : r < h.length) : h'[r]? = h[r]? := by
  have hne : r ≠ t := hr.ne'
  rw [hgrown.old r (by rwa [List.length_set]) hne, List.getElem?_set_ne (Ne.symm hne)]

theorem Written.of_new {h h' : Heap H} {entries : List (LuaValue × LuaValue)} {v : FieldValue}
    (hgrown : Grown (h ++ [.table [] none]) h' h.length entries) (hv : v ≠ .null)
    (hreads : Reads lib vm h.length h' (.table h.length) (bridged v)) :
    Written lib vm h h' (.table h.length) v where
  length_le := hgrown.above_new.1
  old := hgrown.above_new.2
  nil_iff := by simp [hv]
  reads := hreads

theorem Reads.below {lo : Ref} {h : Heap H} {value : LuaValue} {v : FieldValue}
    (hreads : Reads lib vm (lo + 1) h value v) : Reads lib vm lo h value v :=
  hreads.frame (Nat.le_succ lo) (Nat.le_refl _) fun _ _ _ => rfl

theorem Written.reads_grown {g h h' : Heap H} {value : LuaValue} {v : FieldValue}
    (hwritten : Written lib vm g h value v) {t : Ref} (ht : t < g.length)
    {o : Object H} {entries : List (LuaValue × LuaValue)}
    (hgrown : Grown (h.set t o) h' t entries) :
    Reads lib vm (t + 1) h' value (bridged v) := by
  have hlen := hgrown.length_le
  rw [List.length_set] at hlen
  exact hwritten.reads.frame ht hlen fun r hr hrh =>
    hgrown.old_of_set (Nat.lt_of_lt_of_le ht hr) hrh

mutual
theorem fieldValueToLua_written (v : FieldValue) (hv : Bridgeable v) (h : Heap H) :
    ∃ value h', fieldValueToLua vm v h = (.ok value, h') ∧ Written lib vm h h' value v := by
  cases v with
  | enum s => exact ⟨_, h, rfl, .of_scalar (by simp) fun _ _ => rfl⟩
  | string s => exact ⟨_, h, rfl, .of_scalar (by simp) fun _ _ => rfl⟩
  | number n => exact ⟨_, h, rfl, .of_scalar (by simp) fun _ _ => rfl⟩
  | float f => exact ⟨_, h, rfl, .of_scalar (by simp) fun _ _ => rfl⟩
  | bool b => exact ⟨_, h, rfl, .of_scalar (by simp) fun _ _ => rfl⟩
  | null => exact ⟨_, h, rfl, .of_scalar (by simp) fun _ _ => rfl⟩
  | list items =>
    have ht : (h ++ [Object.table [] none])[h.length]? = some (.table [] none) := by simp
    cases items with
    | nil =>
      have hempty : (h ++ [Object.table [] none])[h.length]? =
          some (.table (stringEntries []) none) := ht
      refine ⟨.table h.length, h ++ [.table [] none], rfl, ?_⟩
      exact .of_new (.refl ht) (by simp) (reads_map (Nat.le_refl _) hempty List.nodup_nil rfl .nil)
    | cons item items =>
      obtain ⟨values, entries, h', hset, hgrown, hitems, hpresent, hreads⟩ :=
        setItems_written (item :: items) hv.2 [] (i := 1) rfl ht (fun j _ => rfl)
          (by simpa using hv.1)
      have hlen := hreads.length_eq
      rw [bridgedItems_length] at hlen
      refine ⟨.table h.length, h', ?_, ?_⟩
      · rw [fieldValueToLua, LuaM.bind_of_ok (createTable_eq h), LuaM.bind_of_ok hset]
        rfl
      · refine .of_new hgrown (by simp) ?_
        refine reads_list (Nat.le_refl _) hgrown.table hitems (hlen ▸ hv.1) hpresent ?_ ?_
        · rintro rfl
          simp at hlen
        · exact hreads.imp fun _ _ hread => hread.below
  | map m =>
    have ht : (h ++ [Object.table [] none])[h.length]? = some (.table (stringEntries []) none) := by
      simp [stringEntries]
    obtain ⟨pairs, h', hset, hgrown, hnames, hreads⟩ :=
      setEntries_written m hv.2 [] ht (by simpa using hv.1)
    refine ⟨.table h.length, h', ?_, ?_⟩
    · rw [fieldValueToLua, LuaM.bind_of_ok (createTable_eq h), LuaM.bind_of_ok hset]
      rfl
    · refine .of_new hgrown (by simp) ?_
      have hnodup := hv.1.sublist (bridgedEntries_names m)
      refine reads_map (Nat.le_refl _) hgrown.table hnodup hnames ?_
      exact hreads.imp fun _ _ hread => hread.below

theorem setItems_written (items : List FieldValue) (hitems : BridgeableItems items) {h : Heap H}
    {t : Ref} {entries : List (LuaValue × LuaValue)} (values : List LuaValue) {i : Int64}
    (hi : i = Int64.ofNat (values.length + 1)) (ht : h[t]? = some (.table entries none))
    (hdone : HasItems entries values) (hlen : values.length + items.length < 2 ^ 63) :
    ∃ values' entries' h', setItems vm t i items h = (.ok (), h') ∧
      Grown h h' t entries' ∧ HasItems entries' (values ++ values') ∧
      (∀ value ∈ values', value ≠ .nil) ∧
      List.Forall₂ (Reads lib vm (t + 1) h') values' (bridgedItems items) := by
  cases items with
  | nil => exact ⟨[], entries, h, rfl, .refl ht, by simpa using hdone, by simp, .nil⟩
  | cons item items =>
    obtain ⟨hnull, hitem, hrest⟩ := hitems
    obtain ⟨value, g, hvalue, hwritten⟩ := fieldValueToLua_written item hitem h
    obtain ⟨hset, hgrown⟩ := set_grown hwritten.length_le hwritten.old ht (.integer i) value
    have hlt : t < h.length := (List.getElem?_eq_some_iff.mp ht).1
    rw [List.length_cons] at hlen
    have hpush : HasItems (rawSet entries (.integer i) value) (values ++ [value]) := by
      rw [hi]
      exact hdone.push (by omega) value
    have hnext : i + 1 = Int64.ofNat ((values ++ [value]).length + 1) := by
      rw [hi, List.length_append, List.length_singleton, Int64.ofNat_add (values.length + 1) 1]
      rfl
    obtain ⟨values', entries', h', hloop, hgrown', hall, hpresent, hreads⟩ :=
      setItems_written items hrest (values ++ [value]) hnext hgrown.table hpush
        (by simp; omega)
    refine ⟨value :: values', entries', h', ?_, hgrown.trans hgrown', ?_, ?_, ?_⟩
    · rw [setItems, LuaM.bind_of_ok hvalue, LuaM.bind_of_ok hset]
      exact hloop
    · rwa [List.append_assoc, List.singleton_append] at hall
    · rw [List.forall_mem_cons]
      exact ⟨fun hnil => hnull (hwritten.nil_iff.mp hnil), hpresent⟩
    · exact .cons (hwritten.reads_grown hlt hgrown') hreads

theorem setEntries_written (m : List (Str × FieldValue)) (hm : BridgeableEntries m) {h : Heap H}
    {t : Ref} (pairs : List (Str × LuaValue))
    (ht : h[t]? = some (.table (stringEntries pairs) none))
    (hkeys : (pairs.map Prod.fst ++ m.map Prod.fst).Nodup) :
    ∃ pairs' h', setEntries vm t m h = (.ok (), h') ∧
      Grown h h' t (stringEntries (pairs ++ pairs')) ∧
      pairs'.map Prod.fst = (bridgedEntries m).map Prod.fst ∧
      List.Forall₂ (fun p e => Reads lib vm (t + 1) h' p.2 e.2) pairs' (bridgedEntries m) := by
  cases m with
  | nil => exact ⟨[], h, rfl, by simpa using .refl ht, rfl, .nil⟩
  | cons e m =>
    obtain ⟨k, v⟩ := e
    obtain ⟨hv, hrest⟩ := hm
    obtain ⟨value, g, hvalue, hwritten⟩ := fieldValueToLua_written v hv h
    obtain ⟨hset, hgrown⟩ := set_grown hwritten.length_le hwritten.old ht (.string k) value
    have hlt : t < h.length := (List.getElem?_eq_some_iff.mp ht).1
    have hnew : k ∉ pairs.map Prod.fst := by
      intro hmem
      exact (List.nodup_append.mp hkeys).2.2 k hmem k (by simp) rfl
    have hkey := mt string_mem_stringEntries.mp hnew
    by_cases hnull : v = .null
    · -- The entry is not set, and is not there afterwards.
      rw [hwritten.nil_iff.mpr hnull, rawSet_nil_of_new hkey] at hset hgrown
      rw [hwritten.nil_iff.mpr hnull] at hvalue
      have hkeys' : (pairs.map Prod.fst ++ m.map Prod.fst).Nodup :=
        hkeys.sublist ((List.sublist_cons_self _ _).append_left _)
      obtain ⟨pairs', h', hloop, hgrown', hnames, hreads⟩ :=
        setEntries_written m hrest pairs hgrown.table hkeys'
      refine ⟨pairs', h', ?_, hgrown.trans hgrown', ?_, ?_⟩
      · rw [setEntries, LuaM.bind_of_ok hvalue, LuaM.bind_of_ok hset]
        exact hloop
      · rwa [bridgedEntries, if_pos hnull]
      · rwa [bridgedEntries, if_pos hnull]
    · have hpresent := mt hwritten.nil_iff.mp hnull
      have hpush : rawSet (stringEntries pairs) (.string k) value =
          stringEntries (pairs ++ [(k, value)]) := by
        rw [rawSet_of_new hpresent hkey, stringEntries_append]
        rfl
      rw [hpush] at hset hgrown
      have hkeys' : ((pairs ++ [(k, value)]).map Prod.fst ++ m.map Prod.fst).Nodup := by
        rw [List.map_append, List.append_assoc]
        exact hkeys
      obtain ⟨pairs', h', hloop, hgrown', hnames, hreads⟩ :=
        setEntries_written m hrest (pairs ++ [(k, value)]) hgrown.table hkeys'
      rw [List.append_assoc, List.singleton_append] at hgrown'
      refine ⟨(k, value) :: pairs', h', ?_, hgrown.trans hgrown', ?_, ?_⟩
      · rw [setEntries, LuaM.bind_of_ok hvalue, LuaM.bind_of_ok hset]
        exact hloop
      · rw [bridgedEntries, if_neg hnull, List.map_cons, List.map_cons, hnames]
      · rw [bridgedEntries, if_neg hnull]
        exact .cons (hwritten.reads_grown hlt hgrown') hreads
end

/-- A value that goes to Lua and back is what is documented to be left of it. -/
theorem luaValueToFieldValue_fieldValueToLua (lib : Library) (vm : Vm H) (v : FieldValue)
    (hv : Bridgeable v) (h : Heap H) :
    ∃ value h', fieldValueToLua vm v h = (.ok value, h') ∧
      ∃ n, ∀ m, n ≤ m → luaValueToFieldValue lib vm m value h' = some (bridged v, h') := by
  obtain ⟨value, h', hvalue, hwritten⟩ := fieldValueToLua_written v hv h
  obtain ⟨n, hn⟩ := hwritten.reads
  exact ⟨value, h', hvalue, n, fun m hm => hn m hm h' fun _ _ _ => rfl⟩

end

def Gap (entries : List (LuaValue × LuaValue)) (n : Nat) : Prop :=
  n + 1 = 2 ^ 63 ∨ rawGet entries (.integer (Int64.ofNat (n + 1))) = .nil

instance (entries : List (LuaValue × LuaValue)) : DecidablePred (Gap entries) :=
  fun _ => inferInstanceAs (Decidable (_ ∨ _))

theorem exists_gap (entries : List (LuaValue × LuaValue)) : ∃ n, Gap entries n :=
  ⟨2 ^ 63 - 1, .inl rfl⟩

theorem find_gap_isBorder (entries : List (LuaValue × LuaValue)) :
    IsBorder entries (Nat.find (exists_gap entries)) where
  lt := by
    have hle : Nat.find (exists_gap entries) ≤ 2 ^ 63 - 1 := Nat.find_min' _ (.inl rfl)
    omega
  present hne := by
    obtain ⟨n, hn⟩ := Nat.exists_eq_succ_of_ne_zero hne
    have hbefore : ¬ Gap entries n := Nat.find_min (exists_gap entries) (by omega)
    rw [hn]
    exact fun hnil => hbefore (.inr hnil)
  absent hlt := (Nat.find_spec (exists_gap entries)).resolve_left (Nat.ne_of_lt hlt)

def countingLibrary : Library :=
  ⟨fun _ entries => Nat.find (exists_gap entries), fun _ => find_gap_isBorder, fun _ => []⟩

def nestedValue : FieldValue :=
  .map [("1".toList, .list [.enum "open".toList, .map [("gone".toList, .null)]]),
    ("2".toList, .list []), ("3".toList, .null)]

theorem nestedValue_bridged :
    ∃ value h', fieldValueToLua noCode nestedValue [] = (.ok value, h') ∧
      ∃ n, ∀ m, n ≤ m → luaValueToFieldValue countingLibrary noCode m value h' =
        some (.map [("1".toList, .list [.string "open".toList, .map []]), ("2".toList, .map [])],
          h') := by
  have hv : Bridgeable nestedValue := by
    simp [nestedValue, Bridgeable, BridgeableItems, BridgeableEntries]
  exact luaValueToFieldValue_fieldValueToLua countingLibrary noCode nestedValue hv []

end Luaml
