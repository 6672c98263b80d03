import Luaml.Cycles

namespace Luaml

open Rust Lua Descent

section

variable {H : Type} (lib : Library) (vm : Vm H)

inductive ItemsRead (t : Ref) : Int64 → List FieldValue → Heap H → Heap H → Prop
  | nil {i : Int64} {h : Heap H} : ItemsRead t i [] h h
  | cons {i : Int64} {h h₁ h₂ h₃ : Heap H} {v : LuaValue} {item : FieldValue}
    {items : List FieldValue} {n : Nat} :
    Lua.get vm t (.integer i) h = (.ok v, h₁) →
      luaValueToFieldValue lib vm n v h₁ = some (item, h₂) →
        ItemsRead t (i + 1) items h₂ h₃ → ItemsRead t i (item :: items) h h₃

inductive EntriesRead : List (LuaValue × LuaValue) → FieldMap → Heap H → Heap H → Prop
  | nil {h : Heap H} : EntriesRead [] [] h h
  | cons {h h₁ h₂ : Heap H} {k v : LuaValue} {entries : List (LuaValue × LuaValue)} {key : Str}
    {value : FieldValue} {map : FieldMap} {n : Nat} :
    keyText lib k = some key → luaValueToFieldValue lib vm n v h = some (value, h₁) →
      EntriesRead entries map h₁ h₂ → EntriesRead ((k, v) :: entries) ((key, value) :: map) h h₂

def WithinItems (entries : List (LuaValue × LuaValue)) (len : Nat) : Prop :=
  ∀ e ∈ entries, ∃ k < len, e.1 = index k

/-- A list of all items and of all that is in the table, or a map, in any order, with an entry for
every key of it. -/
inductive Represents (t : Ref) (entries : List (LuaValue × LuaValue)) (h : Heap H) :
    FieldValue × Heap H → Prop
  | list {items : List FieldValue} {h' : Heap H} : ItemsRead lib vm t 1 items h h' →
    WithinItems entries items.length → Represents t entries h (.list items, h')
  | map {m m' : FieldMap} {h' : Heap H} : m.Perm m' → EntriesRead lib vm entries m' h h' →
    Represents t entries h (.map m, h')

/-- With a length a table has no key beyond it and no other, and without one its keys have texts,
each its own. -/
def KeepsKeys (t : Ref) (entries : List (LuaValue × LuaValue)) : Prop :=
  if 0 < lib.rawLen t entries then WithinItems entries (lib.rawLen t entries)
  else (∀ e ∈ entries, keyText lib e.1 ≠ none) ∧ (entries.map fun e => keyText lib e.1).Nodup

def ReadsItems (t : Ref) (entries : List (LuaValue × LuaValue)) (h : Heap H) : Prop :=
  ∀ k < lib.rawLen t entries, ∀ n items h₁,
    readItems vm (luaValueToFieldValue lib vm n) t k 1 h = some (items, h₁) →
      ∃ v h₂, Lua.get vm t (index k) h₁ = (.ok v, h₂)

end

variable {H : Type} {lib : Library} {vm : Vm H} {t : Ref} {h h' : Heap H}
  {entries : List (LuaValue × LuaValue)} {metatable : Option Ref}

theorem readItems_length_le {convert : LuaValue → Heap H → Option (FieldValue × Heap H)} {k : Nat}
    {i : Int64} {h : Heap H} {r : List FieldValue × Heap H}
    (hread : readItems vm convert t k i h = some r) : r.1.length ≤ k := by
  induction k generalizing i h r with
  | zero =>
    obtain rfl := Option.some.inj hread
    exact Nat.le_refl _
  | succ k ih =>
    rw [readItems] at hread
    split at hread
    · obtain ⟨⟨item, h₁⟩, -, hrest⟩ := Option.bind_eq_some_iff.mp hread
      obtain ⟨⟨items, h₂⟩, hitems, hend⟩ := Option.bind_eq_some_iff.mp hrest
      obtain rfl := Option.some.inj hend
      exact Nat.succ_le_succ (ih hitems)
    · exact (ih hread).trans (Nat.le_succ k)

theorem ReadsItems.itemsRead (hreads : ReadsItems lib vm t entries h) {n j k : Nat}
    (hjk : j + k ≤ lib.rawLen t entries) {done items : List FieldValue} {h₁ h₂ : Heap H}
    (hdone : readItems vm (luaValueToFieldValue lib vm n) t j 1 h = some (done, h₁))
    (hitems : readItems vm (luaValueToFieldValue lib vm n) t k (1 + Int64.ofNat j) h₁ =
      some (items, h₂)) :
    ItemsRead lib vm t (1 + Int64.ofNat j) items h₁ h₂ ∧ items.length = k := by
  induction k generalizing j done items h₁ with
  | zero =>
    obtain ⟨rfl, rfl⟩ := Prod.mk.inj (Option.some.inj hitems)
    exact ⟨.nil, rfl⟩
  | succ k ih =>
    obtain ⟨v, g, hv⟩ := hreads j (by omega) n done h₁ hdone
    rw [readItems, hv] at hitems
    obtain ⟨⟨item, g₁⟩, hitem, hloop⟩ := Option.bind_eq_some_iff.mp hitems
    obtain ⟨⟨rest, g₂⟩, hrest, hend⟩ := Option.bind_eq_some_iff.mp hloop
    obtain ⟨rfl, rfl⟩ := Prod.mk.inj (Option.some.inj hend)
    have hone : readItems vm (luaValueToFieldValue lib vm n) t 1 (1 + Int64.ofNat j) h₁ =
        some ([item], g₁) := by
      rw [readItems, hv]
      simp only [hitem, readItems, Option.bind_eq_bind, Option.bind_some]
    have hdone' : readItems vm (luaValueToFieldValue lib vm n) t (j + 1) 1 h =
        some (done ++ [item], g₁) := by
      rw [readItems_add, hdone, Option.bind_some, hone, Option.map_some]
    obtain ⟨hall, hlen⟩ := ih (by omega) hdone' (succ_index 1 j ▸ hrest)
    rw [← succ_index] at hall
    exact ⟨.cons hv hitem hall, by rw [List.length_cons, hlen]⟩

theorem readsItems_of_length {n : Nat} {items : List FieldValue}
    (hitems : readItems vm (luaValueToFieldValue lib vm n) t (lib.rawLen t entries) 1 h =
      some (items, h'))
    (hlen : items.length = lib.rawLen t entries) : ReadsItems lib vm t entries h := by
  intro k hk m done h₁ hdone
  obtain ⟨r, hr⟩ := readItems_prefix hk hitems hdone
  have hdone' := readItems_mono (luaValueToFieldValue_mono (Nat.le_max_left m n)) hdone
  have hr' := readItems_mono (luaValueToFieldValue_mono (Nat.le_max_right m n)) hr
  have hitems' := readItems_mono (luaValueToFieldValue_mono (Nat.le_max_right m n)) hitems
  obtain ⟨j, hj⟩ := Nat.exists_eq_add_of_lt hk
  have hrest : lib.rawLen t entries - k = j + 1 := by omega
  rw [hj, Nat.add_assoc, readItems_add, hdone', Option.bind_some, ← hrest, hr',
    Option.map_some] at hitems'
  obtain ⟨rfl, rfl⟩ := Prod.mk.inj (Option.some.inj hitems')
  have hbefore := readItems_length_le hdone
  rw [hrest, readItems] at hr
  rw [List.length_append] at hlen
  split at hr
  · exact ⟨_, _, ‹_›⟩
  · have hafter := readItems_length_le hr
    omega

theorem represents_list_iff {n : Nat} {items : List FieldValue} (hpos : 0 < lib.rawLen t entries)
    (hitems : readItems vm (luaValueToFieldValue lib vm n) t (lib.rawLen t entries) 1 h =
      some (items, h')) :
    Represents lib vm t entries h (.list items, h') ↔
      ReadsItems lib vm t entries h ∧ KeepsKeys lib t entries := by
  rw [KeepsKeys, if_pos hpos]
  constructor
  · intro hrep
    have hle : items.length ≤ lib.rawLen t entries := readItems_length_le hitems
    cases hrep with
    | list _ hwithin =>
      -- The last index is a key of the table.
      have hborder := lib.isBorder t entries
      obtain ⟨v, hv⟩ := mem_of_rawGet (hborder.present (Nat.ne_of_gt hpos))
      obtain ⟨k, hk, heq⟩ := hwithin _ hv
      have hk' : 1 + k < 2 ^ 63 := by
        have hlt := hborder.lt
        omega
      have hindex : lib.rawLen t entries = 1 + k := by
        rw [← ofNat_inj hborder.lt hk', Int64.ofNat_add 1 k]
        exact LuaValue.integer.inj heq
      have hlen : items.length = lib.rawLen t entries := by omega
      exact ⟨readsItems_of_length hitems hlen, hlen ▸ hwithin⟩
  · rintro ⟨hreads, hwithin⟩
    have hzero : (1 : Int64) = 1 + Int64.ofNat 0 := rfl
    obtain ⟨hall, hlen⟩ := hreads.itemsRead (j := 0) (by omega) rfl (hzero ▸ hitems)
    exact .list hall (hlen.symm ▸ hwithin)

theorem readEntries_keys {convert : LuaValue → Heap H → Option (FieldValue × Heap H)}
    {pairs : List (Str × LuaValue)} {map : FieldMap} {r : FieldMap × Heap H}
    (hread : readEntries convert pairs map h = some r) (hmap : (map.map Prod.fst).Nodup) :
    (r.1.map Prod.fst).Nodup := by
  induction pairs generalizing map h with
  | nil =>
    obtain rfl := Option.some.inj hread
    exact hmap
  | cons p pairs ih =>
    obtain ⟨k, v⟩ := p
    obtain ⟨⟨value, h₁⟩, -, hrest⟩ := Option.bind_eq_some_iff.mp hread
    exact ih hrest (Map.nodup_keys_insert hmap k value)

theorem EntriesRead.texts {map : FieldMap} (hread : EntriesRead lib vm entries map h h') :
    entries.map (fun e => keyText lib e.1) = map.map fun e => some e.1 := by
  induction hread with
  | nil => rfl
  | cons hkey _ _ ih => rw [List.map_cons, List.map_cons, hkey, ih]

theorem readEntries_entriesRead {n : Nat} {pairs : List (Str × LuaValue)}
    (hpairs : textPairs lib entries = some pairs) {map : FieldMap} {r : FieldMap × Heap H}
    (hread : readEntries (luaValueToFieldValue lib vm n) pairs map h = some r)
    (hkeys : (map.map Prod.fst ++ pairs.map Prod.fst).Nodup) :
    ∃ new, r.1 = map ++ new ∧ EntriesRead lib vm entries new h r.2 := by
  induction entries generalizing pairs map h with
  | nil =>
    obtain rfl := Option.some.inj hpairs
    obtain rfl := Option.some.inj hread
    exact ⟨[], (List.append_nil _).symm, .nil⟩
  | cons e entries ih =>
    obtain ⟨k, v⟩ := e
    rw [textPairs_cons] at hpairs
    obtain ⟨key, hkey, hpairs⟩ := Option.bind_eq_some_iff.mp hpairs
    obtain ⟨pairs, hrest, rfl⟩ := Option.map_eq_some_iff.mp hpairs
    obtain ⟨⟨value, h₁⟩, hvalue, hread⟩ := Option.bind_eq_some_iff.mp hread
    have hnew : key ∉ map.map Prod.fst := by
      intro hmem
      exact (List.nodup_append.mp hkeys).2.2 key hmem key (by simp) rfl
    dsimp only at hread
    rw [Map.insert_of_notMem hnew] at hread
    obtain ⟨new, hr, hall⟩ := ih hrest hread (by simpa using hkeys)
    rw [List.append_assoc] at hr
    exact ⟨(key, value) :: new, hr, .cons hkey hvalue hall⟩

theorem textPairs_texts {pairs : List (Str × LuaValue)}
    (hpairs : textPairs lib entries = some pairs) :
    entries.map (fun e => keyText lib e.1) = pairs.map fun p => some p.1 := by
  induction entries generalizing pairs with
  | nil =>
    obtain rfl := Option.some.inj hpairs
    rfl
  | cons e entries ih =>
    rw [textPairs_cons] at hpairs
    obtain ⟨key, hkey, hpairs⟩ := Option.bind_eq_some_iff.mp hpairs
    obtain ⟨pairs, hrest, rfl⟩ := Option.map_eq_some_iff.mp hpairs
    rw [List.map_cons, List.map_cons, hkey, ih hrest]

theorem textPairs_eq_none_iff :
    textPairs lib entries = none ↔ ∃ e ∈ entries, keyText lib e.1 = none := by
  induction entries with
  | nil => simp [textPairs]
  | cons e entries ih =>
    rw [textPairs_cons]
    cases hkey : keyText lib e.1 <;> simp [hkey, ih]

theorem nodup_some_iff {α β : Type} {l : List α} {f : α → β} :
    (l.map fun a => some (f a)).Nodup ↔ (l.map f).Nodup := by
  have hmap : (l.map fun a => some (f a)) = (l.map f).map some := by simp
  rw [hmap, List.nodup_map_iff (Option.some_injective β)]

theorem represents_map_iff {n : Nat} {pairs : List (Str × LuaValue)} {map : FieldMap}
    (hlen : lib.rawLen t entries = 0) (hpairs : textPairs lib entries = some pairs)
    (hmap : readEntries (luaValueToFieldValue lib vm n) pairs [] h = some (map, h')) :
    Represents lib vm t entries h (.map map, h') ↔ KeepsKeys lib t entries := by
  rw [KeepsKeys, if_neg (Nat.not_lt.mpr hlen.le), textPairs_texts hpairs, nodup_some_iff]
  constructor
  · intro hrep
    constructor
    · intro e he hnone
      rw [textPairs_eq_none_iff.mpr ⟨e, he, hnone⟩] at hpairs
      cases hpairs
    · cases hrep with
      | map hperm hread =>
        have hkeys := (hperm.map Prod.fst).nodup_iff.mp (readEntries_keys hmap List.nodup_nil)
        rw [← nodup_some_iff, ← textPairs_texts hpairs, hread.texts, nodup_some_iff]
        exact hkeys
  · rintro ⟨-, hnodup⟩
    obtain ⟨new, hr, hread⟩ := readEntries_entriesRead hpairs hmap hnodup
    exact .map (.of_eq hr) hread

theorem not_represents_of_textPairs (vm : Vm H) (t : Ref) (h h' : Heap H)
    (hlen : lib.rawLen t entries = 0) (hpairs : textPairs lib entries = none) :
    ¬Represents lib vm t entries h (.map [], h') ∧ ¬KeepsKeys lib t entries := by
  obtain ⟨e, he, hnone⟩ := textPairs_eq_none_iff.mp hpairs
  rw [KeepsKeys, if_neg (Nat.not_lt.mpr hlen.le)]
  constructor
  · intro hrep
    cases hrep with
    | map hperm hread =>
      obtain rfl := hperm.nil_eq
      cases hread with
      | nil => cases he
  · exact fun hkeeps => hkeeps.1 e he hnone

theorem represents_iff (ht : h[t]? = some (.table entries metatable)) {n : Nat}
    {r : FieldValue × Heap H} (hr : luaValueToFieldValue lib vm n (.table t) h = some r) :
    Represents lib vm t entries h r ↔
      ReadsItems lib vm t entries h ∧ KeepsKeys lib t entries := by
  cases n with
  | zero => cases hr
  | succ n =>
    rw [luaValueToFieldValue, readTable, ht] at hr
    dsimp only at hr
    split at hr
    · obtain ⟨⟨items, h₁⟩, hitems, hend⟩ := Option.bind_eq_some_iff.mp hr
      obtain rfl := Option.some.inj hend
      exact represents_list_iff ‹_› hitems
    · have hlen := Nat.eq_zero_of_not_pos ‹_›
      have hreads : ReadsItems lib vm t entries h := by
        intro k hk
        omega
      rw [and_iff_right hreads]
      split at hr
      · obtain ⟨⟨map, h₁⟩, hmap, hend⟩ := Option.bind_eq_some_iff.mp hr
        obtain rfl := Option.some.inj hend
        exact represents_map_iff hlen ‹_› hmap
      · obtain rfl := Option.some.inj hr
        obtain ⟨hrep, hkeeps⟩ := not_represents_of_textPairs vm t h h hlen ‹_›
        exact iff_of_false hrep hkeeps

theorem Quiet.readsItems (hquiet : Quiet lib h) (ht : h[t]? = some (.table entries metatable)) :
    ReadsItems lib vm t entries h := by
  intro k hk n items h₁ hitems
  have hsame : h₁ = h := readItems_still (j := 0) hquiet (hquiet.still _) ht (by omega) hitems
  exact ⟨_, _, hsame ▸ hquiet.get ht hk⟩

/-- A conversion that comes to an end represents a table exactly when no item raises an error and
its keys are kept, and the former goes without saying where no code runs when an item is read. -/
theorem conversion_represents_iff (lib : Library) (vm : Vm H) {t : Ref} {h : Heap H}
    {entries : List (LuaValue × LuaValue)} {metatable : Option Ref}
    (ht : h[t]? = some (.table entries metatable))
    (hfinite : ¬Endless (Enters lib vm) (.value (.table t), h)) :
    ∃ n r, luaValueToFieldValue lib vm n (.table t) h = some r ∧
      (Represents lib vm t entries h r ↔
        ReadsItems lib vm t entries h ∧ KeepsKeys lib t entries) ∧
      (Quiet lib h → (Represents lib vm t entries h r ↔ KeepsKeys lib t entries)) := by
  obtain ⟨n, r, hr⟩ := ends_iff.mpr hfinite
  have hrep := represents_iff ht hr
  refine ⟨n, r, hr, hrep, fun hquiet => ?_⟩
  rw [hrep, and_iff_right (hquiet.readsItems ht)]

def namedEntries : List (LuaValue × LuaValue) :=
  stringEntries [("role".toList, .string "admin".toList)]

theorem named_ends : ¬Endless (Enters countingLibrary noCode)
    (.value (.table 0), [.table namedEntries none]) := by
  have hreads : Reads countingLibrary noCode 0 [.table namedEntries none] (.table 0)
      (.map [("role".toList, .string "admin".toList)]) :=
    reads_map (Nat.le_refl 0) rfl (by decide) rfl (.cons (.of_read fun _ _ => rfl) .nil)
  obtain ⟨n, hn⟩ := hreads
  exact ends_iff.mp ⟨n, _, hn n (Nat.le_refl n) _ fun _ _ _ => rfl⟩

theorem named_represented :
    ∃ n r, luaValueToFieldValue countingLibrary noCode n (.table 0) [.table namedEntries none] =
        some r ∧
      Represents countingLibrary noCode 0 namedEntries [.table namedEntries none] r := by
  obtain ⟨n, r, hr, -, hquiet⟩ :=
    conversion_represents_iff countingLibrary noCode (t := 0) rfl named_ends
  have hlen : countingLibrary.rawLen 0 namedEntries = 0 :=
    border_stringEntries (countingLibrary.isBorder 0 _)
  refine ⟨n, r, hr, (hquiet (singleton_quiet _ _)).mpr ?_⟩
  rw [KeepsKeys, if_neg (Nat.not_lt.mpr hlen.le)]
  exact ⟨by simp [namedEntries, stringEntries, keyText], List.nodup_singleton _⟩

def StringOrInteger : LuaValue → Prop
  | .string _ | .bytes _ | .integer _ => True
  | _ => False

def mixedEntries : List (LuaValue × LuaValue) :=
  [(.string "role".toList, .string "admin".toList), (.integer 1, .string "ada".toList)]

theorem mixedEntries_items : HasItems mixedEntries [.string "ada".toList] := by
  have hempty : HasItems [(.string "role".toList, .string "admin".toList)] [] := fun _ _ => rfl
  exact hempty.push (by decide) (.string "ada".toList)

theorem mixedEntries_length (lib : Library) (t : Ref) : lib.rawLen t mixedEntries = 1 :=
  mixedEntries_items.border (by decide) (by simp) (lib.isBorder t _)

theorem mixed_ends (lib : Library) (vm : Vm H) :
    ¬Endless (Enters lib vm) (.value (.table 0), [.table mixedEntries none]) := by
  have hreads : Reads lib vm 0 [.table mixedEntries none] (.table 0)
      (.list [.string "ada".toList]) :=
    reads_list (Nat.le_refl 0) rfl mixedEntries_items (by decide) (by simp) (by simp)
      (.cons (.of_read fun _ _ => rfl) .nil)
  obtain ⟨n, hn⟩ := hreads
  exact ends_iff.mp ⟨n, _, hn n (Nat.le_refl n) _ fun _ _ _ => rfl⟩

theorem mixed_not_kept (lib : Library) (t : Ref) : ¬KeepsKeys lib t mixedEntries := by
  rw [KeepsKeys, mixedEntries_length, if_pos Nat.one_pos]
  intro hwithin
  obtain ⟨k, -, hk⟩ := hwithin _ (List.mem_cons_self)
  cases hk

theorem mixed_not_represented :
    ¬∀ (lib : Library) (vm : Vm Unit) (t : Ref) (h : Heap Unit)
      (entries : List (LuaValue × LuaValue)) (metatable : Option Ref),
      h[t]? = some (.table entries metatable) → (∀ e ∈ entries, StringOrInteger e.1) →
        ¬Endless (Enters lib vm) (.value (.table t), h) →
          ∃ n r, luaValueToFieldValue lib vm n (.table t) h = some r ∧
            Represents lib vm t entries h r := by
  intro hall
  obtain ⟨n, r, hr, hrep⟩ := hall countingLibrary noCode 0 [.table mixedEntries none] mixedEntries
    none rfl (by simp [mixedEntries, StringOrInteger]) (mixed_ends _ _)
  exact mixed_not_kept _ _ ((represents_iff rfl hr).mp hrep).2

end Luaml
