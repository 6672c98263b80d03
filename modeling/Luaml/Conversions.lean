import Luaml.BridgeLaws
import Luaml.Lib.Descent

namespace Luaml

open Rust Lua Descent Relation

def keyError (k : LuaValue) : Str :=
  "error converting Lua ".toList ++ k.typeName ++ " to String".toList

section

variable {H : Type} (lib : Library) (vm : Vm H)

def readFields (convert : LuaValue → Heap H → Option (FieldValue × Heap H)) :
    List (LuaValue × LuaValue) → FieldMap → Heap H → Option (Except Str FieldMap × Heap H)
  | [], map, h => some (.ok map, h)
  | (k, v) :: pairs, map, h =>
    match keyText lib k with
    | none => some (.error (keyError k), h)
    | some key => do
      let (value, h) ← convert v h
      readFields convert pairs (Map.insert map key value) h

/-- `lua_table_to_fieldmap`, if it recurs no deeper than `n`. -/
def luaTableToFieldmap (n : Nat) (t : Ref) (h : Heap H) : Option (Except Str FieldMap × Heap H) :=
  match h[t]? with
  | some (.table entries _) => readFields lib (luaValueToFieldValue lib vm n) entries [] h
  | _ => some (.ok [], h)

inductive Conversion
  | value (v : LuaValue)
  | fields (t : Ref)

def Ends : Conversion × Heap H → Prop
  | (.value v, h) => ∃ n r, luaValueToFieldValue lib vm n v h = some r
  | (.fields t, h) => ∃ n r, luaTableToFieldmap lib vm n t h = some r

/-- A call comes to convert a value that it has read out of its table, once what is before the value
has been converted. -/
inductive Enters : Conversion × Heap H → Conversion × Heap H → Prop
  | item {t : Ref} {h h₁ h₂ : Heap H} {entries : List (LuaValue × LuaValue)}
    {metatable : Option Ref} {n k : Nat} {items : List FieldValue} {v : LuaValue} :
    h[t]? = some (.table entries metatable) → k < lib.rawLen t entries →
      readItems vm (luaValueToFieldValue lib vm n) t k 1 h = some (items, h₁) →
        Lua.get vm t (index k) h₁ = (.ok v, h₂) →
          Enters (.value (.table t), h) (.value v, h₂)
  | entry {t : Ref} {h h₁ : Heap H} {entries : List (LuaValue × LuaValue)}
    {metatable : Option Ref} {n : Nat} {pre post : List (Str × LuaValue)} {key : Str}
    {v : LuaValue} {map : FieldMap} :
    h[t]? = some (.table entries metatable) → lib.rawLen t entries = 0 →
      textPairs lib entries = some (pre ++ (key, v) :: post) →
        readEntries (luaValueToFieldValue lib vm n) pre [] h = some (map, h₁) →
          Enters (.value (.table t), h) (.value v, h₁)
  | field {t : Ref} {h h₁ : Heap H} {metatable : Option Ref} {n : Nat}
    {pre post : List (LuaValue × LuaValue)} {key v : LuaValue} {map : FieldMap} :
    h[t]? = some (.table (pre ++ (key, v) :: post) metatable) → keyText lib key ≠ none →
      readFields lib (luaValueToFieldValue lib vm n) pre [] h = some (.ok map, h₁) →
        Enters (.fields t, h) (.value v, h₁)

end

variable {H : Type} {lib : Library} {vm : Vm H}

def Below (convert convert' : LuaValue → Heap H → Option (FieldValue × Heap H)) : Prop :=
  ∀ v h r, convert v h = some r → convert' v h = some r

variable {convert convert' : LuaValue → Heap H → Option (FieldValue × Heap H)}

theorem readItems_mono (hbelow : Below convert convert') {t : Ref} {k : Nat} {i : Int64}
    {h : Heap H} {r : List FieldValue × Heap H} (hread : readItems vm convert t k i h = some r) :
    readItems vm convert' t k i h = some r := by
  induction k generalizing i h r with
  | zero => exact hread
  | succ k ih =>
    rw [readItems] at hread ⊢
    split at hread
    · obtain ⟨⟨item, h₁⟩, hitem, hread⟩ := Option.bind_eq_some_iff.mp hread
      obtain ⟨⟨items, h₂⟩, hitems, hread⟩ := Option.bind_eq_some_iff.mp hread
      simp only [hbelow _ _ _ hitem, ih hitems, Option.bind_eq_bind, Option.bind_some]
      exact hread
    · exact ih hread

theorem readEntries_mono (hbelow : Below convert convert') {pairs : List (Str × LuaValue)}
    {map : FieldMap} {h : Heap H} {r : FieldMap × Heap H}
    (hread : readEntries convert pairs map h = some r) :
    readEntries convert' pairs map h = some r := by
  induction pairs generalizing map h with
  | nil => exact hread
  | cons p pairs ih =>
    obtain ⟨k, v⟩ := p
    obtain ⟨⟨value, h₁⟩, hvalue, hread⟩ := Option.bind_eq_some_iff.mp hread
    simp only [readEntries, hbelow _ _ _ hvalue, Option.bind_eq_bind, Option.bind_some]
    exact ih hread

theorem readFields_mono (hbelow : Below convert convert') {pairs : List (LuaValue × LuaValue)}
    {map : FieldMap} {h : Heap H} {r : Except Str FieldMap × Heap H}
    (hread : readFields lib convert pairs map h = some r) :
    readFields lib convert' pairs map h = some r := by
  induction pairs generalizing map h with
  | nil => exact hread
  | cons p pairs ih =>
    obtain ⟨k, v⟩ := p
    rw [readFields] at hread ⊢
    split at hread
    · exact hread
    · obtain ⟨⟨value, h₁⟩, hvalue, hread⟩ := Option.bind_eq_some_iff.mp hread
      simp only [hbelow _ _ _ hvalue, Option.bind_eq_bind, Option.bind_some]
      exact ih hread

theorem luaValueToFieldValue_succ (n : Nat) :
    Below (luaValueToFieldValue lib vm n) (luaValueToFieldValue lib vm (n + 1)) := by
  induction n with
  | zero =>
    intro v h r hread
    cases hread
  | succ n ih =>
    intro v h r hread
    cases v with
    | table t =>
      rw [luaValueToFieldValue, readTable] at hread ⊢
      split at hread
      · dsimp only at hread ⊢
        split at hread
        · obtain ⟨⟨items, h₁⟩, hitems, hread⟩ := Option.bind_eq_some_iff.mp hread
          rw [if_pos ‹_›, readItems_mono ih hitems]
          exact hread
        · rw [if_neg ‹_›]
          split at hread
          · obtain ⟨⟨map, h₁⟩, hmap, hread⟩ := Option.bind_eq_some_iff.mp hread
            rw [readEntries_mono ih hmap]
            exact hread
          · exact hread
      · exact hread
    | _ => exact hread

theorem luaValueToFieldValue_mono {n m : Nat} (h : n ≤ m) :
    Below (luaValueToFieldValue lib vm n) (luaValueToFieldValue lib vm m) := by
  induction m, h using Nat.le_induction with
  | base => exact fun _ _ _ hread => hread
  | succ m _ ih => exact fun v h r hread => luaValueToFieldValue_succ m v h r (ih v h r hread)

theorem readItems_add (t : Ref) (k j : Nat) (i : Int64) (h : Heap H) :
    readItems vm convert t (k + j) i h =
      (readItems vm convert t k i h).bind fun r =>
        (readItems vm convert t j (i + Int64.ofNat k) r.2).map fun r' => (r.1 ++ r'.1, r'.2) := by
  induction k generalizing i h with
  | zero =>
    have hzero : i + Int64.ofNat 0 = i := Int64.add_zero i
    rw [Nat.zero_add, readItems, hzero, Option.bind_some]
    cases readItems vm convert t j i h <;> rfl
  | succ k ih =>
    rw [Nat.add_right_comm, readItems, readItems, next_index]
    split
    · rename_i v h₁ hv
      cases convert v h₁ with
      | none => rfl
      | some r =>
        simp only [Option.bind_eq_bind, Option.bind_some, ih]
        cases readItems vm convert t k (i + 1) r.2 with
        | none => rfl
        | some r' =>
          simp only [Option.bind_some]
          cases readItems vm convert t j (i + 1 + Int64.ofNat k) r'.2 <;> rfl
    · exact ih _ _

theorem readEntries_append (pairs pairs' : List (Str × LuaValue)) (map : FieldMap) (h : Heap H) :
    readEntries convert (pairs ++ pairs') map h =
      (readEntries convert pairs map h).bind fun r => readEntries convert pairs' r.1 r.2 := by
  induction pairs generalizing map h with
  | nil => rfl
  | cons p pairs ih =>
    obtain ⟨k, v⟩ := p
    rw [List.cons_append, readEntries, readEntries]
    cases convert v h with
    | none => rfl
    | some r => exact ih _ _

theorem readFields_append {pairs : List (LuaValue × LuaValue)} {map map' : FieldMap}
    {h h₁ : Heap H} (hread : readFields lib convert pairs map h = some (.ok map', h₁))
    (pairs' : List (LuaValue × LuaValue)) :
    readFields lib convert (pairs ++ pairs') map h = readFields lib convert pairs' map' h₁ := by
  induction pairs generalizing map h with
  | nil =>
    obtain ⟨rfl, rfl⟩ := LuaM.ok_inj (Option.some.inj hread)
    rfl
  | cons p pairs ih =>
    obtain ⟨k, v⟩ := p
    rw [readFields] at hread
    rw [List.cons_append, readFields]
    split at hread
    · cases (Prod.mk.inj (Option.some.inj hread)).1
    · obtain ⟨⟨value, h₂⟩, hvalue, hread⟩ := Option.bind_eq_some_iff.mp hread
      simp only [hvalue, Option.bind_eq_bind, Option.bind_some]
      exact ih hread

def EndsWithin (lib : Library) (vm : Vm H) (n : Nat) : Conversion × Heap H → Prop
  | (.value v, h) => ∃ r, luaValueToFieldValue lib vm n v h = some r
  | (.fields t, h) => ∃ r, luaTableToFieldmap lib vm n t h = some r

theorem readItems_prefix {t : Ref} {len k m n : Nat} {h h₁ h' : Heap H}
    {items all : List FieldValue} (hk : k < len)
    (hall : readItems vm (luaValueToFieldValue lib vm m) t len 1 h = some (all, h'))
    (hitems : readItems vm (luaValueToFieldValue lib vm n) t k 1 h = some (items, h₁)) :
    ∃ r, readItems vm (luaValueToFieldValue lib vm m) t (len - k) (1 + Int64.ofNat k) h₁ =
      some r := by
  obtain ⟨j, rfl⟩ := Nat.exists_eq_add_of_lt hk
  rw [Nat.add_assoc, readItems_add] at hall
  obtain ⟨⟨items', h₂⟩, hitems', hall⟩ := Option.bind_eq_some_iff.mp hall
  obtain ⟨r, hr, -⟩ := Option.map_eq_some_iff.mp hall
  have hdeep := readItems_mono (luaValueToFieldValue_mono (Nat.le_max_left m n)) hitems'
  rw [readItems_mono (luaValueToFieldValue_mono (Nat.le_max_right m n)) hitems] at hdeep
  obtain ⟨rfl, rfl⟩ := Prod.mk.inj (Option.some.inj hdeep)
  refine ⟨r, ?_⟩
  rw [Nat.add_assoc, Nat.add_sub_cancel_left]
  exact hr

theorem readEntries_initial {pre post : List (Str × LuaValue)} {m n : Nat} {h h₁ : Heap H}
    {map : FieldMap} {all : FieldMap × Heap H}
    (hall : readEntries (luaValueToFieldValue lib vm m) (pre ++ post) [] h = some all)
    (hpre : readEntries (luaValueToFieldValue lib vm n) pre [] h = some (map, h₁)) :
    readEntries (luaValueToFieldValue lib vm m) post map h₁ = some all := by
  rw [readEntries_append] at hall
  obtain ⟨⟨map', h₂⟩, hmap', hall⟩ := Option.bind_eq_some_iff.mp hall
  have hdeep := readEntries_mono (luaValueToFieldValue_mono (Nat.le_max_left m n)) hmap'
  rw [readEntries_mono (luaValueToFieldValue_mono (Nat.le_max_right m n)) hpre] at hdeep
  obtain ⟨rfl, rfl⟩ := Prod.mk.inj (Option.some.inj hdeep)
  exact hall

theorem value_enters {n : Nat} {v : LuaValue} {h : Heap H} {c : Conversion × Heap H}
    (hends : EndsWithin lib vm (n + 1) (.value v, h)) (henters : Enters lib vm (.value v, h) c) :
    EndsWithin lib vm n c := by
  obtain ⟨r, hr⟩ := hends
  cases henters with
  | item ht hk hitems hv =>
    rw [luaValueToFieldValue, readTable, ht] at hr
    simp only [Nat.lt_of_le_of_lt (Nat.zero_le _) hk, if_true] at hr
    obtain ⟨⟨all, h'⟩, hall, -⟩ := Option.bind_eq_some_iff.mp hr
    obtain ⟨rest, hrest⟩ := readItems_prefix hk hall hitems
    obtain ⟨j, hj⟩ := Nat.exists_eq_succ_of_ne_zero (Nat.sub_ne_zero_of_lt hk)
    rw [hj, readItems, hv] at hrest
    obtain ⟨item, hitem, -⟩ := Option.bind_eq_some_iff.mp hrest
    exact ⟨item, hitem⟩
  | entry ht hlen hpairs hpre =>
    rw [luaValueToFieldValue, readTable, ht] at hr
    simp only [hlen, Nat.lt_irrefl, if_false, hpairs] at hr
    obtain ⟨all, hall, -⟩ := Option.bind_eq_some_iff.mp hr
    obtain ⟨value, hvalue, -⟩ := Option.bind_eq_some_iff.mp (readEntries_initial hall hpre)
    exact ⟨value, hvalue⟩

theorem fields_enters {t : Ref} {h : Heap H} {c : Conversion × Heap H}
    (hends : Ends lib vm (.fields t, h)) (henters : Enters lib vm (.fields t, h) c) :
    Ends lib vm c := by
  obtain ⟨n, r, hr⟩ := hends
  cases henters with
  | @field _ _ h₁ _ m pre post key v map ht hkey hpre =>
    rw [luaTableToFieldmap, ht] at hr
    have hdeep := readFields_mono (luaValueToFieldValue_mono (Nat.le_max_left n m)) hr
    rw [readFields_append (readFields_mono (luaValueToFieldValue_mono (Nat.le_max_right n m)) hpre),
      readFields] at hdeep
    split at hdeep
    · exact absurd ‹_› hkey
    · obtain ⟨value, hvalue, -⟩ := Option.bind_eq_some_iff.mp hdeep
      exact ⟨_, value, hvalue⟩

theorem enters_value {c c' : Conversion × Heap H} (henters : Enters lib vm c c') :
    ∃ v h, c' = (.value v, h) := by
  cases henters <;> exact ⟨_, _, rfl⟩

theorem acc_of_endsWithin {n : Nat} {v : LuaValue} {h : Heap H}
    (hends : EndsWithin lib vm n (.value v, h)) : Acc (flip (Enters lib vm)) (.value v, h) := by
  induction n generalizing v h with
  | zero =>
    obtain ⟨r, hr⟩ := hends
    cases hr
  | succ n ih =>
    refine .intro _ fun c henters => ?_
    obtain ⟨v', h', rfl⟩ := enters_value henters
    exact ih (value_enters hends henters)

theorem acc_of_ends {c : Conversion × Heap H} (hends : Ends lib vm c) :
    Acc (flip (Enters lib vm)) c := by
  obtain ⟨v | t, h⟩ := c
  · obtain ⟨n, hn⟩ := hends
    exact acc_of_endsWithin hn
  · refine .intro _ fun c henters => ?_
    obtain ⟨v', h', rfl⟩ := enters_value henters
    obtain ⟨n, hn⟩ := fields_enters hends henters
    exact acc_of_endsWithin hn

theorem items_end {t : Ref} {h : Heap H} {entries : List (LuaValue × LuaValue)}
    {metatable : Option Ref} (ht : h[t]? = some (.table entries metatable))
    (hall : ∀ c, Enters lib vm (.value (.table t), h) c → Ends lib vm c) {k : Nat}
    (hk : k ≤ lib.rawLen t entries) :
    ∃ n r, readItems vm (luaValueToFieldValue lib vm n) t k 1 h = some r := by
  induction k with
  | zero => exact ⟨0, _, rfl⟩
  | succ k ih =>
    obtain ⟨n, ⟨items, h₁⟩, hitems⟩ := ih (Nat.le_of_succ_le hk)
    have hlast : ∃ m r, readItems vm (luaValueToFieldValue lib vm m) t 1 (1 + Int64.ofNat k) h₁ =
        some r := by
      cases hv : Lua.get vm t (index k) h₁ with
      | mk result h₂ =>
        cases result with
        | error e => exact ⟨0, ([], h₂), by rw [readItems, hv]; rfl⟩
        | ok v =>
          obtain ⟨m, ⟨item, h₃⟩, hitem⟩ := hall _ (.item ht hk hitems hv)
          refine ⟨m, ([item], h₃), ?_⟩
          rw [readItems, hv]
          simp only [hitem, readItems, Option.bind_eq_bind, Option.bind_some]
    obtain ⟨m, r, hr⟩ := hlast
    refine ⟨max n m, (items ++ r.1, r.2), ?_⟩
    rw [readItems_add, readItems_mono (luaValueToFieldValue_mono (Nat.le_max_left n m)) hitems,
      Option.bind_some, readItems_mono (luaValueToFieldValue_mono (Nat.le_max_right n m)) hr]
    rfl

theorem entries_end {t : Ref} {h : Heap H} {entries : List (LuaValue × LuaValue)}
    {metatable : Option Ref} (ht : h[t]? = some (.table entries metatable))
    (hlen : lib.rawLen t entries = 0)
    (hall : ∀ c, Enters lib vm (.value (.table t), h) c → Ends lib vm c)
    {pre post : List (Str × LuaValue)} (hpairs : textPairs lib entries = some (pre ++ post))
    {n : Nat} {map : FieldMap} {h₁ : Heap H}
    (hpre : readEntries (luaValueToFieldValue lib vm n) pre [] h = some (map, h₁)) :
    ∃ m r, readEntries (luaValueToFieldValue lib vm m) (pre ++ post) [] h = some r := by
  induction post generalizing pre n map h₁ with
  | nil => exact ⟨n, (map, h₁), by rwa [List.append_nil]⟩
  | cons p post ih =>
    obtain ⟨key, v⟩ := p
    obtain ⟨m, ⟨value, h₂⟩, hvalue⟩ := hall _ (.entry ht hlen hpairs hpre)
    have hnext : readEntries (luaValueToFieldValue lib vm (max n m)) (pre ++ [(key, v)]) [] h =
        some (Map.insert map key value, h₂) := by
      rw [readEntries_append,
        readEntries_mono (luaValueToFieldValue_mono (Nat.le_max_left n m)) hpre]
      simp only [readEntries, luaValueToFieldValue_mono (Nat.le_max_right n m) _ _ _ hvalue,
        Option.bind_eq_bind, Option.bind_some]
    rw [List.append_cons] at hpairs ⊢
    exact ih hpairs hnext

theorem fields_end {t : Ref} {h : Heap H} {metatable : Option Ref}
    {pre post : List (LuaValue × LuaValue)} (ht : h[t]? = some (.table (pre ++ post) metatable))
    (hall : ∀ c, Enters lib vm (.fields t, h) c → Ends lib vm c) {n : Nat} {map : FieldMap}
    {h₁ : Heap H}
    (hpre : readFields lib (luaValueToFieldValue lib vm n) pre [] h = some (.ok map, h₁)) :
    ∃ m r, readFields lib (luaValueToFieldValue lib vm m) (pre ++ post) [] h = some r := by
  induction post generalizing pre n map h₁ with
  | nil => exact ⟨n, (.ok map, h₁), by rwa [List.append_nil]⟩
  | cons p post ih =>
    obtain ⟨k, v⟩ := p
    cases hkey : keyText lib k with
    | none =>
      refine ⟨n, (.error (keyError k), h₁), ?_⟩
      rw [readFields_append hpre, readFields, hkey]
    | some key =>
      obtain ⟨m, ⟨value, h₂⟩, hvalue⟩ := hall _ (.field ht (by simp [hkey]) hpre)
      have hnext : readFields lib (luaValueToFieldValue lib vm (max n m)) (pre ++ [(k, v)]) [] h =
          some (.ok (Map.insert map key value), h₂) := by
        rw [readFields_append
          (readFields_mono (luaValueToFieldValue_mono (Nat.le_max_left n m)) hpre)]
        simp only [readFields, hkey, luaValueToFieldValue_mono (Nat.le_max_right n m) _ _ _ hvalue,
          Option.bind_eq_bind, Option.bind_some]
      rw [List.append_cons] at ht ⊢
      exact ih ht hnext

theorem ends_of_acc {c : Conversion × Heap H} (hacc : Acc (flip (Enters lib vm)) c) :
    Ends lib vm c := by
  induction hacc with
  | intro c _ hall =>
    obtain ⟨v | t, h⟩ := c
    · cases v with
      | table t =>
        cases ht : h[t]? with
        | none => exact ⟨1, _, by rw [luaValueToFieldValue, readTable, ht]⟩
        | some o =>
          cases o with
          | table entries metatable =>
            by_cases hlen : 0 < lib.rawLen t entries
            · obtain ⟨n, r, hr⟩ := items_end ht hall (Nat.le_refl _)
              refine ⟨n + 1, (.list r.1, r.2), ?_⟩
              rw [luaValueToFieldValue, readTable, ht]
              simp only [hlen, if_true, hr, Option.bind_eq_bind, Option.bind_some]
            · cases hpairs : textPairs lib entries with
              | none =>
                refine ⟨1, (.map [], h), ?_⟩
                rw [luaValueToFieldValue, readTable, ht]
                simp only [hlen, if_false, hpairs]
              | some pairs =>
                have hall₀ : textPairs lib entries = some ([] ++ pairs) := hpairs
                have hzero := Nat.eq_zero_of_not_pos hlen
                obtain ⟨n, r, hr⟩ := entries_end (n := 0) ht hzero hall hall₀ rfl
                refine ⟨n + 1, (.map r.1, r.2), ?_⟩
                rw [luaValueToFieldValue, readTable, ht]
                rw [List.nil_append] at hr
                simp only [hlen, if_false, hpairs, hr, Option.bind_eq_bind, Option.bind_some]
          | _ => exact ⟨1, (.null, h), by rw [luaValueToFieldValue, readTable, ht]⟩
      | _ => exact ⟨1, _, rfl⟩
    · cases ht : h[t]? with
      | none => exact ⟨0, _, by rw [luaTableToFieldmap, ht]⟩
      | some o =>
        cases o with
        | table entries metatable =>
          have ht₀ : h[t]? = some (.table ([] ++ entries) metatable) := ht
          obtain ⟨n, r, hr⟩ := fields_end (n := 0) ht₀ hall rfl
          exact ⟨n, r, by rw [luaTableToFieldmap, ht]; exact hr⟩
        | _ => exact ⟨0, (.ok [], h), by rw [luaTableToFieldmap, ht]⟩

theorem ends_iff {c : Conversion × Heap H} : Ends lib vm c ↔ ¬Endless (Enters lib vm) c := by
  rw [← acc_iff_not_endless]
  exact ⟨acc_of_ends, ends_of_acc⟩

end Luaml
