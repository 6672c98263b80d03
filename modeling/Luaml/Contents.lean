import Luaml.BridgeLaws
import Luaml.Plain

namespace Luaml

open Rust Lua

variable {H : Type}

/-- The value has the content of the field value, in tables with `P`.  An absent item or field is a
null. -/
inductive Holds (P : Ref → Option Ref → Prop) (h : Heap H) : LuaValue → FieldValue → Prop
  | null : Holds P h .nil .null
  | bool (b : Bool) : Holds P h (.boolean b) (.bool b)
  | number (n : Int64) : Holds P h (.integer n) (.number n)
  | float (f : F64) : Holds P h (.number f) (.float f)
  | string (s : Str) : Holds P h (.string s) (.string s)
  | enum (s : Str) : Holds P h (.string s) (.enum s)
  | list {t : Ref} {entries : List (LuaValue × LuaValue)} {metatable : Option Ref}
    {items : List FieldValue} :
    h[t]? = some (.table entries metatable) → P t metatable →
      (∀ key, rawGet entries key ≠ .nil → ∃ k < items.length, key = index k) →
        (∀ k item, items[k]? = some item → Holds P h (rawGet entries (index k)) item) →
          Holds P h (.table t) (.list items)
  | map {t : Ref} {entries : List (LuaValue × LuaValue)} {metatable : Option Ref}
    {map : List (Str × FieldValue)} :
    h[t]? = some (.table entries metatable) → P t metatable →
      (∀ key, rawGet entries key ≠ .nil → ∃ e ∈ map, key = .string e.1) →
        (∀ e ∈ map, Holds P h (rawGet entries (.string e.1)) e.2) →
          Holds P h (.table t) (.map map)

/-- The same content in two heaps: the same value, or tables whose metatables are as `same` says and
that have values of the same content at every key. -/
inductive Alike (same : Option Ref → Option Ref → Prop) (h h' : Heap H) :
    LuaValue → LuaValue → Prop
  | scalar {v : LuaValue} : (∀ t, v ≠ .table t) → Alike same h h' v v
  | table {t t' : Ref} {entries entries' : List (LuaValue × LuaValue)}
    {metatable metatable' : Option Ref} :
    h[t]? = some (.table entries metatable) → h'[t']? = some (.table entries' metatable') →
      same metatable metatable' →
        (∀ key, Alike same h h' (rawGet entries key) (rawGet entries' key)) →
          Alike same h h' (.table t) (.table t')

variable {P P' : Ref → Option Ref → Prop} {same : Option Ref → Option Ref → Prop}
  {h h' : Heap H} {v v' : LuaValue} {f g : FieldValue}

theorem Holds.frame (hholds : Holds P h v f) (hP : ∀ t metatable, P t metatable → P' t metatable)
    (hsame : ∀ t metatable, P t metatable → t < h.length → h'[t]? = h[t]?) : Holds P' h' v f := by
  induction hholds with
  | null => exact .null
  | bool b => exact .bool b
  | number n => exact .number n
  | float f => exact .float f
  | string s => exact .string s
  | enum s => exact .enum s
  | list ht hp hkeys _ ih =>
    have hlt := (List.getElem?_eq_some_iff.mp ht).1
    exact .list ((hsame _ _ hp hlt).trans ht) (hP _ _ hp) hkeys ih
  | map ht hp hkeys _ ih =>
    have hlt := (List.getElem?_eq_some_iff.mp ht).1
    exact .map ((hsame _ _ hp hlt).trans ht) (hP _ _ hp) hkeys ih

theorem alike_of_keys {entries entries' : List (LuaValue × LuaValue)} {K : LuaValue → Prop}
    (hkeys : ∀ key, rawGet entries key ≠ .nil → K key)
    (hkeys' : ∀ key, rawGet entries' key ≠ .nil → K key)
    (hall : ∀ key, K key → Alike same h h' (rawGet entries key) (rawGet entries' key))
    (key : LuaValue) : Alike same h h' (rawGet entries key) (rawGet entries' key) := by
  by_cases hkey : K key
  · exact hall key hkey
  · rw [not_not.mp (mt (hkeys key) hkey), not_not.mp (mt (hkeys' key) hkey)]
    exact .scalar fun t ht => by cases ht

theorem Holds.alike (hholds : Holds P h v f) (hholds' : Holds P' h' v' f)
    (hsame : ∀ t t' metatable metatable', P t metatable → P' t' metatable' →
      same metatable metatable') : Alike same h h' v v' := by
  induction hholds generalizing v' with
  | list ht hp hkeys _ ih =>
    cases hholds' with
    | list ht' hp' hkeys' hitems' =>
      refine .table ht ht' (hsame _ _ _ _ hp hp') (alike_of_keys hkeys hkeys' ?_)
      rintro key ⟨k, hk, rfl⟩
      exact ih k _ (List.getElem?_eq_getElem hk) (hitems' k _ (List.getElem?_eq_getElem hk))
  | map ht hp hkeys _ ih =>
    cases hholds' with
    | map ht' hp' hkeys' hvalues' =>
      refine .table ht ht' (hsame _ _ _ _ hp hp') (alike_of_keys hkeys hkeys' ?_)
      rintro key ⟨e, he, rfl⟩
      exact ih e he (hvalues' e he)
  | _ =>
    cases hholds'
    exact .scalar fun t ht => by cases ht

theorem sameEntries_keys {m m' : List (Str × FieldValue)} (hsame : FieldValue.SameEntries m m') :
    m.map Prod.fst = m'.map Prod.fst := by
  cases hsame with
  | nil => rfl
  | cons _ hrest => rw [List.map_cons, List.map_cons, sameEntries_keys hrest]

mutual
theorem Holds.same {f g : FieldValue} (hsame : FieldValue.Same f g) {v : LuaValue}
    (hholds : Holds P h v f) : Holds P h v g := by
  cases hsame with
  | list hitems =>
    cases hholds with
    | list ht hp hkeys hvalues =>
      obtain ⟨hlen, hvalues'⟩ := holdsItems_same hitems hvalues
      exact .list ht hp (hlen ▸ hkeys) hvalues'
  | map hentries hperm =>
    cases hholds with
    | map ht hp hkeys hvalues =>
      have hall := holdsEntries_same hentries (w := fun s => rawGet _ (.string s)) hvalues
      refine .map ht hp (fun key hkey => ?_) fun e he => hall e (hperm.mem_iff.mpr he)
      obtain ⟨e, he, rfl⟩ := hkeys key hkey
      have hmem := List.mem_map_of_mem (f := Prod.fst) he
      rw [sameEntries_keys hentries] at hmem
      obtain ⟨e', he', heq⟩ := List.mem_map.mp hmem
      exact ⟨e', hperm.mem_iff.mp he', by rw [heq]⟩
  | _ => exact hholds

theorem holdsItems_same {items items' : List FieldValue}
    (hsame : FieldValue.SameItems items items') {w : Nat → LuaValue}
    (hholds : ∀ k item, items[k]? = some item → Holds P h (w k) item) :
    items.length = items'.length ∧
      ∀ k item, items'[k]? = some item → Holds P h (w k) item := by
  cases hsame with
  | nil => exact ⟨rfl, hholds⟩
  | cons hfirst hrest =>
    obtain ⟨hlen, hall⟩ := holdsItems_same hrest (w := fun k => w (k + 1))
      fun k item hk => hholds (k + 1) item hk
    refine ⟨congrArg (· + 1) hlen, fun k item hk => ?_⟩
    cases k with
    | zero =>
      obtain rfl := Option.some.inj hk
      exact Holds.same hfirst (hholds 0 _ rfl)
    | succ k => exact hall k item hk

theorem holdsEntries_same {m m' : List (Str × FieldValue)}
    (hsame : FieldValue.SameEntries m m') {w : Str → LuaValue}
    (hholds : ∀ e ∈ m, Holds P h (w e.1) e.2) : ∀ e ∈ m', Holds P h (w e.1) e.2 := by
  cases hsame with
  | nil => exact hholds
  | cons hfirst hrest =>
    rw [List.forall_mem_cons] at hholds ⊢
    exact ⟨Holds.same hfirst hholds.1, holdsEntries_same hrest hholds.2⟩
end

mutual
/-- A value as it is in memory: the keys of a map are distinct, and a list is no longer than a
vector can be. -/
def FieldValue.Sound : FieldValue → Prop
  | .list items => items.length < 2 ^ 63 ∧ FieldValue.SoundItems items
  | .map m => (m.map Prod.fst).Nodup ∧ FieldValue.SoundEntries m
  | _ => True

def FieldValue.SoundItems : List FieldValue → Prop
  | [] => True
  | item :: items => FieldValue.Sound item ∧ FieldValue.SoundItems items

def FieldValue.SoundEntries : List (Str × FieldValue) → Prop
  | [] => True
  | (_, v) :: m => FieldValue.Sound v ∧ FieldValue.SoundEntries m
end

theorem soundEntries_iff {m : List (Str × FieldValue)} :
    FieldValue.SoundEntries m ↔ ∀ e ∈ m, e.2.Sound := by
  induction m with
  | nil => simp [FieldValue.SoundEntries]
  | cons e m ih => rw [FieldValue.SoundEntries, ih, List.forall_mem_cons]

mutual
theorem FieldValue.Sound.same {f g : FieldValue} (hsame : FieldValue.Same f g) (hg : g.Sound) :
    f.Sound := by
  cases hsame with
  | list hitems =>
    obtain ⟨hlen, hall⟩ := soundItems_same hitems hg.2
    exact ⟨hlen ▸ hg.1, hall⟩
  | map hentries hperm =>
    refine ⟨?_, soundEntries_same hentries (soundEntries_iff.mpr fun e he => ?_)⟩
    · rw [sameEntries_keys hentries, (hperm.map Prod.fst).nodup_iff]
      exact hg.1
    · exact soundEntries_iff.mp hg.2 e (hperm.mem_iff.mp he)
  | _ => exact hg

theorem soundItems_same {items items' : List FieldValue}
    (hsame : FieldValue.SameItems items items') (hsound : FieldValue.SoundItems items') :
    items'.length = items.length ∧ FieldValue.SoundItems items := by
  cases hsame with
  | nil => exact ⟨rfl, trivial⟩
  | cons hfirst hrest =>
    obtain ⟨hlen, hall⟩ := soundItems_same hrest hsound.2
    exact ⟨congrArg (· + 1) hlen, FieldValue.Sound.same hfirst hsound.1, hall⟩

theorem soundEntries_same {m m' : List (Str × FieldValue)}
    (hsame : FieldValue.SameEntries m m') (hsound : FieldValue.SoundEntries m') :
    FieldValue.SoundEntries m := by
  cases hsame with
  | nil => trivial
  | cons hfirst hrest =>
    exact ⟨FieldValue.Sound.same hfirst hsound.1, soundEntries_same hrest hsound.2⟩
end

def Fresh (lo : Ref) (t : Ref) (metatable : Option Ref) : Prop := lo ≤ t ∧ metatable = none

structure Made (h h' : Heap H) (v : LuaValue) (f : FieldValue) : Prop where
  length_le : h.length ≤ h'.length
  old : ∀ r, r < h.length → h'[r]? = h[r]?
  holds : Holds (Fresh h.length) h' v f

theorem Made.holds_grown {g h h' : Heap H} {v : LuaValue} {f : FieldValue} (hmade : Made g h v f)
    {t : Ref} (ht : t < g.length) {o : Object H} {entries : List (LuaValue × LuaValue)}
    (hgrown : Grown (h.set t o) h' t entries) : Holds (Fresh (t + 1)) h' v f := by
  exact hmade.holds.frame (fun r m hr => ⟨ht.trans_le hr.1, hr.2⟩) fun r m hr hrh =>
    hgrown.old_of_set (Nat.lt_of_lt_of_le ht hr.1) hrh

theorem Made.of_new {h h' : Heap H} {entries : List (LuaValue × LuaValue)} {f : FieldValue}
    (hgrown : Grown (h ++ [.table [] none]) h' h.length entries)
    (hholds : Holds (Fresh h.length) h' (.table h.length) f) : Made h h' (.table h.length) f where
  length_le := hgrown.above_new.1
  old := hgrown.above_new.2
  holds := hholds

structure HasValues (entries : List (LuaValue × LuaValue)) (values : List LuaValue) : Prop where
  value : ∀ k v, values[k]? = some v → rawGet entries (index k) = v
  key : ∀ key, rawGet entries key ≠ .nil → ∃ k < values.length, key = index k

theorem HasValues.push {entries : List (LuaValue × LuaValue)} {values : List LuaValue}
    (hvalues : HasValues entries values) (hlen : values.length < 2 ^ 63) (v : LuaValue) :
    HasValues (rawSet entries (index values.length) v) (values ++ [v]) where
  value k w hk := by
    rw [rawGet_rawSet]
    rcases Nat.lt_trichotomy k values.length with hlt | rfl | hgt
    · have hne : index values.length ≠ index k := fun heq =>
        hlt.ne' (index_inj hlen (hlt.trans hlen) heq)
      rw [if_neg hne]
      rw [List.getElem?_append_left hlt] at hk
      exact hvalues.value k w hk
    · rw [List.getElem?_concat_length] at hk
      rw [if_pos rfl, Option.some.inj hk]
    · rw [List.getElem?_eq_none (by simp; omega)] at hk
      cases hk
  key key hkey := by
    rw [rawGet_rawSet] at hkey
    rw [List.length_append, List.length_singleton]
    split_ifs at hkey with heq
    · exact ⟨values.length, Nat.lt_succ_self _, heq.symm⟩
    · obtain ⟨k, hk, hkey⟩ := hvalues.key key hkey
      exact ⟨k, hk.trans (Nat.lt_succ_self _), hkey⟩

mutual
theorem fieldValueToLua_made (vm : Vm H) (f : FieldValue) (hf : f.Sound) (h : Heap H) :
    ∃ v h', fieldValueToLua vm f h = (.ok v, h') ∧ Made h h' v f := by
  cases f with
  | enum s => exact ⟨_, h, rfl, Nat.le_refl _, fun _ _ => rfl, .enum s⟩
  | string s => exact ⟨_, h, rfl, Nat.le_refl _, fun _ _ => rfl, .string s⟩
  | number n => exact ⟨_, h, rfl, Nat.le_refl _, fun _ _ => rfl, .number n⟩
  | float f => exact ⟨_, h, rfl, Nat.le_refl _, fun _ _ => rfl, .float f⟩
  | bool b => exact ⟨_, h, rfl, Nat.le_refl _, fun _ _ => rfl, .bool b⟩
  | null => exact ⟨_, h, rfl, Nat.le_refl _, fun _ _ => rfl, .null⟩
  | list items =>
    have ht : (h ++ [Object.table [] none])[h.length]? = some (.table [] none) := by simp
    have hempty : HasValues [] [] := ⟨by simp, fun key hkey => absurd rfl hkey⟩
    obtain ⟨values, entries, h', hset, hgrown, hvalues, hholds⟩ :=
      setItems_made vm items hf.2 [] (i := 1) rfl ht hempty (by simpa using hf.1)
    refine ⟨.table h.length, h', ?_, .of_new hgrown ?_⟩
    · rw [fieldValueToLua, LuaM.bind_of_ok (createTable_eq h), LuaM.bind_of_ok hset]
      rfl
    · have hlen := hholds.length_eq
      refine .list hgrown.table ⟨Nat.le_refl _, rfl⟩ (hlen ▸ hvalues.key) fun k item hk => ?_
      obtain ⟨hlt, rfl⟩ := List.getElem?_eq_some_iff.mp hk
      have hlt' : k < values.length := hlen.symm ▸ hlt
      rw [hvalues.value k _ (List.getElem?_eq_getElem hlt')]
      exact (hholds.get hlt' hlt).frame (fun r m hr => ⟨Nat.le_of_succ_le hr.1, hr.2⟩)
        fun _ _ _ _ => rfl
  | map m =>
    have ht : (h ++ [Object.table [] none])[h.length]? = some (.table [] none) := by simp
    obtain ⟨entries, h', hset, hgrown, hkeys, hholds⟩ := setEntries_made vm m hf.2 hf.1 ht
    refine ⟨.table h.length, h', ?_, .of_new hgrown ?_⟩
    · rw [fieldValueToLua, LuaM.bind_of_ok (createTable_eq h), LuaM.bind_of_ok hset]
      rfl
    · refine .map hgrown.table ⟨Nat.le_refl _, rfl⟩ (fun key hkey => ?_) fun e he => ?_
      · by_contra hnone
        refine hkey (hkeys key fun e he heq => hnone ⟨e, he, heq⟩)
      · exact (hholds e he).frame (fun r m hr => ⟨Nat.le_of_succ_le hr.1, hr.2⟩)
          fun _ _ _ _ => rfl

theorem setItems_made (vm : Vm H) (items : List FieldValue)
    (hitems : FieldValue.SoundItems items) {h : Heap H} {t : Ref}
    {entries : List (LuaValue × LuaValue)} (values : List LuaValue) {i : Int64}
    (hi : i = 1 + Int64.ofNat values.length) (ht : h[t]? = some (.table entries none))
    (hdone : HasValues entries values) (hlen : values.length + items.length < 2 ^ 63) :
    ∃ values' entries' h', setItems vm t i items h = (.ok (), h') ∧
      Grown h h' t entries' ∧ HasValues entries' (values ++ values') ∧
      List.Forall₂ (Holds (Fresh (t + 1)) h') values' items := by
  cases items with
  | nil => exact ⟨[], entries, h, rfl, .refl ht, by simpa using hdone, .nil⟩
  | cons item items =>
    obtain ⟨hitem, hrest⟩ := hitems
    obtain ⟨v, g, hv, hmade⟩ := fieldValueToLua_made vm item hitem h
    rw [List.length_cons] at hlen
    obtain ⟨hset, hgrown⟩ := set_grown hmade.length_le hmade.old ht (.integer i) v
    have hlt : t < h.length := (List.getElem?_eq_some_iff.mp ht).1
    have hpush : HasValues (rawSet entries (.integer i) v) (values ++ [v]) := by
      rw [hi]
      exact hdone.push (by omega) v
    have hnext : i + 1 = 1 + Int64.ofNat (values ++ [v]).length := by
      rw [hi, succ_index, List.length_append, List.length_singleton]
    obtain ⟨values', entries', h', hloop, hgrown', hall, hholds⟩ :=
      setItems_made vm items hrest (values ++ [v]) hnext hgrown.table hpush (by simp; omega)
    refine ⟨v :: values', entries', h', ?_, hgrown.trans hgrown', ?_, ?_⟩
    · rw [setItems, LuaM.bind_of_ok hv, LuaM.bind_of_ok hset]
      exact hloop
    · rwa [List.append_assoc, List.singleton_append] at hall
    · exact .cons (hmade.holds_grown hlt hgrown') hholds

theorem setEntries_made (vm : Vm H) (m : List (Str × FieldValue)) (hm : FieldValue.SoundEntries m)
    (hnodup : (m.map Prod.fst).Nodup) {h : Heap H} {t : Ref}
    {entries : List (LuaValue × LuaValue)} (ht : h[t]? = some (.table entries none)) :
    ∃ entries' h', setEntries vm t m h = (.ok (), h') ∧ Grown h h' t entries' ∧
      (∀ key, (∀ e ∈ m, key ≠ .string e.1) → rawGet entries' key = rawGet entries key) ∧
      ∀ e ∈ m, Holds (Fresh (t + 1)) h' (rawGet entries' (.string e.1)) e.2 := by
  cases m with
  | nil => exact ⟨entries, h, rfl, .refl ht, fun _ _ => rfl, by simp⟩
  | cons e m =>
    obtain ⟨k, f⟩ := e
    obtain ⟨hf, hrest⟩ := hm
    obtain ⟨hnew, hnodup⟩ := List.nodup_cons.mp hnodup
    obtain ⟨v, g, hv, hmade⟩ := fieldValueToLua_made vm f hf h
    obtain ⟨hset, hgrown⟩ := set_grown hmade.length_le hmade.old ht (.string k) v
    have hlt : t < h.length := (List.getElem?_eq_some_iff.mp ht).1
    obtain ⟨entries', h', hloop, hgrown', hkeys, hholds⟩ :=
      setEntries_made vm m hrest hnodup hgrown.table
    have hother : ∀ e ∈ m, LuaValue.string k ≠ .string e.1 := by
      intro e he heq
      exact hnew (List.mem_map.mpr ⟨e, he, (LuaValue.string.inj heq).symm⟩)
    refine ⟨entries', h', ?_, hgrown.trans hgrown', fun key hkey => ?_, ?_⟩
    · rw [setEntries, LuaM.bind_of_ok hv, LuaM.bind_of_ok hset]
      exact hloop
    · rw [List.forall_mem_cons] at hkey
      rw [hkeys key hkey.2, rawGet_rawSet, if_neg (Ne.symm hkey.1)]
    · rw [List.forall_mem_cons]
      refine ⟨?_, hholds⟩
      rw [hkeys _ hother, rawGet_rawSet, if_pos rfl]
      exact hmade.holds_grown hlt hgrown'
end

end Luaml
