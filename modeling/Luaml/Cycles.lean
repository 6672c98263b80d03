import Luaml.Conversions

namespace Luaml

open Rust Lua Descent Relation

variable {H : Type}

def itemAt (entries : List (LuaValue × LuaValue)) (k : Nat) : LuaValue :=
  rawGet entries (index k)

/-- An item that a table does not have, as far as its length goes, its metatable does not stand in
for. -/
def Quiet (lib : Library) (h : Heap H) : Prop :=
  ∀ (t : Ref) entries metatable, h[t]? = some (.table entries metatable) →
    ∀ k < lib.rawLen t entries, itemAt entries k = .nil →
      metamethod h metatable "__index".toList = .nil

/-- A call comes to convert a value of its table: an item, or the value of a key, or the value of a
key before which every key has a text. -/
inductive Follows (lib : Library) (h : Heap H) : Conversion → Conversion → Prop
  | item {t : Ref} {entries : List (LuaValue × LuaValue)} {metatable : Option Ref} {k : Nat} :
    h[t]? = some (.table entries metatable) → k < lib.rawLen t entries →
      Follows lib h (.value (.table t)) (.value (itemAt entries k))
  | entry {t : Ref} {entries : List (LuaValue × LuaValue)} {metatable : Option Ref}
    {pairs : List (Str × LuaValue)} {key : Str} {v : LuaValue} :
    h[t]? = some (.table entries metatable) → lib.rawLen t entries = 0 →
      textPairs lib entries = some pairs → (key, v) ∈ pairs →
        Follows lib h (.value (.table t)) (.value v)
  | field {t : Ref} {pre post : List (LuaValue × LuaValue)} {metatable : Option Ref}
    {key v : LuaValue} :
    h[t]? = some (.table (pre ++ (key, v) :: post) metatable) →
      (∀ e ∈ pre, keyText lib e.1 ≠ none) → keyText lib key ≠ none →
        Follows lib h (.fields t) (.value v)

variable {lib : Library} {vm : Vm H} {h h' : Heap H} {t : Ref}
  {entries : List (LuaValue × LuaValue)} {metatable : Option Ref}
  {convert : LuaValue → Heap H → Option (FieldValue × Heap H)}

theorem Quiet.get (hquiet : Quiet lib h) (ht : h[t]? = some (.table entries metatable)) {k : Nat}
    (hk : k < lib.rawLen t entries) :
    Lua.get vm t (index k) h = (.ok (itemAt entries k), h) :=
  get_eq ht (hquiet t entries metatable ht k hk)

def Still (h : Heap H) (convert : LuaValue → Heap H → Option (FieldValue × Heap H)) : Prop :=
  ∀ v r, convert v h = some r → r.2 = h

theorem readItems_still (hquiet : Quiet lib h) (hstill : Still h convert)
    (ht : h[t]? = some (.table entries metatable)) {j k : Nat} (hjk : j + k ≤ lib.rawLen t entries)
    {r : List FieldValue × Heap H}
    (hread : readItems vm convert t k (1 + Int64.ofNat j) h = some r) : r.2 = h := by
  induction k generalizing j r with
  | zero =>
    obtain rfl := Option.some.inj hread
    rfl
  | succ k ih =>
    rw [readItems, hquiet.get ht (by omega)] at hread
    obtain ⟨⟨item, h₁⟩, hitem, hrest⟩ := Option.bind_eq_some_iff.mp hread
    obtain ⟨⟨items, h₂⟩, hitems, hend⟩ := Option.bind_eq_some_iff.mp hrest
    have hsame : h₁ = h := hstill _ _ hitem
    rw [succ_index, hsame] at hitems
    obtain rfl := Option.some.inj hend
    have hfinal : h₂ = h := ih (j := j + 1) (by omega) hitems
    exact hfinal

theorem readEntries_still (hstill : Still h convert) {pairs : List (Str × LuaValue)}
    {map : FieldMap} {r : FieldMap × Heap H} (hread : readEntries convert pairs map h = some r) :
    r.2 = h := by
  induction pairs generalizing map r with
  | nil =>
    obtain rfl := Option.some.inj hread
    rfl
  | cons p pairs ih =>
    obtain ⟨k, v⟩ := p
    obtain ⟨⟨value, h₁⟩, hvalue, hrest⟩ := Option.bind_eq_some_iff.mp hread
    have hsame : h₁ = h := hstill _ _ hvalue
    rw [hsame] at hrest
    exact ih hrest

theorem readFields_still (hstill : Still h convert) {pairs : List (LuaValue × LuaValue)}
    {map : FieldMap} {r : Except Str FieldMap × Heap H}
    (hread : readFields lib convert pairs map h = some r) : r.2 = h := by
  induction pairs generalizing map r with
  | nil =>
    obtain rfl := Option.some.inj hread
    rfl
  | cons p pairs ih =>
    obtain ⟨k, v⟩ := p
    rw [readFields] at hread
    split at hread
    · obtain rfl := Option.some.inj hread
      rfl
    · obtain ⟨⟨value, h₁⟩, hvalue, hrest⟩ := Option.bind_eq_some_iff.mp hread
      have hsame : h₁ = h := hstill _ _ hvalue
      rw [hsame] at hrest
      exact ih hrest

theorem Quiet.still (hquiet : Quiet lib h) (n : Nat) : Still h (luaValueToFieldValue lib vm n) := by
  induction n with
  | zero =>
    intro v r hread
    cases hread
  | succ n ih =>
    intro v r hread
    cases v with
    | table t =>
      rw [luaValueToFieldValue, readTable] at hread
      split at hread
      · rename_i entries metatable ht
        dsimp only at hread
        split at hread
        · obtain ⟨⟨items, h₁⟩, hitems, hread⟩ := Option.bind_eq_some_iff.mp hread
          obtain rfl := Option.some.inj hread
          exact readItems_still (j := 0) hquiet ih ht (by omega) hitems
        · split at hread
          · obtain ⟨⟨map, h₁⟩, hmap, hread⟩ := Option.bind_eq_some_iff.mp hread
            obtain rfl := Option.some.inj hread
            exact readEntries_still ih hmap
          · obtain rfl := Option.some.inj hread
            rfl
      · obtain rfl := Option.some.inj hread
        rfl
    | _ =>
      obtain rfl := Option.some.inj hread
      rfl

theorem readFields_ok_keys {pairs : List (LuaValue × LuaValue)} {map map' : FieldMap}
    (hread : readFields lib convert pairs map h = some (.ok map', h')) :
    ∀ e ∈ pairs, keyText lib e.1 ≠ none := by
  induction pairs generalizing map h with
  | nil => simp
  | cons p pairs ih =>
    obtain ⟨k, v⟩ := p
    rw [readFields] at hread
    split at hread
    · cases (Prod.mk.inj (Option.some.inj hread)).1
    · rename_i key hkey
      obtain ⟨⟨value, h₁⟩, -, hrest⟩ := Option.bind_eq_some_iff.mp hread
      rw [List.forall_mem_cons]
      exact ⟨by simp [hkey], ih hrest⟩

theorem readFields_prefix {pre post : List (LuaValue × LuaValue)} {map : FieldMap}
    {r : Except Str FieldMap × Heap H}
    (hread : readFields lib convert (pre ++ post) map h = some r)
    (hpre : ∀ e ∈ pre, keyText lib e.1 ≠ none) :
    ∃ map' h₁, readFields lib convert pre map h = some (.ok map', h₁) := by
  induction pre generalizing map h with
  | nil => exact ⟨map, h, rfl⟩
  | cons p pre ih =>
    obtain ⟨k, v⟩ := p
    rw [List.forall_mem_cons] at hpre
    rw [List.cons_append, readFields] at hread
    rw [readFields]
    split at hread
    · exact absurd ‹_› hpre.1
    · obtain ⟨⟨value, h₁⟩, hvalue, hrest⟩ := Option.bind_eq_some_iff.mp hread
      simp only [hvalue, Option.bind_eq_bind, Option.bind_some]
      exact ih hrest hpre.2

theorem Enters.follows (hquiet : Quiet lib h) {c : Conversion} {c' : Conversion × Heap H}
    (henters : Enters lib vm (c, h) c') : c'.2 = h ∧ Follows lib h c c'.1 := by
  cases henters with
  | @item t _ h₁ h₂ entries metatable n k items v ht hk hitems hv =>
    have hsame : h₁ = h := readItems_still (j := 0) hquiet (hquiet.still _) ht (by omega) hitems
    rw [hsame, hquiet.get ht hk] at hv
    obtain ⟨rfl, rfl⟩ := LuaM.ok_inj hv
    exact ⟨rfl, .item ht hk⟩
  | @entry t _ h₁ entries metatable n pre post key v map ht hlen hpairs hpre =>
    have hmem : (key, v) ∈ pre ++ (key, v) :: post := by simp
    exact ⟨readEntries_still (hquiet.still _) hpre, .entry ht hlen hpairs hmem⟩
  | field ht hkey hpre =>
    exact ⟨readFields_still (hquiet.still _) hpre, .field ht (readFields_ok_keys hpre) hkey⟩

theorem Follows.enters (hquiet : Quiet lib h) {c c' : Conversion} (hends : Ends lib vm (c, h))
    (hfollows : Follows lib h c c') : Enters lib vm (c, h) (c', h) := by
  cases hfollows with
  | @item t entries metatable k ht hk =>
    obtain ⟨n, r, hr⟩ := hends
    cases n with
    | zero => cases hr
    | succ n =>
      rw [luaValueToFieldValue, readTable, ht] at hr
      simp only [Nat.lt_of_le_of_lt (Nat.zero_le _) hk, if_true] at hr
      obtain ⟨all, hall, -⟩ := Option.bind_eq_some_iff.mp hr
      obtain ⟨j, hj⟩ := Nat.exists_eq_add_of_lt hk
      rw [hj, Nat.add_assoc, readItems_add] at hall
      obtain ⟨⟨items, h₁⟩, hitems, -⟩ := Option.bind_eq_some_iff.mp hall
      have hsame : h₁ = h := readItems_still (j := 0) hquiet (hquiet.still _) ht (by omega) hitems
      subst hsame
      exact .item ht hk hitems (hquiet.get ht hk)
  | @entry t entries metatable pairs key v ht hlen hpairs hmem =>
    obtain ⟨pre, post, rfl⟩ := List.append_of_mem hmem
    obtain ⟨n, r, hr⟩ := hends
    cases n with
    | zero => cases hr
    | succ n =>
      rw [luaValueToFieldValue, readTable, ht] at hr
      simp only [hlen, Nat.lt_irrefl, if_false, hpairs] at hr
      obtain ⟨all, hall, -⟩ := Option.bind_eq_some_iff.mp hr
      rw [readEntries_append] at hall
      obtain ⟨⟨map, h₁⟩, hmap, -⟩ := Option.bind_eq_some_iff.mp hall
      have hsame : h₁ = h := readEntries_still (hquiet.still _) hmap
      subst hsame
      exact .entry ht hlen hpairs hmap
  | field ht hpre hkey =>
    obtain ⟨n, r, hr⟩ := hends
    rw [luaTableToFieldmap, ht] at hr
    obtain ⟨map, h₁, hmap⟩ := readFields_prefix hr hpre
    have hsame : h₁ = h := readFields_still (hquiet.still _) hmap
    subst hsame
    exact .field ht hkey hmap

theorem acc_enters (hquiet : Quiet lib h) {c : Conversion} (hacc : Acc (flip (Follows lib h)) c) :
    Acc (flip (Enters lib vm)) (c, h) := by
  induction hacc with
  | intro c _ ih =>
    refine .intro _ fun c' henters => ?_
    obtain ⟨hheap, hfollows⟩ := Enters.follows hquiet henters
    obtain ⟨c', h'⟩ := c'
    subst hheap
    exact ih c' hfollows

theorem acc_follows (hquiet : Quiet lib h) {x : Conversion × Heap H}
    (hacc : Acc (flip (Enters lib vm)) x) (hx : x.2 = h) : Acc (flip (Follows lib h)) x.1 := by
  induction hacc with
  | intro x hacc ih =>
    obtain ⟨c, h'⟩ := x
    subst hx
    refine .intro _ fun c' hfollows => ?_
    exact ih (c', h') (hfollows.enters hquiet (ends_of_acc (.intro _ hacc))) rfl

def Loops (lib : Library) (h : Heap H) (c : Conversion) : Prop :=
  ∃ t, ReflTransGen (Follows lib h) c (.value (.table t)) ∧
    TransGen (Follows lib h) (.value (.table t)) (.value (.table t))

theorem Follows.value {c c' : Conversion} (hfollows : Follows lib h c c') :
    ∃ v, c' = .value v := by
  cases hfollows <;> exact ⟨_, rfl⟩

theorem Follows.table {v : LuaValue} {c : Conversion} (hfollows : Follows lib h (.value v) c) :
    ∃ t, v = .table t := by
  cases hfollows <;> exact ⟨_, rfl⟩

theorem endless_follows_iff {c : Conversion} : Endless (Follows lib h) c ↔ Loops lib h c := by
  let dom : Set Conversion :=
    (fun t => .value (.table t)) '' {t | t < h.length} ∪ Conversion.fields '' {t | t < h.length}
  have hdom : ∀ a b, Follows lib h a b → a ∈ dom := by
    intro a b hab
    cases hab with
    | item ht => exact .inl ⟨_, (List.getElem?_eq_some_iff.mp ht).1, rfl⟩
    | entry ht => exact .inl ⟨_, (List.getElem?_eq_some_iff.mp ht).1, rfl⟩
    | field ht => exact .inr ⟨_, (List.getElem?_eq_some_iff.mp ht).1, rfl⟩
  have hfinite : dom.Finite := ((Set.finite_lt_nat _).image _).union ((Set.finite_lt_nat _).image _)
  rw [endless_iff_cycle hfinite hdom]
  constructor
  · rintro ⟨b, hb, hcycle⟩
    -- What a call comes to is a value, and only a table leads on.
    obtain ⟨a, -, hlast⟩ := TransGen.tail'_iff.mp hcycle
    obtain ⟨a', hfirst, -⟩ := TransGen.head'_iff.mp hcycle
    obtain ⟨v, rfl⟩ := hlast.value
    obtain ⟨t, rfl⟩ := hfirst.table
    exact ⟨t, hb, hcycle⟩
  · rintro ⟨t, ht, hcycle⟩
    exact ⟨_, ht, hcycle⟩

theorem ends_iff_not_loops (hquiet : Quiet lib h) {c : Conversion} :
    Ends lib vm (c, h) ↔ ¬Loops lib h c := by
  rw [← endless_follows_iff, ← acc_iff_not_endless]
  constructor
  · intro hends
    exact acc_follows hquiet (acc_of_ends hends) rfl
  · intro hacc
    exact ends_of_acc (acc_enters hquiet hacc)

/-- A conversion returns exactly when no calls without an end start from it; where no code runs when
an item is read, exactly when no table that it comes to leads back to itself. -/
theorem conversion_ends_iff (lib : Library) (vm : Vm H) (c : Conversion) (h : Heap H) :
    (Ends lib vm (c, h) ↔ ¬Endless (Enters lib vm) (c, h)) ∧
      (Quiet lib h → (Ends lib vm (c, h) ↔ ¬Loops lib h c)) :=
  ⟨ends_iff, fun hquiet => ends_iff_not_loops hquiet⟩

def selfHeap : Heap Unit := [.table (stringEntries [("self".toList, .table 0)]) none]

theorem singleton_quiet (lib : Library) (entries : List (LuaValue × LuaValue)) :
    Quiet lib ([.table entries none] : Heap H) := by
  intro t entries' metatable ht k _ _
  cases t with
  | zero =>
    obtain ⟨-, rfl⟩ := Object.table.inj (Option.some.inj ht)
    exact metamethod_none _ _
  | succ t => cases ht

theorem selfHeap_loops (lib : Library) : Loops lib selfHeap (.value (.table 0)) := by
  have hlen := border_stringEntries (lib.isBorder 0 (stringEntries [("self".toList, .table 0)]))
  have hself : Follows lib selfHeap (.value (.table 0)) (.value (.table 0)) :=
    .entry rfl hlen (textPairs_stringEntries lib _) (List.mem_singleton_self _)
  exact ⟨0, .refl, .single hself⟩

theorem self_not_converted :
    ¬∀ (lib : Library) (vm : Vm Unit) (c : Conversion) (h : Heap Unit), Ends lib vm (c, h) := by
  intro hall
  have hends := hall countingLibrary noCode (.value (.table 0)) selfHeap
  exact (ends_iff_not_loops (singleton_quiet _ _)).mp hends (selfHeap_loops _)

end Luaml
