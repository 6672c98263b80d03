import Luaml.Executor
import Luaml.LuaLaws

/-! `lua_value_to_field_value`, and what is left of a value that goes to Lua and back. -/

namespace Luaml

open Rust Lua

/-- `n` is a border of the table, as Lua defines the length of a table. -/
structure IsBorder (entries : List (LuaValue × LuaValue)) (n : Nat) : Prop where
  lt : n < 2 ^ 63
  present : n ≠ 0 → rawGet entries (.integer (Int64.ofNat n)) ≠ .nil
  absent : n + 1 < 2 ^ 63 → rawGet entries (.integer (Int64.ofNat (n + 1))) = .nil

/-- What Lua takes for the length of a table, any of its borders and not the same for all tables of
the same entries, and how it writes a float. -/
structure Library where
  rawLen : Ref → List (LuaValue × LuaValue) → Nat
  isBorder : ∀ t entries, IsBorder entries (rawLen t entries)
  floatText : F64 → Str

/-- `String::from_lua` -/
def keyText (lib : Library) : LuaValue → Option Str
  | .string s => some s
  | .integer n => some (intText n.toInt)
  | .number f => some (lib.floatText f)
  | _ => none

section

variable {H : Type} (lib : Library) (vm : Vm H)
  (convert : LuaValue → Heap H → Option (FieldValue × Heap H))

def readItems (t : Ref) : Nat → Int64 → Heap H → Option (List FieldValue × Heap H)
  | 0, _, h => some ([], h)
  | n + 1, i, h =>
    match Lua.get vm t (.integer i) h with
    | (.ok v, h) => do
      let (item, h) ← convert v h
      let (items, h) ← readItems t n (i + 1) h
      some (item :: items, h)
    | (.error _, h) => readItems t n (i + 1) h

def readEntries : List (Str × LuaValue) → FieldMap → Heap H → Option (FieldMap × Heap H)
  | [], map, h => some (map, h)
  | (k, v) :: pairs, map, h => do
    let (value, h) ← convert v h
    readEntries pairs (Map.insert map k value) h

def textPairs (entries : List (LuaValue × LuaValue)) : Option (List (Str × LuaValue)) :=
  entries.mapM fun e => (keyText lib e.1).map (·, e.2)

def readTable (t : Ref) (h : Heap H) : Option (FieldValue × Heap H) :=
  match h[t]? with
  | some (.table entries _) =>
    let len := lib.rawLen t entries
    if 0 < len then do
      let (items, h) ← readItems vm convert t len 1 h
      some (.list items, h)
    else
      match textPairs lib entries with
      | some pairs => do
        let (map, h) ← readEntries convert pairs [] h
        some (.map map, h)
      | none => some (.map [], h)
  | _ => some (.null, h)

end

/-- `lua_value_to_field_value`, if it recurs no deeper than `n`. -/
def luaValueToFieldValue {H : Type} (lib : Library) (vm : Vm H) :
    Nat → LuaValue → Heap H → Option (FieldValue × Heap H)
  | 0, _, _ => none
  | n + 1, value, h =>
    match value with
    | .nil => some (.null, h)
    | .boolean b => some (.bool b, h)
    | .integer n => some (.number n, h)
    | .number f => some (.float f, h)
    | .luaEnum name => some (.enum name, h)
    | .string s => some (.string s, h)
    | .bytes _ => some (.string [], h)
    | .table t => readTable lib vm (luaValueToFieldValue lib vm n) t h
    | .function _ | .userdata _ => some (.null, h)

mutual
/-- A symbol is a string, an empty list an empty map, and an entry without a value none. -/
def bridged : FieldValue → FieldValue
  | .enum s => .string s
  | .list [] => .map []
  | .list (v :: vs) => .list (bridged v :: bridgedItems vs)
  | .map m => .map (bridgedEntries m)
  | .string s => .string s
  | .number n => .number n
  | .float f => .float f
  | .bool b => .bool b
  | .null => .null

def bridgedItems : List FieldValue → List FieldValue
  | [] => []
  | v :: vs => bridged v :: bridgedItems vs

def bridgedEntries : List (Str × FieldValue) → List (Str × FieldValue)
  | [] => []
  | (k, v) :: m => if v = .null then bridgedEntries m else (k, bridged v) :: bridgedEntries m
end

mutual
/-- A value as it is in memory, without a null in a list: the keys of a map are distinct, and a list
is no longer than a vector can be. -/
def Bridgeable : FieldValue → Prop
  | .list vs => vs.length < 2 ^ 63 ∧ BridgeableItems vs
  | .map m => (m.map Prod.fst).Nodup ∧ BridgeableEntries m
  | _ => True

def BridgeableItems : List FieldValue → Prop
  | [] => True
  | v :: vs => v ≠ .null ∧ Bridgeable v ∧ BridgeableItems vs

def BridgeableEntries : List (Str × FieldValue) → Prop
  | [] => True
  | (_, v) :: m => Bridgeable v ∧ BridgeableEntries m
end

variable {H : Type} (lib : Library) (vm : Vm H)

/-- The heap has the value in it at `lo` and above: any heap that agrees with it there reads so. -/
def Reads (lo : Ref) (h : Heap H) (value : LuaValue) (v : FieldValue) : Prop :=
  ∃ n, ∀ m, n ≤ m → ∀ h' : Heap H, (∀ r, lo ≤ r → r < h.length → h'[r]? = h[r]?) →
    luaValueToFieldValue lib vm m value h' = some (v, h')

section

variable {lib vm} {lo lo' : Ref} {h g : Heap H} {value : LuaValue} {v : FieldValue}

theorem Reads.frame (hreads : Reads lib vm lo' h value v) (hlo : lo ≤ lo')
    (hlen : h.length ≤ g.length) (hagree : ∀ r, lo' ≤ r → r < h.length → g[r]? = h[r]?) :
    Reads lib vm lo g value v := by
  obtain ⟨n, hn⟩ := hreads
  refine ⟨n, fun m hm h' hh' => hn m hm h' fun r hr hrh => ?_⟩
  rw [hh' r (hlo.trans hr) (hrh.trans_le hlen), hagree r hr hrh]

theorem Reads.of_read (hread : ∀ n (h' : Heap H),
    luaValueToFieldValue lib vm (n + 1) value h' = some (v, h')) : Reads lib vm lo h value v := by
  refine ⟨1, fun m hm h' _ => ?_⟩
  obtain ⟨n, rfl⟩ := Nat.exists_eq_add_of_le' hm
  exact hread n h'

theorem reads_all {α β : Type} (source : α → LuaValue) (target : β → FieldValue) {xs : List α}
    {ys : List β}
    (hreads : List.Forall₂ (fun x y => Reads lib vm lo h (source x) (target y)) xs ys) :
    ∃ n, ∀ m, n ≤ m → ∀ h' : Heap H, (∀ r, lo ≤ r → r < h.length → h'[r]? = h[r]?) →
      List.Forall₂ (fun x y =>
        luaValueToFieldValue lib vm m (source x) h' = some (target y, h')) xs ys := by
  induction hreads with
  | nil => exact ⟨0, fun _ _ _ _ => .nil⟩
  | cons hv _ ih =>
    obtain ⟨n, hn⟩ := hv
    obtain ⟨k, hk⟩ := ih
    refine ⟨max n k, fun m hm h' hh' => .cons ?_ ?_⟩
    · exact hn m ((Nat.le_max_left n k).trans hm) h' hh'
    · exact hk m ((Nat.le_max_right n k).trans hm) h' hh'

end

def HasItems (entries : List (LuaValue × LuaValue)) (values : List LuaValue) : Prop :=
  ∀ j, j + 1 < 2 ^ 63 →
    rawGet entries (.integer (Int64.ofNat (j + 1))) = values[j]?.getD .nil

theorem HasItems.push {entries : List (LuaValue × LuaValue)} {values : List LuaValue}
    (hitems : HasItems entries values) (hlen : values.length + 1 < 2 ^ 63) (value : LuaValue) :
    HasItems (rawSet entries (.integer (Int64.ofNat (values.length + 1))) value)
      (values ++ [value]) := by
  intro j hj
  rw [rawGet_rawSet]
  by_cases heq : values.length = j
  · subst heq
    simp
  · have hne : LuaValue.integer (Int64.ofNat (values.length + 1)) ≠
        .integer (Int64.ofNat (j + 1)) := by
      rw [Ne, LuaValue.integer.injEq, ofNat_inj hlen hj]
      omega
    rw [if_neg hne, hitems j hj]
    rcases Nat.lt_or_gt_of_ne heq with hlt | hgt
    · simp [List.getElem?_eq_none (show values.length ≤ j by omega),
        List.getElem?_eq_none (show (values ++ [value]).length ≤ j by simp; omega)]
    · rw [List.getElem?_append_left hgt]

theorem HasItems.border {entries : List (LuaValue × LuaValue)} {values : List LuaValue}
    (hitems : HasItems entries values) (hlen : values.length < 2 ^ 63)
    (hpresent : ∀ value ∈ values, value ≠ .nil) {n : Nat} (hn : IsBorder entries n) :
    n = values.length := by
  have hle : n ≤ values.length := by
    cases n with
    | zero => exact Nat.zero_le _
    | succ j =>
      by_contra hgt
      have hpast := hn.present (Nat.succ_ne_zero j)
      rw [hitems j hn.lt, List.getElem?_eq_none (by omega)] at hpast
      exact hpast rfl
  refine Nat.le_antisymm hle (Nat.le_of_not_lt fun hlt => ?_)
  have hnext := hn.absent (by omega)
  rw [hitems n (by omega), List.getElem?_eq_getElem hlt] at hnext
  exact hpresent _ (List.getElem_mem hlt) hnext

theorem readItems_eq {vm : Vm H} {convert : LuaValue → Heap H → Option (FieldValue × Heap H)}
    {t : Ref} {entries : List (LuaValue × LuaValue)} {h : Heap H} {values : List LuaValue}
    {vs : List FieldValue} (ht : h[t]? = some (.table entries none))
    (hread : List.Forall₂ (fun value v => convert value h = some (v, h)) values vs) (i : Nat)
    (hentries : ∀ j, j < values.length →
      rawGet entries (.integer (Int64.ofNat (i + j))) = values[j]?.getD .nil) :
    readItems vm convert t values.length (Int64.ofNat i) h = some (vs, h) := by
  induction hread generalizing i with
  | nil => rfl
  | @cons value v values vs hv _ ih =>
    have hfirst : rawGet entries (.integer (Int64.ofNat i)) = value :=
      hentries 0 (Nat.succ_pos _)
    have hrest := ih (i + 1) fun j hj => by
      rw [Nat.add_assoc, Nat.add_comm 1]
      exact hentries (j + 1) (Nat.succ_lt_succ hj)
    have hsucc : Int64.ofNat i + 1 = Int64.ofNat (i + 1) := (Int64.ofNat_add i 1).symm
    simp only [List.length_cons, readItems, get_eq ht fun _ => rfl, hfirst, hv, hsucc, hrest,
      Option.bind_eq_bind, Option.bind_some]

theorem reads_list {lib : Library} {vm : Vm H} {lo t : Ref} {h : Heap H}
    {entries : List (LuaValue × LuaValue)} {values : List LuaValue} {vs : List FieldValue}
    (hlo : lo ≤ t) (ht : h[t]? = some (.table entries none)) (hitems : HasItems entries values)
    (hlen : values.length < 2 ^ 63) (hpresent : ∀ value ∈ values, value ≠ .nil)
    (hne : values ≠ []) (hreads : List.Forall₂ (Reads lib vm lo h) values vs) :
    Reads lib vm lo h (.table t) (.list vs) := by
  obtain ⟨n, hn⟩ := reads_all id id hreads
  refine ⟨n + 1, fun m hm h' hh' => ?_⟩
  obtain ⟨m, rfl⟩ : ∃ k, m = k + 1 := ⟨m - 1, by omega⟩
  have htable : h'[t]? = some (.table entries none) := by
    rw [hh' t hlo (List.getElem?_eq_some_iff.mp ht).1, ht]
  have hborder := hitems.border hlen hpresent (lib.isBorder t entries)
  have hpos : 0 < values.length := List.length_pos_iff.mpr hne
  have hloop : readItems vm (luaValueToFieldValue lib vm m) t values.length (Int64.ofNat 1) h' =
      some (vs, h') :=
    readItems_eq htable (hn m (by omega) h' hh') 1 fun j hj => by
      rw [Nat.add_comm]
      exact hitems j (by omega)
  have hone : readItems vm (luaValueToFieldValue lib vm m) t values.length 1 h' = some (vs, h') :=
    hloop
  rw [luaValueToFieldValue, readTable, htable]
  simp only [hborder, hpos, if_true, hone, Option.bind_eq_bind, Option.bind_some]

def stringEntries (pairs : List (Str × LuaValue)) : List (LuaValue × LuaValue) :=
  pairs.map fun p => (.string p.1, p.2)

theorem string_mem_stringEntries {pairs : List (Str × LuaValue)} {key : Str} :
    .string key ∈ (stringEntries pairs).map Prod.fst ↔ key ∈ pairs.map Prod.fst := by
  simp [stringEntries]

theorem stringEntries_append (pairs pairs' : List (Str × LuaValue)) :
    stringEntries (pairs ++ pairs') = stringEntries pairs ++ stringEntries pairs' :=
  List.map_append

theorem textPairs_cons (lib : Library) (e : LuaValue × LuaValue)
    (entries : List (LuaValue × LuaValue)) :
    textPairs lib (e :: entries) = (keyText lib e.1).bind fun key =>
      (textPairs lib entries).map fun pairs => (key, e.2) :: pairs := by
  have hcons : textPairs lib (e :: entries) = ((keyText lib e.1).map (·, e.2)).bind fun p =>
    (textPairs lib entries).bind fun pairs => some (p :: pairs) := List.mapM_cons
  rw [hcons]
  cases keyText lib e.1 with
  | none => rfl
  | some key => cases textPairs lib entries <;> rfl

theorem textPairs_stringEntries (lib : Library) (pairs : List (Str × LuaValue)) :
    textPairs lib (stringEntries pairs) = some pairs := by
  induction pairs with
  | nil => rfl
  | cons p pairs ih =>
    have hentries : stringEntries (p :: pairs) = (.string p.1, p.2) :: stringEntries pairs := rfl
    rw [hentries, textPairs_cons, ih]
    rfl

theorem border_stringEntries {pairs : List (Str × LuaValue)} {n : Nat}
    (hn : IsBorder (stringEntries pairs) n) : n = 0 := by
  by_contra hne
  apply hn.present hne
  have hnone : Map.get (stringEntries pairs) (.integer (Int64.ofNat n)) = none := by
    rw [Map.get_eq_none]
    simp [stringEntries]
  rw [rawGet, hnone]
  rfl

theorem readEntries_eq {convert : LuaValue → Heap H → Option (FieldValue × Heap H)} {h : Heap H}
    {pairs : List (Str × LuaValue)} {m : List (Str × FieldValue)}
    (hnames : pairs.map Prod.fst = m.map Prod.fst)
    (hread : List.Forall₂ (fun p e => convert p.2 h = some (e.2, h)) pairs m)
    (map : FieldMap) (hkeys : ((map ++ m).map Prod.fst).Nodup) :
    readEntries convert pairs map h = some (map ++ m, h) := by
  induction hread generalizing map with
  | nil => simp [readEntries]
  | @cons p e pairs m hv _ ih =>
    obtain ⟨k, value⟩ := p
    obtain ⟨l, v⟩ := e
    obtain ⟨rfl, hrest⟩ : k = l ∧ pairs.map Prod.fst = m.map Prod.fst := List.cons.inj hnames
    have hnew : k ∉ map.map Prod.fst := by
      intro hmem
      rw [List.map_append, List.nodup_append] at hkeys
      exact hkeys.2.2 k hmem k (by simp) rfl
    rw [List.append_cons] at hkeys ⊢
    rw [readEntries, hv]
    simp only [Option.bind_eq_bind, Option.bind_some, Map.insert_of_notMem hnew,
      ih hrest _ hkeys]

theorem reads_map {lib : Library} {vm : Vm H} {lo t : Ref} {h : Heap H}
    {pairs : List (Str × LuaValue)} {m : List (Str × FieldValue)} (hlo : lo ≤ t)
    (ht : h[t]? = some (.table (stringEntries pairs) none)) (hkeys : (m.map Prod.fst).Nodup)
    (hnames : pairs.map Prod.fst = m.map Prod.fst)
    (hreads : List.Forall₂ (fun p e => Reads lib vm lo h p.2 e.2) pairs m) :
    Reads lib vm lo h (.table t) (.map m) := by
  obtain ⟨n, hn⟩ := reads_all Prod.snd Prod.snd hreads
  refine ⟨n + 1, fun k hk h' hh' => ?_⟩
  obtain ⟨k, rfl⟩ : ∃ j, k = j + 1 := ⟨k - 1, by omega⟩
  have htable : h'[t]? = some (.table (stringEntries pairs) none) := by
    rw [hh' t hlo (List.getElem?_eq_some_iff.mp ht).1, ht]
  have hborder := border_stringEntries (lib.isBorder t (stringEntries pairs))
  have hloop : readEntries (luaValueToFieldValue lib vm k) pairs [] h' = some (m, h') :=
    readEntries_eq hnames (hn k (by omega) h' hh') [] hkeys
  rw [luaValueToFieldValue, readTable, htable]
  simp only [hborder, Nat.lt_irrefl, if_false, textPairs_stringEntries, hloop,
    Option.bind_eq_bind, Option.bind_some]

end Luaml
