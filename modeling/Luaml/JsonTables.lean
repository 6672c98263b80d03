import Luaml.ExecutorLaws
import Luaml.JsonMapping

namespace Luaml

open Rust Serde Lua

namespace Json

open RecM

def coerceText : LuaValue → Option Str
  | .string s => some s
  | .integer i => some (intText i.toInt)
  | _ => none

def StringKey : LuaValue → Prop
  | .string _ | .bytes _ => True
  | _ => False

/-- A value of finite depth whose tables have strings for keys, or integers from one on, and which
has no other leaves than those that the mapping names. -/
inductive Encodable {H : Type} (h : Heap H) : LuaValue → Prop
  | scalar {v : LuaValue} {j : JsonValue} : scalarToJson v = some j → Encodable h v
  | table {t : Ref} {entries : List (LuaValue × LuaValue)} {metatable : Option Ref} :
    h[t]? = some (.table entries metatable) → ProperTable entries →
      (∀ e ∈ entries, StringKey e.1) ∨ (∀ e ∈ entries, ∃ i, e.1 = .integer i ∧ 1 ≤ i) →
        (∀ e ∈ entries, Encodable h e.2) → Encodable h (.table t)

def Supported (entries : List (LuaValue × LuaValue)) : Prop :=
  (∃ n, Sequence entries n) ∨ ∀ e ∈ entries, ∃ s, e.1 = .string s

variable {H : Type} {texts : Texts} {vm : Vm H} {h : Heap H} {t : Ref}
  {entries : List (LuaValue × LuaValue)} {v : LuaValue} {j : JsonValue}

theorem Encodable.properTree (henc : Encodable h v) : ProperTree h v := by
  induction henc with
  | @scalar v j hscalar =>
    refine .leaf fun t => ?_
    rintro rfl
    cases hscalar
  | table ht hproper _ _ ih => exact .table ht hproper ih

theorem coerceText_of_nameText {key : LuaValue} {s : Str} (hname : nameText key = some s) :
    coerceText key = some s := by
  rw [nameText_eq_some.mp hname, coerceText]

theorem Mapped.coerce (hmapped : Mapped nameText h v j) : Mapped coerceText h v j := by
  induction hmapped with
  | scalar hscalar => exact .scalar hscalar
  | array ht hseq _ ih => exact .array ht hseq ih
  | object ht hnot hkeys hnames _ hascending ih =>
    exact .object ht hnot hkeys (fun e he => coerceText_of_nameText (hnames e he)) ih hascending

theorem Encodable.supported (henc : Encodable h v) (hmapped : Mapped nameText h v j) :
    Tree (fun entries _ => Supported entries) h v := by
  induction henc generalizing j with
  | @scalar v _ hscalar =>
    refine .leaf fun t => ?_
    rintro rfl
    cases hscalar
  | @table t entries metatable ht hproper _ _ ih =>
    have hpresent : ∀ e ∈ entries, rawGet entries e.1 ≠ .nil := fun e he =>
      hproper.present_iff.mpr (List.mem_map_of_mem he)
    rcases (mapped_table_iff ht).mp hmapped with ⟨items, -, hseq, hitems⟩ |
      ⟨members, -, -, hkeys, hnames, hvalues, -⟩
    · refine .table ht (.inl ⟨_, hseq⟩) fun e he => ?_
      obtain ⟨k, hk, hkey⟩ := (hseq e.1).mp (hpresent e he)
      have hitem := hitems k _ (List.getElem?_eq_getElem hk)
      rw [← hkey, hproper.rawGet_eq he] at hitem
      exact ih e he hitem
    · have hmember : ∀ e ∈ entries, ∃ m ∈ members, m.1 = e.1 := fun e he =>
        List.mem_map.mp ((hkeys e.1).mpr (hpresent e he))
      refine .table ht (.inr fun e he => ?_) fun e he => ?_
      · obtain ⟨m, hm, heq⟩ := hmember e he
        exact ⟨m.2.1, heq ▸ nameText_eq_some.mp (hnames m hm)⟩
      · obtain ⟨m, hm, heq⟩ := hmember e he
        have hvalue := hvalues m hm
        rw [heq, hproper.rawGet_eq he] at hvalue
        exact ih e he hvalue

theorem Encodable.exists_mapped (henc : Encodable h v)
    (hsupported : Tree (fun entries _ => Supported entries) h v) : ∃ j, Mapped nameText h v j := by
  induction henc with
  | scalar hscalar => exact ⟨_, .scalar hscalar⟩
  | @table t entries metatable ht hproper _ _ ih =>
    cases hsupported with
    | leaf hv => exact absurd rfl (hv t)
    | table ht' hkeys hvalues =>
      obtain ⟨rfl, -⟩ := table_unique ht ht'
      have hall : ∀ e ∈ entries, ∃ j, Mapped nameText h e.2 j := fun e he =>
        ih e he (hvalues e he)
      choose! value hvalue using hall
      simp only [mapped_table_iff ht]
      by_cases hseq : ∃ n, Sequence entries n
      · obtain ⟨n, hseq⟩ := hseq
        let items := (List.range n).map fun k => value (index k, rawGet entries (index k))
        have hlen : items.length = n := by rw [List.length_map, List.length_range]
        refine ⟨_, .inl ⟨items, rfl, hlen.symm ▸ hseq, fun k item hitem => ?_⟩⟩
        obtain ⟨hk, rfl⟩ := List.getElem?_eq_some_iff.mp hitem
        rw [List.getElem_map, List.getElem_range]
        exact hvalue _ (hproper.mem_of_present ((hseq _).mpr ⟨k, hlen ▸ hk, rfl⟩))
      · have hnames := hkeys.resolve_left hseq
        choose! name hname using hnames
        have hne : entries ≠ [] := by
          rintro rfl
          exact hseq ⟨0, fun key => by simp [rawGet, Map.get]⟩
        have hadded : List.Forall₂ (fun e a => e.1 = .string a.1 ∧ Mapped nameText h e.2 a.2)
            entries (entries.map fun e => (name e, value e)) := by
          rw [List.forall₂_map_right_iff, List.forall₂_same]
          exact fun e he => ⟨hname e he, hvalue e he⟩
        exact ⟨_, tableMapped_of_added hproper hne hadded⟩

theorem Encodable.supported_of_ok (henc : Encodable h (.table t)) {n : Nat} {h' : Heap H}
    (hj : luaTableToJson texts vm (luaToJson texts vm n) t h = some (.ok j, h')) :
    Tree (fun entries _ => Supported entries) h (.table t) := by
  have hj' : luaToJson texts vm (n + 1) (.table t) h = some (.ok j, h') := hj
  exact henc.supported (mapped_of_luaToJson henc.properTree hj').1

/-- `lua_table_to_json` succeeds on a table of the documented kinds, with what it is documented to
give, exactly when the keys of each table of it, at any depth, are `1..=n`, or texts. -/
theorem luaTableToJson_documented_iff (texts : Texts) (vm : Vm H) (henc : Encodable h (.table t)) :
    (∃ n j h', luaTableToJson texts vm (luaToJson texts vm n) t h = some (.ok j, h') ∧
      Mapped coerceText h (.table t) j) ↔
        Tree (fun entries _ => Supported entries) h (.table t) := by
  constructor
  · rintro ⟨n, j, h', hj, -⟩
    exact henc.supported_of_ok hj
  · intro hsupported
    obtain ⟨j, hmapped⟩ := henc.exists_mapped hsupported
    obtain ⟨n, r, hr, hgives⟩ := luaToJson_gives texts vm henc.properTree
    rw [(hgives j).mpr hmapped] at hr
    cases n with
    | zero => cases hr
    | succ n => exact ⟨n, j, h, hr, hmapped.coerce⟩

def pageEntries : List (LuaValue × LuaValue) :=
  [(.string "sizes".toList, .table 1), (.string "name".toList, .string "page".toList)]

def sizesEntries : List (LuaValue × LuaValue) :=
  [(.integer 2, .integer 1), (.integer 1, .number ⟨0x4004000000000000⟩), (.integer 3, .table 2)]

def oneEntry (key : LuaValue) : List (LuaValue × LuaValue) := [(key, .boolean true)]

def pageHeap : Heap Unit :=
  [.table pageEntries none, .table sizesEntries none, .table (oneEntry (.integer 1)) none]

theorem pageEntries_proper : ProperTable pageEntries where
  nodup := by decide
  present := by decide
  normal := by simp [pageEntries, NormalKey]
  length_lt := by decide

theorem sizesEntries_proper : ProperTable sizesEntries where
  nodup := by decide
  present := by decide
  normal := by simp [sizesEntries, NormalKey]
  length_lt := by decide

theorem oneEntry_proper {key : LuaValue} (hkey : NormalKey key) : ProperTable (oneEntry key) where
  nodup := List.nodup_singleton _
  present := by simp [oneEntry]
  normal := by simpa [oneEntry] using hkey
  length_lt := by
    rw [oneEntry, List.length_singleton]
    decide

theorem page_encodable : Encodable pageHeap (.table 0) := by
  have hone : Encodable pageHeap (.table 2) := by
    refine .table rfl (oneEntry_proper trivial) (.inr ?_) ?_
    · simp [oneEntry]
    · simpa [oneEntry] using Encodable.scalar rfl
  have hsizes : Encodable pageHeap (.table 1) := by
    refine .table rfl sizesEntries_proper (.inr ?_) ?_
    · simp [sizesEntries]
    · simpa [sizesEntries, hone] using ⟨Encodable.scalar rfl, Encodable.scalar rfl⟩
  refine .table rfl pageEntries_proper (.inl ?_) ?_
  · simp [pageEntries, StringKey]
  · simpa [pageEntries, hsizes] using Encodable.scalar rfl

theorem page_tree {P : List (LuaValue × LuaValue) → Option Ref → Prop} (hpage : P pageEntries none)
    (hsizes : P sizesEntries none) (hone : P (oneEntry (.integer 1)) none) :
    Tree P pageHeap (.table 0) := by
  have hleaf : ∀ v : LuaValue, (∀ t, v ≠ .table t) → Tree P pageHeap v := fun _ => .leaf
  have htrue : Tree P pageHeap (.table 2) := by
    refine .table rfl hone ?_
    simpa [oneEntry] using hleaf _ (by simp)
  have hnumbers : Tree P pageHeap (.table 1) := by
    refine .table rfl hsizes ?_
    simpa [sizesEntries, htrue] using ⟨hleaf _ (by simp), hleaf _ (by simp)⟩
  refine .table rfl hpage ?_
  simpa [pageEntries, hnumbers] using hleaf _ (by simp)

theorem sequence_of_keys {n : Nat} (hproper : ProperTable entries)
    (hkeys : (entries.map Prod.fst).Perm ((List.range n).map index)) : Sequence entries n := by
  intro key
  rw [hproper.present_iff, hkeys.mem_iff, List.mem_map]
  simp only [List.mem_range, eq_comm]

theorem page_documented :
    ∃ n j h', luaTableToJson noTexts noCode (luaToJson noTexts noCode n) 0 pageHeap =
        some (.ok j, h') ∧
      Mapped coerceText pageHeap (.table 0) j := by
  refine (luaTableToJson_documented_iff noTexts noCode page_encodable).mpr ?_
  refine page_tree (.inr (by simp [pageEntries])) (.inl ⟨3, ?_⟩) (.inl ⟨1, ?_⟩)
  · exact sequence_of_keys sizesEntries_proper (by decide)
  · exact sequence_of_keys (oneEntry_proper trivial) (by decide)

def oneKey (key : LuaValue) : Heap Unit := [.table (oneEntry key) none]

theorem sparse_encodable : Encodable (oneKey (.integer 2)) (.table 0) := by
  refine .table rfl (oneEntry_proper trivial) (.inr ?_) ?_
  · simp [oneEntry]
  · simpa [oneEntry] using Encodable.scalar rfl

theorem sparse_not_encoded :
    ¬∀ (texts : Texts) (vm : Vm Unit) (h : Heap Unit) (t : Ref), Encodable h (.table t) →
      ∃ n j h', luaTableToJson texts vm (luaToJson texts vm n) t h = some (.ok j, h') ∧
        Mapped coerceText h (.table t) j := by
  intro hall
  obtain ⟨n, j, h', hj, -⟩ := hall noTexts noCode _ _ sparse_encodable
  have hsupported := sparse_encodable.supported_of_ok hj
  cases hsupported with
  | leaf hv => exact hv 0 rfl
  | table ht hkeys =>
    obtain ⟨rfl, -⟩ := Object.table.inj (Option.some.inj ht)
    rcases hkeys with ⟨n, hseq⟩ | hnames
    · have hproper : ProperTable (oneEntry (.integer 2)) := oneEntry_proper trivial
      obtain rfl : 1 = n := hseq.length_eq hproper
      obtain ⟨k, hk, heq⟩ := (hseq (.integer 2)).mp (by decide)
      obtain rfl := Nat.lt_one_iff.mp hk
      exact absurd heq (by decide)
    · obtain ⟨s, hs⟩ := hnames _ List.mem_cons_self
      cases hs

end Json

end Luaml
