import Luaml.EncoderLaws

namespace Luaml

open Rust Serde Lua

namespace Json

open RecM

variable {H : Type} {d : Dialect} {name : LuaValue → Option Str} {vm : Vm H} {h : Heap H} {t : Ref}
  {entries : List (LuaValue × LuaValue)} {metatable : Option Ref} {v : LuaValue}

section

variable {convert convert' : LuaValue → RecM H JsonValue}

theorem dialect_encodeMembers_approx (happrox : ∀ v, Approx (convert v) (convert' v))
    (pairs : List (LuaValue × LuaValue)) (obj : List (Str × JsonValue)) :
    Approx (d.encodeMembers convert pairs obj) (d.encodeMembers convert' pairs obj) := by
  induction pairs generalizing obj with
  | nil => exact .refl _
  | cons e pairs ih =>
    obtain ⟨k, v⟩ := e
    exact .bind (.refl _) fun key => .bind (happrox v) fun value => ih _

theorem dialect_table_approx (happrox : ∀ v, Approx (convert v) (convert' v)) (t : Ref) :
    Approx (d.luaTableToJson vm convert t) (d.luaTableToJson vm convert' t) := by
  refine .bind (.refl _) fun entries => .bind (.refl _) fun shape => ?_
  dsimp only
  split
  · exact .refl _
  · split
    · exact .refl _
    · split
      · exact .bind (encodeItems_approx happrox t _ _) fun out => .refl _
      · exact .bind (dialect_encodeMembers_approx happrox _ _) fun obj => .refl _

end

theorem dialect_approx_succ (n : Nat) (v : LuaValue) :
    Approx (d.luaToJson vm n v) (d.luaToJson vm (n + 1) v) := by
  induction n generalizing v with
  | zero =>
    intro h r hr
    cases hr
  | succ n ih =>
    cases v with
    | table t => exact dialect_table_approx ih t
    | _ => exact .refl _

theorem dialect_approx {n m : Nat} (hle : n ≤ m) (v : LuaValue) :
    Approx (d.luaToJson vm n v) (d.luaToJson vm m v) := by
  induction m, hle using Nat.le_induction with
  | base => exact .refl _
  | succ m _ ih => exact fun h r hr => dialect_approx_succ m v h r (ih h r hr)

theorem dialect_scalar (hv : ∀ t, v ≠ .table t) :
    Gives h (d.luaToJson vm 1 v) fun j => scalarToJson v = some j := by
  cases v with
  | table t => exact absurd rfl (hv t)
  | number f =>
    rw [Dialect.luaToJson, scalarToJson]
    cases JsonNumber.fromF64 f with
    | none => exact .of_error rfl fun j hj => by cases hj
    | some n => exact (Gives.pure h _).congr fun j => by simp [eq_comm]
  | nil | boolean b | integer i | string s =>
    exact (Gives.pure h _).congr fun j => by simp [scalarToJson, eq_comm]
  | _ => exact .of_error rfl fun j hj => by cases hj

theorem kindOf_iff (badInteger : Int64 → Str) (badKey : LuaValue → Str) (key : LuaValue)
    (kind : Option Int64) :
    Dialect.kindOf badInteger badKey key = .ok kind ↔ KeyOf key kind := by
  constructor
  · intro hkey
    cases key with
    | integer i =>
      rw [Dialect.kindOf] at hkey
      split_ifs at hkey with hi
      cases hkey
      exact .index hi
    | string s =>
      cases hkey
      exact .string s
    | bytes b =>
      cases hkey
      exact .bytes b
    | _ => cases hkey
  · intro hkey
    cases hkey with
    | index hi => rw [Dialect.kindOf, if_pos hi]
    | string s => rfl
    | bytes b => rfl

theorem oneKind_of_sequence {n : Nat} (hproper : ProperTable entries)
    (hseq : Sequence entries n) : OneKind entries := by
  have hlen := hseq.length_eq hproper
  have hlt := hproper.length_lt
  refine .inr fun e he => ?_
  obtain ⟨k, hk, hkey⟩ := (hseq e.1).mp (hproper.present_iff.mpr (List.mem_map_of_mem he))
  refine ⟨_, hkey, Int64.le_iff_toInt_le.mpr ?_⟩
  rw [index_toInt (by omega), Int64.toInt_one]
  omega

theorem toOption_congr {ε ε' α : Type} {r : Except ε α} {r' : Except ε' α}
    (hall : ∀ a, r = .ok a ↔ r' = .ok a) : r.toOption = r'.toOption := by
  cases r with
  | ok a => rw [(hall a).mp rfl]; rfl
  | error e =>
    cases r' with
    | ok a => cases (hall a).mpr rfl
    | error e' => rfl

theorem dialect_gives (hd : d.Lawful name) {Q : LuaValue → JsonValue → Prop}
    (hscalar : ∀ v j, (∀ t, v ≠ .table t) → (scalarToJson v = some j ↔ Q v j))
    (htable : ∀ t entries metatable j, h[t]? = some (.table entries metatable) →
      ProperTable entries → (TableEncoded d.emptyTable name entries Q j ↔ Q (.table t) j))
    (htree : ProperTree h v) : ∃ n, Gives h (d.luaToJson vm n v) (Q v) := by
  induction htree with
  | leaf hv => exact ⟨1, (dialect_scalar hv).congr fun j => hscalar _ j hv⟩
  | table ht hproper _ ih =>
    have hmono : ∀ n m v, n ≤ m → Gives h (d.luaToJson vm n v) (Q v) →
        Gives h (d.luaToJson vm m v) (Q v) :=
      fun n m v hnm hgives => hgives.mono (dialect_approx hnm v)
    obtain ⟨n, hn⟩ := exists_depth hmono ih
    refine ⟨n + 1, Gives.congr ?_ fun j => htable _ _ _ j ht hproper⟩
    exact dialect_table_gives hd ht hproper hn

end Json

namespace Rpc

open Json RecM

variable {H : Type} {texts : Texts} {vm : Vm H} {h : Heap H}
  {entries : List (LuaValue × LuaValue)} {v : LuaValue}

theorem dialect_lawful (texts : Texts) : (dialect texts).Lawful nameText where
  keyKind_iff := kindOf_iff _ _
  objectKey_iff key kind s hkey := by
    cases hkey <;> simp [dialect, objectKey, nameText]
  name_inj entries _ e _ e' _ s hname hname' :=
    (nameText_eq_some.mp hname).trans (nameText_eq_some.mp hname').symm

theorem tableEncoded_iff {P : LuaValue → JsonValue → Prop} (hproper : ProperTable entries)
    {j : JsonValue} :
    TableEncoded (.array []) nameText entries P j ↔ TableMapped nameText entries P j := by
  by_cases hne : entries = []
  · subst hne
    simp [TableEncoded, tableMapped_nil]
  · simp only [TableEncoded, hne, false_and, ne_eq, not_false_eq_true, true_and, false_or,
      and_iff_right_iff_imp]
    rintro (⟨items, -, hseq, -⟩ | ⟨members, -, -, hkeys, hnames, -⟩)
    · exact oneKind_of_sequence hproper hseq
    · refine .inl fun e he => ?_
      have hpresent := hproper.present_iff.mpr (List.mem_map_of_mem he)
      obtain ⟨m, hm, heq⟩ := List.mem_map.mp ((hkeys e.1).mpr hpresent)
      rw [← heq, nameText_eq_some.mp (hnames m hm)]
      trivial

theorem luaToJson_gives_mapped (texts : Texts) (vm : Vm H) (htree : ProperTree h v) :
    ∃ n, Gives h (luaToJson texts vm n v) (Mapped nameText h v) := by
  refine dialect_gives (dialect_lawful texts) ?_ ?_ htree
  · exact fun v j hv => (mapped_scalar_iff hv).symm
  · exact fun t entries metatable j ht hproper =>
      (tableEncoded_iff hproper).trans (mapped_table_iff ht).symm

/-- On any value of finite depth, whatever the texts of its errors, the copy in `rpc` comes to what
`lua_to_json` in `json` comes to: both return, and give the same JSON value, or both fail. -/
theorem luaToJson_agrees (texts texts' : Texts) (vm : Vm H) (htree : ProperTree h v) :
    ∃ n, ∀ m, n ≤ m → ∃ r r', Json.luaToJson texts vm m v h = some (r, h) ∧
      luaToJson texts' vm m v h = some (r', h) ∧ r.toOption = r'.toOption := by
  obtain ⟨n, r, hr, hgives⟩ := Json.luaToJson_gives texts vm htree
  obtain ⟨n', r', hr', hgives'⟩ := luaToJson_gives_mapped texts' vm htree
  refine ⟨max n n', fun m hm => ⟨r, r', ?_, ?_, ?_⟩⟩
  · exact luaToJson_approx ((Nat.le_max_left n n').trans hm) v h _ hr
  · exact dialect_approx ((Nat.le_max_right n n').trans hm) v h _ hr'
  · exact toOption_congr fun j => (hgives j).trans (hgives' j).symm

theorem luaToJson_agrees_page :
    ∃ n, ∀ m, n ≤ m → ∃ r r',
      Json.luaToJson noTexts noCode m (.table 0) pageHeap = some (r, pageHeap) ∧
      luaToJson noTexts noCode m (.table 0) pageHeap = some (r', pageHeap) ∧
        r.toOption = r'.toOption :=
  luaToJson_agrees noTexts noTexts noCode page_encodable.properTree

end Rpc

namespace Http

open Json RecM

variable {H : Type} {texts : Texts} {notString : LuaValue → Str} {vm : Vm H} {h : Heap H}
  {entries : List (LuaValue × LuaValue)} {metatable : Option Ref} {t : Ref} {v : LuaValue}

theorem intText_inj {i j : Int64} (heq : intText i.toInt = intText j.toInt) : i = j := by
  have hi := parseI64_intText ⟨i.minValue_le_toInt, i.toInt_lt⟩
  have hj := parseI64_intText ⟨j.minValue_le_toInt, j.toInt_lt⟩
  rw [heq, hj] at hi
  simpa using hi.symm

theorem coerceText_of_stringKey {key : LuaValue} {s : Str} (hkey : StringKey key)
    (hname : coerceText key = some s) : key = .string s := by
  cases key with
  | string s' => exact congrArg _ (Option.some.inj hname)
  | bytes b => cases hname
  | _ => exact hkey.elim

theorem dialect_lawful (texts : Texts) (notString : LuaValue → Str) :
    (dialect texts notString).Lawful coerceText where
  keyKind_iff := kindOf_iff _ _
  objectKey_iff key kind s hkey := by
    cases hkey <;> simp [dialect, stringOf, coerceText]
  name_inj entries hkind e he e' he' s hname hname' := by
    rcases hkind with hstrings | hintegers
    · rw [coerceText_of_stringKey (hstrings e he) hname,
        coerceText_of_stringKey (hstrings e' he') hname']
    · obtain ⟨i, hi, -⟩ := hintegers e he
      obtain ⟨j, hj, -⟩ := hintegers e' he'
      rw [hi, coerceText] at hname
      rw [hj, coerceText] at hname'
      rw [hi, hj, intText_inj (Option.some.inj (hname.trans hname'.symm))]

/-- The mapping that `json` documents, with the keys of objects coerced to strings, but with an
object for a table without entries. -/
inductive Encoded (h : Heap H) : LuaValue → JsonValue → Prop
  | scalar {v : LuaValue} {j : JsonValue} : scalarToJson v = some j → Encoded h v j
  | empty {t : Ref} {metatable : Option Ref} :
    h[t]? = some (.table [] metatable) → Encoded h (.table t) (.object [])
  | array {t : Ref} {entries : List (LuaValue × LuaValue)} {metatable : Option Ref}
    {items : List JsonValue} :
    h[t]? = some (.table entries metatable) → entries ≠ [] → Sequence entries items.length →
      (∀ k item, items[k]? = some item → Encoded h (rawGet entries (index k)) item) →
        Encoded h (.table t) (.array items)
  | object {t : Ref} {entries : List (LuaValue × LuaValue)} {metatable : Option Ref}
    {members : List (LuaValue × Str × JsonValue)} :
    h[t]? = some (.table entries metatable) → entries ≠ [] → OneKind entries →
      (∀ n, ¬Sequence entries n) →
        (∀ key, key ∈ members.map Prod.fst ↔ rawGet entries key ≠ .nil) →
          (∀ e ∈ members, coerceText e.1 = some e.2.1) →
            (∀ e ∈ members, Encoded h (rawGet entries e.1) e.2.2) →
              BTreeMap.Ascending Str.cmp (members.map Prod.snd) →
                Encoded h (.table t) (.object (members.map Prod.snd))

theorem encoded_scalar_iff (hv : ∀ t, v ≠ .table t) {j : JsonValue} :
    Encoded h v j ↔ scalarToJson v = some j := by
  constructor
  · intro hencoded
    cases hencoded with
    | scalar hscalar => exact hscalar
    | empty | array | object => exact absurd rfl (hv _)
  · exact .scalar

theorem encoded_table_iff (ht : h[t]? = some (.table entries metatable))
    (hproper : ProperTable entries) {j : JsonValue} :
    Encoded h (.table t) j ↔ TableEncoded (.object []) coerceText entries (Encoded h) j := by
  constructor
  · intro hencoded
    cases hencoded with
    | scalar hscalar => cases hscalar
    | empty ht' =>
      obtain ⟨rfl, -⟩ := table_unique ht ht'
      exact .inl ⟨rfl, rfl⟩
    | array ht' hne hseq hitems =>
      obtain ⟨rfl, -⟩ := table_unique ht ht'
      exact .inr ⟨hne, oneKind_of_sequence hproper hseq, .inl ⟨_, rfl, hseq, hitems⟩⟩
    | object ht' hne hkind hnot hkeys hnames hvalues hascending =>
      obtain ⟨rfl, -⟩ := table_unique ht ht'
      exact .inr ⟨hne, hkind, .inr ⟨_, rfl, hnot, hkeys, hnames, hvalues, hascending⟩⟩
  · rintro (⟨rfl, rfl⟩ | ⟨hne, hkind, ⟨items, rfl, hseq, hitems⟩ |
      ⟨members, rfl, hnot, hkeys, hnames, hvalues, hascending⟩⟩)
    · exact .empty ht
    · exact .array ht hne hseq hitems
    · exact .object ht hne hkind hnot hkeys hnames hvalues hascending

theorem luaValueToJson_gives (texts : Texts) (notString : LuaValue → Str) (vm : Vm H)
    (htree : ProperTree h v) :
    ∃ n, Gives h (luaValueToJson texts notString vm n v) (Encoded h v) := by
  refine dialect_gives (dialect_lawful texts notString) ?_ ?_ htree
  · exact fun v j hv => (encoded_scalar_iff hv).symm
  · exact fun t entries metatable j ht hproper => (encoded_table_iff ht hproper).symm

mutual
def withObjects : JsonValue → JsonValue
  | .array [] => .object []
  | .array (item :: items) => .array (withObjects item :: withObjectsItems items)
  | .object members => .object (withObjectsMembers members)
  | other => other

def withObjectsItems : List JsonValue → List JsonValue
  | [] => []
  | item :: items => withObjects item :: withObjectsItems items

def withObjectsMembers : List (Str × JsonValue) → List (Str × JsonValue)
  | [] => []
  | (k, v) :: members => (k, withObjects v) :: withObjectsMembers members
end

theorem withObjectsItems_eq (items : List JsonValue) :
    withObjectsItems items = items.map withObjects := by
  induction items with
  | nil => rfl
  | cons item items ih => rw [withObjectsItems, ih, List.map_cons]

theorem withObjectsMembers_eq (members : List (Str × JsonValue)) :
    withObjectsMembers members = members.map fun e => (e.1, withObjects e.2) := by
  induction members with
  | nil => rfl
  | cons e members ih => rw [withObjectsMembers, ih, List.map_cons]

theorem withObjects_array {items : List JsonValue} (hne : items ≠ []) :
    withObjects (.array items) = .array (items.map withObjects) := by
  cases items with
  | nil => exact absurd rfl hne
  | cons item items => rw [withObjects, withObjectsItems_eq, List.map_cons]

theorem withObjects_scalar {j : JsonValue} (hscalar : scalarToJson v = some j) :
    withObjects j = j := by
  cases v with
  | number f =>
    obtain ⟨n, -, rfl⟩ := Option.map_eq_some_iff.mp hscalar
    rfl
  | _ => cases hscalar <;> rfl

theorem encoded_of_mapped (htree : ProperTree h v) {j : JsonValue}
    (hmapped : Mapped nameText h v j) : Encoded h v (withObjects j) := by
  induction htree generalizing j with
  | leaf hv =>
    have hscalar := (mapped_scalar_iff hv).mp hmapped
    rw [withObjects_scalar hscalar]
    exact .scalar hscalar
  | @table t entries metatable ht hproper _ ih =>
    have hvalue : ∀ key j, rawGet entries key ≠ .nil → Mapped nameText h (rawGet entries key) j →
        Encoded h (rawGet entries key) (withObjects j) := fun key j hkey hj =>
      ih _ (hproper.mem_of_present hkey) hj
    rcases (mapped_table_iff ht).mp hmapped with ⟨items, rfl, hseq, hitems⟩ |
      ⟨members, rfl, hnot, hkeys, hnames, hmembers, hascending⟩
    · have hlen := hseq.length_eq hproper
      by_cases hne : items = []
      · subst hne
        obtain rfl := List.length_eq_zero_iff.mp hlen
        exact .empty ht
      · rw [withObjects_array hne]
        have hne' : entries ≠ [] := by
          rintro rfl
          exact hne (List.length_eq_zero_iff.mp hlen.symm)
        refine .array ht hne' (by rwa [List.length_map]) fun k item hitem => ?_
        rw [List.getElem?_map] at hitem
        obtain ⟨item, hk, rfl⟩ := Option.map_eq_some_iff.mp hitem
        have hlt := (List.getElem?_eq_some_iff.mp hk).1
        exact hvalue _ _ ((hseq _).mpr ⟨k, hlt, rfl⟩) (hitems k item hk)
    · have hne : entries ≠ [] := by
        rintro rfl
        exact hnot 0 fun key => by simp [rawGet, Map.get]
      have hkind : OneKind entries := by
        refine .inl fun e he => ?_
        have hpresent := hproper.present_iff.mpr (List.mem_map_of_mem he)
        obtain ⟨m, hm, heq⟩ := List.mem_map.mp ((hkeys e.1).mpr hpresent)
        rw [← heq, nameText_eq_some.mp (hnames m hm)]
        trivial
      let members' := members.map fun m => (m.1, m.2.1, withObjects m.2.2)
      have hfst : members'.map Prod.fst = members.map Prod.fst := by
        rw [List.map_map]
        rfl
      have hsnd : withObjects (.object (members.map Prod.snd)) =
          .object (members'.map Prod.snd) := by
        rw [withObjects, withObjectsMembers_eq, List.map_map, List.map_map]
        rfl
      rw [hsnd]
      refine .object ht hne hkind hnot (fun key => hfst ▸ hkeys key) ?_ ?_ ?_
      · intro m' hm'
        obtain ⟨m, hm, rfl⟩ := List.mem_map.mp hm'
        exact coerceText_of_nameText (hnames m hm)
      · intro m' hm'
        obtain ⟨m, hm, rfl⟩ := List.mem_map.mp hm'
        exact hvalue _ _ ((hkeys m.1).mp (List.mem_map_of_mem hm)) (hmembers m hm)
      · exact List.pairwise_map.mpr (List.pairwise_map.mpr (List.pairwise_map.mp hascending))

/-- On any value of finite depth the copy in `http` returns what that mapping says, and fails where
it says nothing; and whatever `json` encodes it encodes too, with objects for empty arrays. -/
theorem luaValueToJson_encodes (texts texts' : Texts) (notString : LuaValue → Str) (vm : Vm H)
    (htree : ProperTree h v) :
    ∃ n, ∀ m, n ≤ m → ∃ r, luaValueToJson texts notString vm m v h = some (r, h) ∧
      (∀ j, r = .ok j ↔ Encoded h v j) ∧
        ∀ j k, Json.luaToJson texts' vm k v h = some (.ok j, h) → r = .ok (withObjects j) := by
  obtain ⟨n, r, hr, hgives⟩ := luaValueToJson_gives texts notString vm htree
  refine ⟨n, fun m hm => ⟨r, dialect_approx hm v h _ hr, hgives, fun j k hj => ?_⟩⟩
  exact (hgives _).mpr (encoded_of_mapped htree (mapped_of_luaToJson htree hj).1)

theorem luaValueToJson_encodes_sparse :
    ∃ n, ∀ m, n ≤ m →
      luaValueToJson noTexts (fun _ => []) noCode m (.table 0) (oneKey (.integer 2)) =
        some (.ok (.object [(intText 2, .bool true)]), oneKey (.integer 2)) := by
  obtain ⟨n, hn⟩ :=
    luaValueToJson_encodes noTexts noTexts (fun _ => []) noCode sparse_encodable.properTree
  refine ⟨n, fun m hm => ?_⟩
  obtain ⟨r, hr, hgives, -⟩ := hn m hm
  rw [hr, (hgives (.object [(intText 2, .bool true)])).mpr ?_]
  have hproper : ProperTable (oneEntry (.integer 2)) := oneEntry_proper trivial
  have hkey : ∀ key, rawGet (oneEntry (.integer 2)) key ≠ .nil ↔ key = .integer 2 :=
    fun key => hproper.present_iff.trans (by simp [oneEntry])
  have hnot : ∀ k, ¬Sequence (oneEntry (.integer 2)) k := by
    intro k hseq
    obtain rfl : 1 = k := hseq.length_eq hproper
    obtain ⟨i, hi, heq⟩ := (hseq (.integer 2)).mp ((hkey _).mpr rfl)
    obtain rfl := Nat.lt_one_iff.mp hi
    exact absurd heq (by decide)
  let members : List (LuaValue × Str × JsonValue) := [(.integer 2, intText 2, .bool true)]
  have hencoded : Encoded (oneKey (.integer 2)) (.table 0) (.object (members.map Prod.snd)) := by
    refine .object rfl (List.cons_ne_nil _ _) (.inr (by simp [oneEntry])) hnot (fun key => ?_) ?_ ?_
      (List.pairwise_singleton _ _)
    · rw [hkey]
      simp [members]
    · simp [members, coerceText]
    · intro e he
      obtain rfl := List.mem_singleton.mp he
      exact .scalar rfl
  exact hencoded

end Http

end Luaml
