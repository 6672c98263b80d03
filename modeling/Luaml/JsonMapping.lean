import Luaml.JsonKeys

namespace Luaml

open Rust Serde Lua

namespace Json

open RecM

def nameText : LuaValue → Option Str
  | .string s => some s
  | _ => none

def scalarToJson : LuaValue → Option JsonValue
  | .nil => some .null
  | .boolean b => some (.bool b)
  | .integer i => some (.number (.ofI64 i))
  | .number f => (JsonNumber.fromF64 f).map .number
  | .string s => some (.string s)
  | _ => none

/-- A table maps to a JSON value, when its values do by `P` and its keys have their texts: to an
array if its keys are the first indices, and otherwise to an object with a member for each. -/
def TableMapped (name : LuaValue → Option Str) (entries : List (LuaValue × LuaValue))
    (P : LuaValue → JsonValue → Prop) (j : JsonValue) : Prop :=
  (∃ items, j = .array items ∧ Sequence entries items.length ∧
    ∀ k item, items[k]? = some item → P (rawGet entries (index k)) item) ∨
  ∃ members : List (LuaValue × Str × JsonValue), j = .object (members.map Prod.snd) ∧
    (∀ n, ¬Sequence entries n) ∧
    (∀ key, key ∈ members.map Prod.fst ↔ rawGet entries key ≠ .nil) ∧
    (∀ e ∈ members, name e.1 = some e.2.1) ∧
    (∀ e ∈ members, P (rawGet entries e.1) e.2.2) ∧
    BTreeMap.Ascending Str.cmp (members.map Prod.snd)

variable {H : Type} {texts : Texts} {vm : Vm H} {h : Heap H} {t : Ref}
  {entries : List (LuaValue × LuaValue)} {metatable : Option Ref}
  {convert : LuaValue → RecM H JsonValue} {P : LuaValue → JsonValue → Prop}

theorem nameText_eq_some {key : LuaValue} {s : Str} :
    nameText key = some s ↔ key = .string s := by
  cases key <;> simp [nameText]

theorem not_sequence_of_names (hproper : ProperTable entries) (hne : entries ≠ [])
    (hnames : ∀ e ∈ entries, ∃ s, e.1 = .string s) (n : Nat) : ¬Sequence entries n := by
  intro hseq
  obtain ⟨e, he⟩ := List.exists_mem_of_ne_nil entries hne
  obtain ⟨s, hs⟩ := hnames e he
  obtain ⟨k, -, hk⟩ := (hseq e.1).mp (hproper.present_iff.mpr (List.mem_map_of_mem he))
  rw [hs] at hk
  cases hk

theorem keyShape_of_names (hne : entries ≠ [])
    (hnames : ∀ e ∈ entries, ∃ s, e.1 = .string s) :
    ∃ shape, keyShape texts entries .empty = .ok shape ∧ shape.intCount = 0 ∧
      shape.hasNonInt = true := by
  have hkinds : List.Forall₂ (fun e kind => keyKind texts e.1 = .ok kind) entries
      (entries.map fun _ => none) := by
    rw [List.forall₂_map_right_iff, List.forall₂_same]
    intro e he
    obtain ⟨s, hs⟩ := hnames e he
    rw [hs, keyKind]
  obtain ⟨hcount, hnon⟩ := foldl_add_counts (entries.map fun _ => none) .empty
  refine ⟨_, keyShape_eq_ok.mpr ⟨_, hkinds, rfl⟩, ?_, ?_⟩
  · rw [hcount]
    simp [KeyShape.empty]
  · rw [hnon]
    simp [KeyShape.empty, hne]

theorem tableMapped_of_added (hproper : ProperTable entries) (hne : entries ≠ [])
    {added : List (Str × JsonValue)}
    (hadded : List.Forall₂ (fun e a => e.1 = .string a.1 ∧ P e.2 a.2) entries added) :
    TableMapped nameText entries P (.object (BTreeMap.extend Str.cmp [] added)) := by
  have hkeys : entries.map Prod.fst = added.map fun a => .string a.1 :=
    List.forall₂_eq_eq_eq ▸ List.forall₂_map_left_iff.mpr
      (List.forall₂_map_right_iff.mpr (hadded.imp fun _ _ h => h.1))
  have hnodup : (added.map Prod.fst).Nodup := by
    have hall := hproper.nodup
    rw [hkeys] at hall
    exact List.Nodup.of_map LuaValue.string (by rwa [List.map_map])
  have hperm : (BTreeMap.extend Str.cmp [] added).Perm added := BTreeMap.extend_perm hnodup
  have hentry : ∀ a ∈ added, ∃ e ∈ entries, e.1 = .string a.1 ∧ P e.2 a.2 := fun a ha =>
    Res.exists_of_forall₂ hadded.flip ha
  refine .inr ⟨(BTreeMap.extend Str.cmp [] added).map fun a => (.string a.1, a), ?_, ?_, ?_, ?_, ?_,
    ?_⟩
  · rw [List.map_map, show Prod.snd ∘ (fun a : Str × JsonValue => (LuaValue.string a.1, a)) = id
      from rfl, List.map_id]
  · refine not_sequence_of_names hproper hne fun e he => ?_
    obtain ⟨a, -, ha, -⟩ := Res.exists_of_forall₂ hadded he
    exact ⟨a.1, ha⟩
  · intro key
    rw [hproper.present_iff, hkeys, List.map_map]
    exact (hperm.map _).mem_iff
  · intro e he
    obtain ⟨a, -, rfl⟩ := List.mem_map.mp he
    rfl
  · intro e he
    obtain ⟨a, ha, rfl⟩ := List.mem_map.mp he
    obtain ⟨⟨k, v⟩, hmem, rfl, hP⟩ := hentry a (hperm.mem_iff.mp ha)
    rwa [hproper.rawGet_eq hmem]
  · rw [List.map_map, show Prod.snd ∘ (fun a : Str × JsonValue => (LuaValue.string a.1, a)) = id
      from rfl, List.map_id]
    exact .extend .nil added

theorem added_of_members (hproper : ProperTable entries)
    {members : List (LuaValue × Str × JsonValue)}
    (hkeys : ∀ key, key ∈ members.map Prod.fst ↔ rawGet entries key ≠ .nil)
    (hnames : ∀ e ∈ members, nameText e.1 = some e.2.1)
    (hvalues : ∀ e ∈ members, P (rawGet entries e.1) e.2.2)
    (hascending : BTreeMap.Ascending Str.cmp (members.map Prod.snd)) :
    ∃ added, List.Forall₂ (fun e a => e.1 = .string a.1 ∧ P e.2 a.2) entries added ∧
      members.map Prod.snd = BTreeMap.extend Str.cmp [] added := by
  have hmember : ∀ e ∈ entries, ∃ a ∈ members.map Prod.snd, e.1 = .string a.1 ∧ P e.2 a.2 := by
    rintro ⟨k, v⟩ he
    have hpresent := hproper.present_iff.mpr (List.mem_map_of_mem he)
    obtain ⟨m, hm, rfl⟩ := List.mem_map.mp ((hkeys k).mpr hpresent)
    refine ⟨m.2, List.mem_map_of_mem hm, nameText_eq_some.mp (hnames m hm), ?_⟩
    rw [← hproper.rawGet_eq he]
    exact hvalues m hm
  choose! a ha hkey hP using hmember
  have hnodup : ((entries.map a).map Prod.fst).Nodup := by
    have hkeys : ((entries.map a).map Prod.fst).map LuaValue.string = entries.map Prod.fst := by
      rw [List.map_map, List.map_map]
      exact List.map_congr_left fun e he => (hkey e he).symm
    exact List.Nodup.of_map LuaValue.string (hkeys ▸ hproper.nodup)
  refine ⟨entries.map a, ?_, ?_⟩
  · rw [List.forall₂_map_right_iff, List.forall₂_same]
    exact fun e he => ⟨hkey e he, hP e he⟩
  · have hascending' : BTreeMap.Ascending Str.cmp (BTreeMap.extend Str.cmp [] (entries.map a)) :=
      .extend .nil _
    have hperm : (BTreeMap.extend Str.cmp [] (entries.map a)).Perm (entries.map a) :=
      BTreeMap.extend_perm hnodup
    refine hascending.eq_of_perm hascending' (.trans ?_ hperm.symm)
    refine (List.perm_ext_iff_of_nodup hascending.nodup.of_map hnodup.of_map).mpr fun x => ?_
    constructor
    · intro hx
      obtain ⟨m, hm, rfl⟩ := List.mem_map.mp hx
      have hpresent := (hkeys m.1).mp (List.mem_map_of_mem hm)
      obtain ⟨e, he, heq⟩ := List.mem_map.mp (hproper.present_iff.mp hpresent)
      have hname := nameText_eq_some.mp (hnames m hm)
      rw [← heq, hkey e he] at hname
      have hsame := List.inj_on_of_nodup_map hascending.nodup (ha e he) hx
        (LuaValue.string.inj hname)
      rw [← hsame]
      exact List.mem_map_of_mem he
    · intro hx
      obtain ⟨e, he, rfl⟩ := List.mem_map.mp hx
      exact ha e he

theorem tableMapped_nil {name : LuaValue → Option Str} {j : JsonValue} :
    TableMapped name [] P j ↔ j = .array [] := by
  have hzero : Sequence [] 0 := fun key => by simp [rawGet, Map.get]
  constructor
  · rintro (⟨items, rfl, hseq, -⟩ | ⟨members, -, hnot, -⟩)
    · cases items with
      | nil => rfl
      | cons item items => exact absurd rfl ((hseq (index 0)).mpr ⟨0, Nat.succ_pos _, rfl⟩)
    · exact absurd hzero (hnot 0)
  · rintro rfl
    exact .inl ⟨[], rfl, hzero, by simp⟩

theorem TableMapped.keyShape (texts : Texts) (hproper : ProperTable entries)
    (hne : entries ≠ []) {j : JsonValue} (hmapped : TableMapped nameText entries P j) :
    ∃ shape, Json.keyShape texts entries .empty = .ok shape ∧
      ((shape.hasNonInt = false ∧ shape.intCount = entries.length ∧
          shape.maxInt.toUInt64.toNat = entries.length ∧ Sequence entries entries.length) ∨
        (shape.hasNonInt = true ∧ shape.intCount = 0 ∧ ∀ n, ¬Sequence entries n)) := by
  rcases hmapped with ⟨items, -, hseq, -⟩ | ⟨members, -, hnot, hkeys, hnames, -⟩
  · rw [← hseq.length_eq hproper] at hseq
    obtain ⟨shape, hshape, hnon, hcount, hmax⟩ := keyShape_of_sequence hproper hne hseq
    exact ⟨shape, hshape, .inl ⟨hnon, hcount, hmax, hseq⟩⟩
  · have hstrings : ∀ e ∈ entries, ∃ s, e.1 = .string s := by
      intro e he
      have hpresent := hproper.present_iff.mpr (List.mem_map_of_mem he)
      obtain ⟨m, hm, heq⟩ := List.mem_map.mp ((hkeys e.1).mpr hpresent)
      exact ⟨m.2.1, heq ▸ nameText_eq_some.mp (hnames m hm)⟩
    obtain ⟨shape, hshape, hcount, hnon⟩ := keyShape_of_names hne hstrings
    exact ⟨shape, hshape, .inr ⟨hnon, hcount, hnot⟩⟩

theorem items_give (ht : h[t]? = some (.table entries metatable)) (hproper : ProperTable entries)
    (hseq : Sequence entries entries.length)
    (hconvert : ∀ e ∈ entries, Gives h (convert e.2) (P e.2)) :
    Gives h (encodeItems vm convert t entries.length 1 >>= fun out => pure (.array out))
      (TableMapped nameText entries P) := by
  have hpresent : ∀ k < entries.length, rawGet entries (index k) ≠ .nil := fun k hk =>
    (hseq _).mpr ⟨k, hk, rfl⟩
  have hvalue : ∀ k < entries.length,
      Gives h (convert (rawGet entries (index k))) (P (rawGet entries (index k))) := fun k hk =>
    hconvert _ (hproper.mem_of_present (hpresent k hk))
  refine Gives.congr (.bind (encodeItems_gives ht hpresent hvalue) fun out _ => .pure h _)
    fun j => ?_
  constructor
  · rintro ⟨items, ⟨hlen, hitems⟩, rfl⟩
    exact .inl ⟨items, rfl, hlen ▸ hseq, hitems⟩
  · rintro (⟨items, rfl, hseq', hitems⟩ | ⟨_, _, hnot, _⟩)
    · exact ⟨items, ⟨(hseq'.length_eq hproper).symm, hitems⟩, rfl⟩
    · exact absurd hseq (hnot _)

theorem members_give (hproper : ProperTable entries) (hne : entries ≠ [])
    (hconvert : ∀ e ∈ entries, Gives h (convert e.2) (P e.2))
    (hnot : ∀ j, TableMapped nameText entries P j → ∀ n, ¬Sequence entries n) :
    Gives h (encodeMembers texts convert entries [] >>= fun obj => pure (.object obj))
      (TableMapped nameText entries P) := by
  refine Gives.congr (.bind (encodeMembers_gives hconvert []) fun obj _ => .pure h _) fun j => ?_
  constructor
  · rintro ⟨obj, ⟨added, hadded, rfl⟩, rfl⟩
    exact tableMapped_of_added hproper hne hadded
  · intro hmapped
    rcases id hmapped with ⟨items, rfl, hseq, -⟩ | ⟨members, rfl, -, hkeys, hnames, hvalues, hasc⟩
    · exact absurd hseq (hnot _ hmapped _)
    · obtain ⟨added, hadded, heq⟩ := added_of_members hproper hkeys hnames hvalues hasc
      exact ⟨_, ⟨added, hadded, heq⟩, rfl⟩

theorem luaTableToJson_gives (ht : h[t]? = some (.table entries metatable))
    (hproper : ProperTable entries)
    (hconvert : ∀ e ∈ entries, Gives h (convert e.2) (P e.2)) :
    Gives h (luaTableToJson texts vm convert t) (TableMapped nameText entries P) := by
  have hpairs : (RecM.lift (pairs t) : RecM H _) h = some (.ok entries, h) := by
    rw [RecM.lift, pairs, ht]
  refine .of_ok hpairs ?_
  by_cases hne : entries = []
  · subst hne
    exact .of_ok rfl ((Gives.pure h _).congr fun j => tableMapped_nil.symm)
  have hkeyShape : ∀ j, TableMapped nameText entries P j → _ := fun j hj =>
    hj.keyShape texts hproper hne
  cases hshape : keyShape texts entries .empty with
  | error e =>
    refine .of_error (bind_of_error rfl) fun j hj => ?_
    obtain ⟨shape, hok, -⟩ := hkeyShape j hj
    rw [hshape] at hok
    cases hok
  | ok shape =>
    refine .of_ok rfl ?_
    dsimp only
    rw [if_neg (mt List.length_eq_zero_iff.mp hne)]
    have hcases : ∀ j, TableMapped nameText entries P j →
        (shape.hasNonInt = false ∧ shape.intCount = entries.length ∧
            shape.maxInt.toUInt64.toNat = entries.length ∧ Sequence entries entries.length) ∨
          (shape.hasNonInt = true ∧ shape.intCount = 0 ∧ ∀ n, ¬Sequence entries n) := by
      intro j hj
      obtain ⟨shape', hok, hcases⟩ := hkeyShape j hj
      rw [hshape] at hok
      rwa [Except.ok.inj hok]
    by_cases hmixed : (shape.hasNonInt && decide (0 < shape.intCount)) = true
    · rw [if_pos hmixed]
      refine .of_error rfl fun j hj => ?_
      rw [Bool.and_eq_true, decide_eq_true_eq] at hmixed
      rcases hcases j hj with ⟨hnon, -⟩ | ⟨-, hcount, -⟩
      · rw [hmixed.1] at hnon
        cases hnon
      · rw [hcount] at hmixed
        exact Nat.lt_irrefl 0 hmixed.2
    · rw [if_neg hmixed]
      by_cases harray : (!shape.hasNonInt && shape.intCount == entries.length &&
          shape.maxInt.toUInt64.toNat == entries.length) = true
      · rw [if_pos harray]
        simp only [Bool.and_eq_true, Bool.not_eq_true', beq_iff_eq] at harray
        have hseq := sequence_of_keyShape hproper hshape harray.1.1 harray.2
        exact items_give ht hproper hseq hconvert
      · rw [if_neg harray]
        refine members_give hproper hne hconvert fun j hj => ?_
        rcases hcases j hj with ⟨hnon, hcount, hmax, -⟩ | ⟨-, -, hnot⟩
        · exact absurd (by simp [hnon, hcount, hmax]) harray
        · exact hnot

inductive Tree (P : List (LuaValue × LuaValue) → Option Ref → Prop) (h : Heap H) : LuaValue → Prop
  | leaf {v : LuaValue} : (∀ t, v ≠ .table t) → Tree P h v
  | table {t : Ref} {entries : List (LuaValue × LuaValue)} {metatable : Option Ref} :
    h[t]? = some (.table entries metatable) → P entries metatable →
      (∀ e ∈ entries, Tree P h e.2) → Tree P h (.table t)

abbrev ProperTree (h : Heap H) (v : LuaValue) : Prop :=
  Tree (fun entries _ => ProperTable entries) h v

inductive Mapped (name : LuaValue → Option Str) (h : Heap H) : LuaValue → JsonValue → Prop
  | scalar {v : LuaValue} {j : JsonValue} : scalarToJson v = some j → Mapped name h v j
  | array {t : Ref} {entries : List (LuaValue × LuaValue)} {metatable : Option Ref}
    {items : List JsonValue} :
    h[t]? = some (.table entries metatable) → Sequence entries items.length →
      (∀ k item, items[k]? = some item → Mapped name h (rawGet entries (index k)) item) →
        Mapped name h (.table t) (.array items)
  | object {t : Ref} {entries : List (LuaValue × LuaValue)} {metatable : Option Ref}
    {members : List (LuaValue × Str × JsonValue)} :
    h[t]? = some (.table entries metatable) → (∀ n, ¬Sequence entries n) →
      (∀ key, key ∈ members.map Prod.fst ↔ rawGet entries key ≠ .nil) →
        (∀ e ∈ members, name e.1 = some e.2.1) →
          (∀ e ∈ members, Mapped name h (rawGet entries e.1) e.2.2) →
            BTreeMap.Ascending Str.cmp (members.map Prod.snd) →
              Mapped name h (.table t) (.object (members.map Prod.snd))

theorem mapped_table_iff {name : LuaValue → Option Str}
    (ht : h[t]? = some (.table entries metatable)) {j : JsonValue} :
    Mapped name h (.table t) j ↔ TableMapped name entries (Mapped name h) j := by
  constructor
  · intro hmapped
    cases hmapped with
    | scalar hscalar => cases hscalar
    | array ht' hseq hitems =>
      obtain ⟨rfl, -⟩ := table_unique ht ht'
      exact .inl ⟨_, rfl, hseq, hitems⟩
    | object ht' hnot hkeys hnames hvalues hascending =>
      obtain ⟨rfl, -⟩ := table_unique ht ht'
      exact .inr ⟨_, rfl, hnot, hkeys, hnames, hvalues, hascending⟩
  · rintro (⟨items, rfl, hseq, hitems⟩ | ⟨members, rfl, hnot, hkeys, hnames, hvalues, hasc⟩)
    · exact .array ht hseq hitems
    · exact .object ht hnot hkeys hnames hvalues hasc

theorem mapped_scalar_iff {name : LuaValue → Option Str} {v : LuaValue} (hv : ∀ t, v ≠ .table t)
    {j : JsonValue} : Mapped name h v j ↔ scalarToJson v = some j := by
  constructor
  · intro hmapped
    cases hmapped with
    | scalar hscalar => exact hscalar
    | array | object => exact absurd rfl (hv _)
  · exact .scalar

theorem luaToJson_scalar {v : LuaValue} (hv : ∀ t, v ≠ .table t) :
    Gives h (luaToJson texts vm 1 v) fun j => scalarToJson v = some j := by
  cases v with
  | table t => exact absurd rfl (hv t)
  | number f =>
    rw [luaToJson, scalarToJson]
    cases JsonNumber.fromF64 f with
    | none => exact .of_error rfl fun j hj => by cases hj
    | some n => exact (Gives.pure h _).congr fun j => by simp [eq_comm]
  | nil | boolean b | integer i | string s =>
    exact (Gives.pure h _).congr fun j => by simp [scalarToJson, eq_comm]
  | _ => exact .of_error rfl fun j hj => by cases hj

theorem exists_depth {Q : Nat → LuaValue → Prop} (hmono : ∀ n m v, n ≤ m → Q n v → Q m v)
    (hall : ∀ e ∈ entries, ∃ n, Q n e.2) : ∃ n, ∀ e ∈ entries, Q n e.2 := by
  induction entries with
  | nil => exact ⟨0, by simp⟩
  | cons e entries ih =>
    rw [List.forall_mem_cons] at hall
    obtain ⟨⟨n, hn⟩, hrest⟩ := hall
    obtain ⟨m, hm⟩ := ih hrest
    refine ⟨max n m, List.forall_mem_cons.mpr ⟨?_, fun e he => ?_⟩⟩
    · exact hmono n _ _ (Nat.le_max_left n m) hn
    · exact hmono m _ _ (Nat.le_max_right n m) (hm e he)

theorem luaToJson_gives (texts : Texts) (vm : Vm H) {v : LuaValue} (htree : ProperTree h v) :
    ∃ n, Gives h (luaToJson texts vm n v) (Mapped nameText h v) := by
  induction htree with
  | leaf hv => exact ⟨1, (luaToJson_scalar hv).congr fun j => (mapped_scalar_iff hv).symm⟩
  | table ht hproper _ ih =>
    have hmono : ∀ n m v, n ≤ m → Gives h (luaToJson texts vm n v) (Mapped nameText h v) →
        Gives h (luaToJson texts vm m v) (Mapped nameText h v) :=
      fun n m v hnm hgives => hgives.mono (luaToJson_approx hnm v)
    obtain ⟨n, hn⟩ := exists_depth hmono ih
    refine ⟨n + 1, Gives.congr ?_ fun j => (mapped_table_iff ht).symm⟩
    exact luaTableToJson_gives ht hproper hn

theorem luaToJson_unique {v : LuaValue} {h : Heap H} {n m : Nat}
    {r r' : Except Str JsonValue × Heap H} (hr : luaToJson texts vm n v h = some r)
    (hr' : luaToJson texts vm m v h = some r') : r = r' :=
  Option.some.inj ((luaToJson_approx (Nat.le_max_left n m) v h _ hr).symm.trans
    (luaToJson_approx (Nat.le_max_right n m) v h _ hr'))

theorem mapped_of_luaToJson {v : LuaValue} (htree : ProperTree h v) {n : Nat} {j : JsonValue}
    {h' : Heap H} (hj : luaToJson texts vm n v h = some (.ok j, h')) :
    Mapped nameText h v j ∧ h' = h := by
  obtain ⟨m, r, hr, hgives⟩ := luaToJson_gives texts vm htree
  obtain ⟨rfl, rfl⟩ := Prod.mk.inj (luaToJson_unique hr hj)
  exact ⟨(hgives j).mp rfl, rfl⟩

end Json

end Luaml
