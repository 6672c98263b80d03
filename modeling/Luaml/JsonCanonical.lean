import Luaml.JsonTables

namespace Luaml

open Rust Serde Lua

namespace Json

open RecM

mutual
theorem canonicalize_ascends (j : JsonValue) : (canonicalize j).Ascends := by
  cases j with
  | array arr => exact ⟨trivial, canonicalizeItems_ascend arr⟩
  | object obj =>
    refine ⟨.extend .nil _, JsonValue.everyMember_iff.mpr ?_⟩
    refine BTreeMap.forall_extend (by simp) fun e he => ?_
    rw [sortMembers, List.mem_insertionSort] at he
    exact JsonValue.everyMember_iff.mp (canonicalizeMembers_ascend obj) e he
  | _ => trivial

theorem canonicalizeItems_ascend (arr : List JsonValue) :
    JsonValue.EveryItem (fun _ => True) (BTreeMap.Ascending Str.cmp) (canonicalizeItems arr) := by
  cases arr with
  | nil => trivial
  | cons v arr => exact ⟨canonicalize_ascends v, canonicalizeItems_ascend arr⟩

theorem canonicalizeMembers_ascend (obj : List (Str × JsonValue)) :
    JsonValue.EveryMember (fun _ => True) (BTreeMap.Ascending Str.cmp)
      (canonicalizeMembers obj) := by
  cases obj with
  | nil => trivial
  | cons e obj => exact ⟨canonicalize_ascends e.2, canonicalizeMembers_ascend obj⟩
end

theorem sortMembers_of_ascending {obj : List (Str × JsonValue)}
    (hobj : BTreeMap.Ascending Str.cmp obj) : sortMembers obj = obj := by
  refine List.Pairwise.insertionSort_eq (hobj.imp fun hlt => ?_)
  rw [Str.le, hlt]
  rfl

mutual
theorem canonicalize_of_ascends (j : JsonValue) (hj : j.Ascends) : canonicalize j = j := by
  cases j with
  | array arr => rw [canonicalize, canonicalizeItems_of_ascend arr hj.2]
  | object obj =>
    rw [canonicalize, canonicalizeMembers_of_ascend obj hj.2, sortMembers_of_ascending hj.1,
      BTreeMap.extend_of_ascending hj.1, List.nil_append]
  | _ => rfl

theorem canonicalizeItems_of_ascend (arr : List JsonValue)
    (harr : JsonValue.EveryItem (fun _ => True) (BTreeMap.Ascending Str.cmp) arr) :
    canonicalizeItems arr = arr := by
  cases arr with
  | nil => rfl
  | cons v arr =>
    rw [canonicalizeItems, canonicalize_of_ascends v harr.1, canonicalizeItems_of_ascend arr harr.2]

theorem canonicalizeMembers_of_ascend (obj : List (Str × JsonValue))
    (hobj : JsonValue.EveryMember (fun _ => True) (BTreeMap.Ascending Str.cmp) obj) :
    canonicalizeMembers obj = obj := by
  cases obj with
  | nil => rfl
  | cons e obj =>
    rw [canonicalizeMembers, canonicalize_of_ascends e.2 hobj.1,
      canonicalizeMembers_of_ascend obj hobj.2]
end

theorem canonicalizeItems_eq_map (arr : List JsonValue) :
    canonicalizeItems arr = arr.map canonicalize := by
  induction arr with
  | nil => rfl
  | cons v arr ih => rw [canonicalizeItems, ih, List.map_cons]

section

variable {H : Type} {texts : Texts} {vm : Vm H} {h h' : Heap H} {t : Ref}
  {entries : List (LuaValue × LuaValue)} {metatable : Option Ref}

theorem luaTableToJson_ensures {convert : LuaValue → RecM H JsonValue} {Q : LuaValue → Prop}
    (ht : h[t]? = some (.table entries metatable)) (hproper : ProperTable entries)
    (hconvert : ∀ e ∈ entries, Ensures h (convert e.2) fun _ => Q e.2) :
    Ensures h (luaTableToJson texts vm convert t) fun _ => ∀ e ∈ entries, Q e.2 := by
  have hpairs : pairs t h = (.ok entries, h) := by rw [pairs, ht]
  refine .bind (Gives.lift hpairs).ensures fun all hall => ?_
  obtain rfl := hall.symm
  refine .bind (Gives.ofExcept h _).ensures fun shape hshape => ?_
  dsimp only
  split_ifs with hempty hmixed harray
  · rw [List.length_eq_zero_iff.mp hempty]
    exact .pure (by simp)
  · intro j h' hj
    cases hj
  · simp only [Bool.and_eq_true, Bool.not_eq_true', beq_iff_eq] at harray
    have hseq := sequence_of_keyShape hproper hshape harray.1.1 harray.2
    have hpresent : ∀ k < entries.length, rawGet entries (index k) ≠ .nil := fun k hk =>
      (hseq _).mpr ⟨k, hk, rfl⟩
    refine .bind (encodeItems_ensures ht hpresent fun k hk =>
      hconvert _ (hproper.mem_of_present (hpresent k hk))) fun out hall => .pure fun e he => ?_
    obtain ⟨k, hk, hkey⟩ := (hseq e.1).mp (hproper.present_iff.mpr (List.mem_map_of_mem he))
    rw [← hproper.rawGet_eq he, hkey]
    exact hall k hk
  · exact .bind (encodeMembers_ensures hconvert []) fun obj hall => .pure hall

/-- One level of the same content: the same value, or tables as Lua has them whose values at each
key are related. -/
inductive SameLevel (R : LuaValue → LuaValue → Prop) (h h' : Heap H) : LuaValue → LuaValue → Prop
  | scalar {v : LuaValue} : (∀ t, v ≠ .table t) → SameLevel R h h' v v
  | table {t t' : Ref} {entries entries' : List (LuaValue × LuaValue)}
    {metatable metatable' : Option Ref} :
    h[t]? = some (.table entries metatable) → h'[t']? = some (.table entries' metatable') →
      ProperTable entries → ProperTable entries' →
        (∀ key, R (rawGet entries key) (rawGet entries' key)) →
          SameLevel R h h' (.table t) (.table t')

def SameContent (h h' : Heap H) (v v' : LuaValue) : Prop :=
  ∃ R : LuaValue → LuaValue → Prop, (∀ v v', R v v' → SameLevel R h h' v v') ∧ R v v'

variable {v v' : LuaValue} {j : JsonValue} {name : LuaValue → Option Str}

theorem SameContent.level (hsame : SameContent h h' v v') :
    SameLevel (SameContent h h') h h' v v' := by
  obtain ⟨R, hR, hv⟩ := hsame
  cases hR v v' hv with
  | scalar hscalar => exact .scalar hscalar
  | table ht ht' hproper hproper' hall =>
    exact .table ht ht' hproper hproper' fun key => ⟨R, hR, hall key⟩

theorem SameContent.symm (hsame : SameContent h h' v v') : SameContent h' h v' v := by
  obtain ⟨R, hR, hv⟩ := hsame
  refine ⟨fun v' v => R v v', fun v' v hv => ?_, hv⟩
  cases hR v v' hv with
  | scalar hscalar => exact .scalar hscalar
  | table ht ht' hproper hproper' hall => exact .table ht' ht hproper' hproper hall

theorem SameContent.nil_iff (hsame : SameContent h h' v v') : v = .nil ↔ v' = .nil := by
  cases hsame.level with
  | scalar _ => exact Iff.rfl
  | table => simp

theorem SameContent.ensures (hsame : SameContent h h' v v') (n : Nat) :
    Ensures h (luaToJson texts vm n v) fun _ => ProperTree h v := by
  induction n generalizing v v' with
  | zero =>
    intro j h₁ hj
    cases hj
  | succ n ih =>
    cases hsame.level with
    | scalar hv =>
      obtain ⟨m, hgives⟩ := luaToJson_gives texts vm (.leaf hv : ProperTree h v)
      intro j h₁ hj
      obtain ⟨r, hr, -⟩ := hgives
      cases luaToJson_unique hr hj
      exact ⟨rfl, .leaf hv⟩
    | table ht _ hproper _ hall =>
      intro j h₁ hj
      obtain ⟨rfl, htrees⟩ := luaTableToJson_ensures ht hproper
        (fun e he => ih (hproper.rawGet_eq he ▸ hall e.1)) j h₁ hj
      exact ⟨rfl, .table ht hproper htrees⟩

theorem ProperTree.same (htree : ProperTree h v) (hsame : SameContent h h' v v') :
    ProperTree h' v' := by
  induction htree generalizing v' with
  | leaf hv =>
    cases hsame.level with
    | scalar _ => exact .leaf hv
    | table => exact absurd rfl (hv _)
  | table ht₀ _ _ ih =>
    cases hsame.level with
    | scalar hv => exact absurd rfl (hv _)
    | table ht ht' hproper hproper' hall =>
      obtain ⟨rfl, -⟩ := table_unique ht ht₀
      refine .table ht' hproper' fun e he => ?_
      have hvalue := hall e.1
      rw [hproper'.rawGet_eq he] at hvalue
      exact ih _ (hproper.mem_of_present (mt hvalue.nil_iff.mp (hproper'.present e he))) hvalue

theorem Mapped.same (hmapped : Mapped name h v j) (hsame : SameContent h h' v v') :
    Mapped name h' v' j := by
  induction hmapped generalizing v' with
  | scalar hscalar =>
    cases hsame.level with
    | scalar _ => exact .scalar hscalar
    | table => cases hscalar
  | array ht₀ hseq _ ih =>
    cases hsame.level with
    | scalar hv => exact absurd rfl (hv _)
    | table ht ht' _ _ hall =>
      obtain ⟨rfl, -⟩ := table_unique ht ht₀
      refine .array ht' (fun key => ?_) fun k item hk => ih k item hk (hall (index k))
      rw [Ne, ← (hall key).nil_iff]
      exact hseq key
  | object ht₀ hnot hkeys hnames _ hascending ih =>
    cases hsame.level with
    | scalar hv => exact absurd rfl (hv _)
    | table ht ht' _ _ hall =>
      obtain ⟨rfl, -⟩ := table_unique ht ht₀
      refine .object ht' (fun n hseq => hnot n fun key => ?_) (fun key => ?_) hnames
        (fun e he => ih e he (hall e.1)) hascending
      · rw [Ne, (hall key).nil_iff]
        exact hseq key
      · rw [hkeys key, Ne, (hall key).nil_iff]

theorem SameContent.encodes_iff (texts : Texts) (vm : Vm H) (hsame : SameContent h h' v v') :
    (∃ n h₁, luaToJson texts vm n v h = some (.ok j, h₁)) ↔
      ProperTree h v ∧ Mapped nameText h v j := by
  constructor
  · rintro ⟨n, h₁, hj⟩
    obtain ⟨rfl, htree⟩ := hsame.ensures n j h₁ hj
    exact ⟨htree, (mapped_of_luaToJson htree hj).1⟩
  · rintro ⟨htree, hmapped⟩
    obtain ⟨n, r, hr, hgives⟩ := luaToJson_gives texts vm htree
    obtain rfl := (hgives j).mpr hmapped
    exact ⟨n, h, hr⟩

theorem SameContent.encodes (texts : Texts) (vm : Vm H) (hsame : SameContent h h' v v')
    (hj : ∃ n h₁, luaToJson texts vm n v h = some (.ok j, h₁)) :
    ∃ n h₁, luaToJson texts vm n v' h' = some (.ok j, h₁) := by
  obtain ⟨htree, hmapped⟩ := (hsame.encodes_iff texts vm).mp hj
  exact (hsame.symm.encodes_iff texts vm).mpr ⟨htree.same hsame, hmapped.same hsame⟩

theorem encodeCanonical_eq_ok {n : Nat} :
    encodeCanonical texts vm n v h = some (.ok j, h') ↔
      ∃ json, luaToJson texts vm n v h = some (.ok json, h') ∧ j = canonicalize json := by
  constructor
  · intro hj
    change RecM.bind (luaToJson texts vm n v) _ h = _ at hj
    rw [RecM.bind] at hj
    split at hj
    · cases hj
    · rename_i json h₁ hjson
      cases hj
      exact ⟨json, hjson, rfl⟩
    · cases hj
  · rintro ⟨json, hjson, rfl⟩
    exact bind_of_ok hjson

theorem SameContent.canonical (texts : Texts) (vm : Vm H) (hsame : SameContent h h' v v')
    (hj : ∃ n h₁, encodeCanonical texts vm n v h = some (.ok j, h₁)) :
    ∃ n h₁, encodeCanonical texts vm n v' h' = some (.ok j, h₁) := by
  obtain ⟨n, h₁, hj⟩ := hj
  obtain ⟨json, hjson, rfl⟩ := encodeCanonical_eq_ok.mp hj
  obtain ⟨m, h₂, hjson'⟩ := hsame.encodes texts vm ⟨n, h₁, hjson⟩
  exact ⟨m, h₂, encodeCanonical_eq_ok.mpr ⟨json, hjson', rfl⟩⟩

/-- `json.encode_canonical` builds one tree for all values of one content, whatever order their
entries are in. Its objects ascend by key at every level and its arrays are in order; what is
canonical is left as it is, as is every value whose objects ascend, as those in memory do. -/
theorem encodeCanonical_same (texts : Texts) (vm : Vm H) (hsame : SameContent h h' v v') :
    (∀ j, (∃ n h₁, encodeCanonical texts vm n v h = some (.ok j, h₁)) ↔
      ∃ n h₁, encodeCanonical texts vm n v' h' = some (.ok j, h₁)) ∧
    (∀ n j h₁, encodeCanonical texts vm n v h = some (.ok j, h₁) → j.Ascends) ∧
    (∀ arr, canonicalize (.array arr) = .array (arr.map canonicalize)) ∧
    (∀ j, canonicalize (canonicalize j) = canonicalize j) ∧
    ∀ j, j.Ascends → canonicalize j = j := by
  refine ⟨fun j => ⟨hsame.canonical texts vm, hsame.symm.canonical texts vm⟩, fun n j h₁ hj => ?_,
    fun arr => ?_, fun j => ?_, canonicalize_of_ascends⟩
  · obtain ⟨json, -, rfl⟩ := encodeCanonical_eq_ok.mp hj
    exact canonicalize_ascends json
  · rw [canonicalize, canonicalizeItems_eq_map]
  · exact canonicalize_of_ascends _ (canonicalize_ascends j)

theorem ProperTable.perm {entries' : List (LuaValue × LuaValue)} (hproper : ProperTable entries)
    (hperm : entries.Perm entries') : ProperTable entries' where
  nodup := (hperm.map Prod.fst).nodup_iff.mp hproper.nodup
  present e he := hproper.present e (hperm.mem_iff.mpr he)
  normal e he := hproper.normal e (hperm.mem_iff.mpr he)
  length_lt := hperm.length_eq ▸ hproper.length_lt

theorem ProperTable.rawGet_perm {entries' : List (LuaValue × LuaValue)}
    (hproper : ProperTable entries) (hperm : entries.Perm entries') (key : LuaValue) :
    rawGet entries' key = rawGet entries key := by
  have hproper' := hproper.perm hperm
  by_cases hkey : rawGet entries key = .nil
  · have hkeys := (hperm.map Prod.fst).mem_iff (a := key)
    rw [hkey, ← not_not (a := rawGet entries' key = .nil), ← Ne, hproper'.present_iff, ← hkeys,
      ← hproper.present_iff]
    exact not_not.mpr hkey
  · exact hproper'.rawGet_eq (hperm.mem_iff.mp (hproper.mem_of_present hkey))

theorem SameContent.of_perm {S : Ref → Prop}
    (hS : ∀ t, S t → ∃ entries entries' metatable metatable',
      h[t]? = some (.table entries metatable) ∧ h'[t]? = some (.table entries' metatable') ∧
        ProperTable entries ∧ entries.Perm entries' ∧ ∀ e ∈ entries, ∀ r, e.2 = .table r → S r)
    (ht : S t) : SameContent h h' (.table t) (.table t) := by
  refine ⟨fun v v' => v = v' ∧ ∀ r, v = .table r → S r, ?_, rfl, fun r hr => ?_⟩
  · rintro v _ ⟨rfl, hv⟩
    cases v with
    | table r =>
      obtain ⟨entries, entries', metatable, metatable', hr, hr', hproper, hperm, hbelow⟩ :=
        hS r (hv r rfl)
      refine .table hr hr' hproper (hproper.perm hperm) fun key =>
        ⟨(hproper.rawGet_perm hperm key).symm, fun r' hr' => ?_⟩
      have hpresent : rawGet entries key ≠ .nil := by simp [hr']
      exact hbelow _ (hproper.mem_of_present hpresent) r' hr'
    | _ => exact .scalar fun r hr => by cases hr
  · obtain rfl := LuaValue.table.inj hr
    exact ht

end

def twoKeys : List (LuaValue × LuaValue) :=
  [(.string ['b'], .boolean true), (.string ['a'], .integer 1)]

theorem twoKeys_proper : ProperTable twoKeys where
  nodup := by decide
  present := by simp [twoKeys]
  normal := by simp [twoKeys, NormalKey]
  length_lt := by decide

theorem twoKeys_same : SameContent (H := Unit) [.table twoKeys none] [.table twoKeys.reverse none]
    (.table 0) (.table 0) := by
  refine .of_perm (S := fun r => r = 0) ?_ rfl
  rintro _ rfl
  refine ⟨_, _, none, none, rfl, rfl, twoKeys_proper, (List.reverse_perm _).symm, ?_⟩
  simp [twoKeys]

theorem twoKeys_canonical :
    ∃ n h₁, encodeCanonical noTexts noCode n (.table 0) [.table twoKeys.reverse none] =
      some (.ok (.object [(['a'], .number (.posInt 1)), (['b'], .bool true)]), h₁) :=
  ((encodeCanonical_same noTexts noCode twoKeys_same).1 _).mp ⟨2, _, rfl⟩

end Json

end Luaml
