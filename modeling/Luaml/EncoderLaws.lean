import Luaml.Encoders

namespace Luaml

open Rust Serde Lua

namespace Json

open RecM

inductive KeyOf : LuaValue → Option Int64 → Prop
  | index {i : Int64} : 1 ≤ i → KeyOf (.integer i) (some i)
  | string (s : Str) : KeyOf (.string s) none
  | bytes (b : NotUtf8) : KeyOf (.bytes b) none

def OneKind (entries : List (LuaValue × LuaValue)) : Prop :=
  (∀ e ∈ entries, StringKey e.1) ∨ ∀ e ∈ entries, ∃ i, e.1 = .integer i ∧ 1 ≤ i

/-- The copy tells keys apart as the others do, and has one text for each key of a kind. -/
structure Dialect.Lawful (d : Dialect) (name : LuaValue → Option Str) : Prop where
  keyKind_iff : ∀ key kind, d.keyKind key = .ok kind ↔ KeyOf key kind
  objectKey_iff : ∀ key kind s, KeyOf key kind → (d.objectKey key = .ok s ↔ name key = some s)
  name_inj : ∀ entries, OneKind entries → ∀ e ∈ entries, ∀ e' ∈ entries, ∀ s,
    name e.1 = some s → name e'.1 = some s → e.1 = e'.1

variable {H : Type} {d : Dialect} {name : LuaValue → Option Str} {vm : Vm H} {h : Heap H} {t : Ref}
  {entries : List (LuaValue × LuaValue)} {metatable : Option Ref}
  {convert : LuaValue → RecM H JsonValue} {P : LuaValue → JsonValue → Prop}

theorem KeyOf.keyKind {key : LuaValue} {kind : Option Int64} (hkey : KeyOf key kind)
    (texts : Texts) : Json.keyKind texts key = .ok kind := by
  cases hkey with
  | index hi => rw [Json.keyKind, if_pos hi]
  | string s => rfl
  | bytes b => rfl

theorem KeyOf.stringKey_iff {key : LuaValue} {kind : Option Int64} (hkey : KeyOf key kind) :
    StringKey key ↔ kind = none := by
  cases hkey <;> simp [StringKey]

theorem KeyOf.integer_iff {key : LuaValue} {kind : Option Int64} (hkey : KeyOf key kind) :
    (∃ i, key = .integer i ∧ 1 ≤ i) ↔ kind.isSome = true := by
  cases hkey with
  | index hi => simpa using hi
  | string s => simp
  | bytes b => simp

theorem dialect_keyShape_eq_ok (hd : d.Lawful name) {shape shape' : KeyShape} :
    d.keyShape entries shape = .ok shape' ↔ ∃ kinds,
      List.Forall₂ (fun e kind => KeyOf e.1 kind) entries kinds ∧
        shape' = kinds.foldl KeyShape.add shape := by
  induction entries generalizing shape with
  | nil =>
    constructor
    · intro h
      exact ⟨[], .nil, (Except.ok.inj h).symm⟩
    · rintro ⟨kinds, hkinds, rfl⟩
      cases hkinds
      rfl
  | cons e entries ih =>
    obtain ⟨k, v⟩ := e
    rw [Dialect.keyShape]
    cases hkind : d.keyKind k with
    | error message =>
      constructor
      · intro h
        cases h
      · rintro ⟨kinds, hkinds, -⟩
        cases hkinds with
        | cons hfirst _ => cases hkind.symm.trans ((hd.keyKind_iff _ _).mpr hfirst)
    | ok kind =>
      have hstep : (Except.ok kind >>= fun kind => d.keyShape entries (shape.add kind)) =
          d.keyShape entries (shape.add kind) := rfl
      rw [hstep, ih]
      constructor
      · rintro ⟨kinds, hkinds, hshape⟩
        exact ⟨kind :: kinds, .cons ((hd.keyKind_iff _ _).mp hkind) hkinds, hshape⟩
      · rintro ⟨all, hall, hshape⟩
        cases hall with
        | @cons _ kind' _ kinds hfirst hkinds =>
          cases hkind.symm.trans ((hd.keyKind_iff _ _).mpr hfirst)
          exact ⟨kinds, hkinds, hshape⟩

theorem exists_keyShape (hd : d.Lawful name) (hkind : OneKind entries) :
    ∃ shape, d.keyShape entries .empty = .ok shape := by
  have hkeys : ∀ e ∈ entries, ∃ kind, KeyOf e.1 kind := by
    intro e he
    rcases hkind with hstrings | hintegers
    · have hstring := hstrings e he
      cases hkey : e.1 with
      | string s => exact ⟨_, .string s⟩
      | bytes b => exact ⟨_, .bytes b⟩
      | _ =>
        rw [hkey] at hstring
        exact hstring.elim
    · obtain ⟨i, hi, hpos⟩ := hintegers e he
      exact ⟨some i, hi ▸ .index hpos⟩
  choose! kind hkind using hkeys
  refine ⟨_, (dialect_keyShape_eq_ok hd).mpr ⟨entries.map kind, ?_, rfl⟩⟩
  rw [List.forall₂_map_right_iff, List.forall₂_same]
  exact hkind

theorem forall_iff_of_forall₂ {α β : Type} {R : α → β → Prop} {p : α → Prop} {q : β → Prop}
    {as : List α} {bs : List β} (hall : List.Forall₂ R as bs) (hR : ∀ a b, R a b → (p a ↔ q b)) :
    (∀ a ∈ as, p a) ↔ ∀ b ∈ bs, q b := by
  induction hall with
  | nil => simp
  | cons hfirst _ ih => rw [List.forall_mem_cons, List.forall_mem_cons, hR _ _ hfirst, ih]

theorem oneKind_iff_of_kinds {kinds : List (Option Int64)}
    (hkinds : List.Forall₂ (fun e kind => KeyOf e.1 kind) entries kinds) :
    OneKind entries ↔ (∀ kind ∈ kinds, kind = none) ∨ ∀ kind ∈ kinds, kind.isSome = true :=
  or_congr (forall_iff_of_forall₂ hkinds fun _ _ hkey => hkey.stringKey_iff)
    (forall_iff_of_forall₂ hkinds fun _ _ hkey => hkey.integer_iff)

/-- What the first pass has found where it does not fail: as `lua_to_json` would, and whether the
keys are all of one kind. -/
structure Shaped (entries : List (LuaValue × LuaValue)) (shape : KeyShape) : Prop where
  keyShape : Json.keyShape noTexts entries .empty = .ok shape
  keyOf : ∀ e ∈ entries, ∃ kind, KeyOf e.1 kind
  oneKind_iff : OneKind entries ↔
    ¬(shape.hasNonInt && decide (0 < shape.intCount)) = true

theorem shaped_of_keyShape (hd : d.Lawful name) {shape : KeyShape}
    (hshape : d.keyShape entries .empty = .ok shape) : Shaped entries shape := by
  obtain ⟨kinds, hkinds, rfl⟩ := (dialect_keyShape_eq_ok hd).mp hshape
  obtain ⟨hcount, hnon⟩ := foldl_add_counts kinds .empty
  refine ⟨keyShape_eq_ok.mpr ⟨kinds, hkinds.imp fun _ _ hkey => hkey.keyKind _, rfl⟩,
    fun e he => ?_, ?_⟩
  · obtain ⟨kind, -, hkind⟩ := Res.exists_of_forall₂ hkinds he
    exact ⟨kind, hkind⟩
  · have hnone : (∀ kind ∈ kinds, kind = none) ↔ kinds.countP Option.isSome = 0 := by
      simp [List.countP_eq_zero]
    have hsome : (∀ kind ∈ kinds, kind.isSome = true) ↔ kinds.any Option.isNone = false := by
      simp [List.any_eq_false, Option.isSome_iff_ne_none]
    rw [hcount, hnon, oneKind_iff_of_kinds hkinds, hnone, hsome]
    rw [KeyShape.empty, Bool.false_or, Nat.zero_add, Bool.and_eq_true, decide_eq_true_eq, not_and,
      Nat.not_lt, Nat.le_zero, or_comm, ← Bool.not_eq_true]
    exact Decidable.imp_iff_not_or.symm

theorem dialect_encodeMembers_gives (hd : d.Lawful name) {pairs : List (LuaValue × LuaValue)}
    (hkeys : ∀ e ∈ pairs, ∃ kind, KeyOf e.1 kind)
    (hconvert : ∀ e ∈ pairs, Gives h (convert e.2) (P e.2)) (obj : List (Str × JsonValue)) :
    Gives h (d.encodeMembers convert pairs obj) fun obj' => ∃ added,
      List.Forall₂ (fun e a => name e.1 = some a.1 ∧ P e.2 a.2) pairs added ∧
        obj' = BTreeMap.extend Str.cmp obj added := by
  induction pairs generalizing obj with
  | nil =>
    refine (Gives.pure h obj).congr fun obj' => ?_
    constructor
    · rintro rfl
      exact ⟨[], .nil, rfl⟩
    · rintro ⟨added, hadded, rfl⟩
      cases hadded
      rfl
  | cons e pairs ih =>
    obtain ⟨k, v⟩ := e
    rw [List.forall_mem_cons] at hconvert hkeys
    obtain ⟨kind, hkind⟩ := hkeys.1
    have hkey : ∀ s, d.objectKey k = .ok s ↔ name k = some s := fun s =>
      hd.objectKey_iff k kind s hkind
    refine Gives.congr (.bind (.ofExcept h (d.objectKey k)) fun key _ =>
      .bind hconvert.1 fun value _ => ih hkeys.2 hconvert.2 _) fun obj' => ?_
    constructor
    · rintro ⟨key, hk, value, hvalue, added, hadded, rfl⟩
      exact ⟨(key, value) :: added, .cons ⟨(hkey key).mp hk, hvalue⟩ hadded, rfl⟩
    · rintro ⟨all, hall, rfl⟩
      cases hall with
      | @cons _ a _ added hfirst hadded =>
        exact ⟨a.1, (hkey a.1).mpr hfirst.1, a.2, hfirst.2, added, hadded, rfl⟩

def Distinct (name : LuaValue → Option Str) (entries : List (LuaValue × LuaValue)) : Prop :=
  ∀ e ∈ entries, ∀ e' ∈ entries, ∀ s, name e.1 = some s → name e'.1 = some s → e.1 = e'.1

theorem added_nodup (hproper : ProperTable entries) (hdistinct : Distinct name entries)
    {added : List (Str × JsonValue)}
    (hadded : List.Forall₂ (fun e a => name e.1 = some a.1 ∧ P e.2 a.2) entries added) :
    (added.map Prod.fst).Nodup := by
  have hnames : entries.map (fun e => name e.1) = (added.map Prod.fst).map some := by
    rw [List.map_map]
    exact List.forall₂_eq_eq_eq ▸ List.forall₂_map_left_iff.mpr
      (List.forall₂_map_right_iff.mpr (hadded.imp fun _ _ h => h.1))
  refine List.Nodup.of_map some (hnames ▸ ?_)
  refine List.Nodup.map_on (fun e he e' he' heq => ?_) hproper.nodup.of_map
  obtain ⟨a, -, ha, -⟩ := Res.exists_of_forall₂ hadded he
  have hkey := hdistinct e he e' he' a.1 ha (heq ▸ ha)
  exact List.inj_on_of_nodup_map hproper.nodup he he' hkey

theorem tableMapped_of_named (hproper : ProperTable entries) (hdistinct : Distinct name entries)
    (hnot : ∀ n, ¬Sequence entries n) {added : List (Str × JsonValue)}
    (hadded : List.Forall₂ (fun e a => name e.1 = some a.1 ∧ P e.2 a.2) entries added) :
    TableMapped name entries P (.object (BTreeMap.extend Str.cmp [] added)) := by
  have hperm : (BTreeMap.extend Str.cmp [] added).Perm added :=
    BTreeMap.extend_perm (added_nodup hproper hdistinct hadded)
  have hentry : ∀ a ∈ added, ∃ e ∈ entries, name e.1 = some a.1 ∧ P e.2 a.2 := fun a ha =>
    Res.exists_of_forall₂ hadded.flip ha
  have hnonempty : Nonempty (LuaValue × LuaValue) := ⟨(.nil, .nil)⟩
  choose! entry hentry hname hP using hentry
  have hsnd : ((BTreeMap.extend Str.cmp [] added).map fun a => ((entry a).1, a)).map Prod.snd =
      BTreeMap.extend Str.cmp [] added := by
    rw [List.map_map]
    exact List.map_id _
  refine .inr ⟨(BTreeMap.extend Str.cmp [] added).map fun a => ((entry a).1, a), ?_, hnot, ?_, ?_,
    ?_, ?_⟩
  · rw [hsnd]
  · intro key
    rw [hproper.present_iff, List.map_map]
    constructor
    · intro hkey
      obtain ⟨a, ha, rfl⟩ := List.mem_map.mp hkey
      exact List.mem_map_of_mem (hentry a (hperm.mem_iff.mp ha))
    · intro hkey
      obtain ⟨e, he, rfl⟩ := List.mem_map.mp hkey
      obtain ⟨a, ha, hea, -⟩ := Res.exists_of_forall₂ hadded he
      refine List.mem_map.mpr ⟨a, hperm.mem_iff.mpr ha, ?_⟩
      exact hdistinct _ (hentry a ha) e he a.1 (hname a ha) hea
  · intro m hm
    obtain ⟨a, ha, rfl⟩ := List.mem_map.mp hm
    exact hname a (hperm.mem_iff.mp ha)
  · intro m hm
    obtain ⟨a, ha, rfl⟩ := List.mem_map.mp hm
    have hmem := hperm.mem_iff.mp ha
    change P (rawGet entries (entry a).1) a.2
    rw [hproper.rawGet_eq (hentry a hmem)]
    exact hP a hmem
  · rw [hsnd]
    exact .extend .nil added

theorem named_of_members (hproper : ProperTable entries) (hdistinct : Distinct name entries)
    {members : List (LuaValue × Str × JsonValue)}
    (hkeys : ∀ key, key ∈ members.map Prod.fst ↔ rawGet entries key ≠ .nil)
    (hnames : ∀ e ∈ members, name e.1 = some e.2.1)
    (hvalues : ∀ e ∈ members, P (rawGet entries e.1) e.2.2)
    (hascending : BTreeMap.Ascending Str.cmp (members.map Prod.snd)) :
    ∃ added, List.Forall₂ (fun e a => name e.1 = some a.1 ∧ P e.2 a.2) entries added ∧
      members.map Prod.snd = BTreeMap.extend Str.cmp [] added := by
  have hmember : ∀ e ∈ entries, ∃ m ∈ members, m.1 = e.1 := fun e he =>
    List.mem_map.mp ((hkeys e.1).mpr (hproper.present_iff.mpr (List.mem_map_of_mem he)))
  have hnonempty : Nonempty (LuaValue × Str × JsonValue) := ⟨(.nil, [], .null)⟩
  choose! m hm hkey using hmember
  have hadded : List.Forall₂ (fun e a => name e.1 = some a.1 ∧ P e.2 a.2) entries
      (entries.map fun e => (m e).2) := by
    rw [List.forall₂_map_right_iff, List.forall₂_same]
    intro e he
    have hvalue := hvalues _ (hm e he)
    rw [hkey e he, hproper.rawGet_eq he] at hvalue
    exact ⟨hkey e he ▸ hnames _ (hm e he), hvalue⟩
  have hnodup := added_nodup hproper hdistinct hadded
  refine ⟨_, hadded, ?_⟩
  have hascending' : BTreeMap.Ascending Str.cmp
      (BTreeMap.extend Str.cmp [] (entries.map fun e => (m e).2)) := .extend .nil _
  have hperm : (BTreeMap.extend Str.cmp [] (entries.map fun e => (m e).2)).Perm
      (entries.map fun e => (m e).2) := BTreeMap.extend_perm hnodup
  refine hascending.eq_of_perm hascending' (.trans ?_ hperm.symm)
  refine (List.perm_ext_iff_of_nodup hascending.nodup.of_map hnodup.of_map).mpr fun x => ?_
  constructor
  · intro hx
    obtain ⟨m', hm', rfl⟩ := List.mem_map.mp hx
    have hpresent := (hkeys m'.1).mp (List.mem_map_of_mem hm')
    obtain ⟨e, he, heq⟩ := List.mem_map.mp (hproper.present_iff.mp hpresent)
    -- The member with the key of the entry has its text, and the members have different texts.
    have htext := hnames _ (hm e he)
    rw [hkey e he, heq, hnames m' hm'] at htext
    have hsame := List.inj_on_of_nodup_map hascending.nodup (List.mem_map_of_mem (hm e he)) hx
      (Option.some.inj htext).symm
    exact List.mem_map.mpr ⟨e, he, hsame⟩
  · intro hx
    obtain ⟨e, he, rfl⟩ := List.mem_map.mp hx
    exact List.mem_map_of_mem (hm e he)

theorem dialect_items_give (ht : h[t]? = some (.table entries metatable))
    (hproper : ProperTable entries) (hseq : Sequence entries entries.length)
    (hconvert : ∀ e ∈ entries, Gives h (convert e.2) (P e.2)) :
    Gives h (encodeItems vm convert t entries.length 1 >>= fun out => pure (.array out))
      (TableMapped name entries P) := by
  have hpresent : ∀ k < entries.length, rawGet entries (index k) ≠ .nil := fun k hk =>
    (hseq _).mpr ⟨k, hk, rfl⟩
  have hvalue : ∀ k < entries.length,
      Gives h (convert (rawGet entries (index k))) (P (rawGet entries (index k))) := fun k hk =>
    hconvert _ (hproper.mem_of_present (hpresent k hk))
  refine Gives.congr (.bind (encodeItems_gives ht hpresent hvalue) fun out _ => .pure h _)
    fun j => ?_
  constructor
  · rintro ⟨items, ⟨hlen, hitems⟩, rfl⟩
    exact .inl ⟨items, rfl, hlen ▸ hseq, hitems⟩
  · rintro (⟨items, rfl, hseq', hitems⟩ | ⟨_, _, hnot, _⟩)
    · exact ⟨items, ⟨(hseq'.length_eq hproper).symm, hitems⟩, rfl⟩
    · exact absurd hseq (hnot _)

theorem dialect_members_give (hd : d.Lawful name) (hproper : ProperTable entries)
    (hkeys : ∀ e ∈ entries, ∃ kind, KeyOf e.1 kind) (hkind : OneKind entries)
    (hnot : ∀ n, ¬Sequence entries n)
    (hconvert : ∀ e ∈ entries, Gives h (convert e.2) (P e.2)) :
    Gives h (d.encodeMembers convert entries [] >>= fun obj => pure (.object obj))
      (TableMapped name entries P) := by
  have hdistinct : Distinct name entries := hd.name_inj entries hkind
  refine Gives.congr (.bind (dialect_encodeMembers_gives hd hkeys hconvert []) fun obj _ =>
    .pure h _) fun j => ?_
  constructor
  · rintro ⟨obj, ⟨added, hadded, rfl⟩, rfl⟩
    exact tableMapped_of_named hproper hdistinct hnot hadded
  · rintro (⟨items, rfl, hseq, -⟩ | ⟨members, rfl, -, hkeys, hnames, hvalues, hascending⟩)
    · exact absurd hseq (hnot _)
    · obtain ⟨added, hadded, heq⟩ :=
        named_of_members hproper hdistinct hkeys hnames hvalues hascending
      exact ⟨_, ⟨added, hadded, heq⟩, rfl⟩

def TableEncoded (empty : JsonValue) (name : LuaValue → Option Str)
    (entries : List (LuaValue × LuaValue)) (P : LuaValue → JsonValue → Prop) (j : JsonValue) :
    Prop :=
  entries = [] ∧ j = empty ∨ entries ≠ [] ∧ OneKind entries ∧ TableMapped name entries P j

theorem dialect_table_gives (hd : d.Lawful name) (ht : h[t]? = some (.table entries metatable))
    (hproper : ProperTable entries)
    (hconvert : ∀ e ∈ entries, Gives h (convert e.2) (P e.2)) :
    Gives h (d.luaTableToJson vm convert t) (TableEncoded d.emptyTable name entries P) := by
  have hpairs : (RecM.lift (pairs t) : RecM H _) h = some (.ok entries, h) := by
    rw [RecM.lift, pairs, ht]
  refine .of_ok hpairs ?_
  by_cases hne : entries = []
  · subst hne
    exact .of_ok rfl ((Gives.pure h _).congr fun j => by simp [TableEncoded])
  have hencoded : ∀ j, TableEncoded d.emptyTable name entries P j ↔
      OneKind entries ∧ TableMapped name entries P j := by
    simp [TableEncoded, hne]
  cases hshape : d.keyShape entries .empty with
  | error e =>
    refine .of_error (bind_of_error rfl) fun j hj => ?_
    obtain ⟨shape, hok⟩ := exists_keyShape hd ((hencoded j).mp hj).1
    cases hshape.symm.trans hok
  | ok shape =>
    have hshaped := shaped_of_keyShape hd hshape
    refine .of_ok rfl ?_
    dsimp only
    rw [if_neg (mt List.length_eq_zero_iff.mp hne)]
    by_cases hmixed : (shape.hasNonInt && decide (0 < shape.intCount)) = true
    · rw [if_pos hmixed]
      exact .of_error rfl fun j hj => hshaped.oneKind_iff.mp ((hencoded j).mp hj).1 hmixed
    · have hkind := hshaped.oneKind_iff.mpr hmixed
      have hmapped : ∀ j, TableMapped name entries P j ↔
          TableEncoded d.emptyTable name entries P j := fun j => by simp [hencoded, hkind]
      rw [if_neg hmixed]
      by_cases harray : (!shape.hasNonInt && shape.intCount == entries.length &&
          shape.maxInt.toUInt64.toNat == entries.length) = true
      · rw [if_pos harray]
        simp only [Bool.and_eq_true, Bool.not_eq_true', beq_iff_eq] at harray
        have hseq := sequence_of_keyShape hproper hshaped.keyShape harray.1.1 harray.2
        exact (dialect_items_give ht hproper hseq hconvert).congr hmapped
      · rw [if_neg harray]
        refine (dialect_members_give hd hproper hshaped.keyOf hkind ?_ hconvert).congr hmapped
        intro n hseq
        rw [← hseq.length_eq hproper] at hseq
        obtain ⟨shape', hshape', hnon, hcount, hmax⟩ := keyShape_of_sequence hproper hne hseq
        cases hshaped.keyShape.symm.trans hshape'
        exact harray (by simp [hnon, hcount, hmax])

end Json

end Luaml
