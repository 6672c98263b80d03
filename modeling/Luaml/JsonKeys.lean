import Luaml.JsonLaws
import Mathlib.Data.List.Perm.Subperm

namespace Luaml

open Rust Serde Lua

namespace Json

/-- No key is nil or no number, and a float that is equal to an integer has become one. -/
def NormalKey : LuaValue → Prop
  | .nil => False
  | .number f => f.isNan = false ∧
    ¬(f.isFinite ∧ f.isWhole ∧ -2 ^ 63 ≤ f.trunc ∧ f.trunc < 2 ^ 63)
  | _ => True

/-- A table as Lua has it: every key once and with a value, and no more of them than fit. -/
structure ProperTable (entries : List (LuaValue × LuaValue)) : Prop where
  nodup : (entries.map Prod.fst).Nodup
  present : ∀ e ∈ entries, e.2 ≠ .nil
  normal : ∀ e ∈ entries, NormalKey e.1
  length_lt : entries.length < 2 ^ 63 - 1

def Sequence (entries : List (LuaValue × LuaValue)) (n : Nat) : Prop :=
  ∀ key, rawGet entries key ≠ .nil ↔ ∃ k < n, key = index k

variable {texts : Texts} {entries : List (LuaValue × LuaValue)}

theorem ProperTable.rawGet_eq (hproper : ProperTable entries) {key v : LuaValue}
    (he : (key, v) ∈ entries) : rawGet entries key = v := by
  rw [rawGet, Map.get_of_mem hproper.nodup he]
  rfl

theorem ProperTable.present_iff (hproper : ProperTable entries) {key : LuaValue} :
    rawGet entries key ≠ .nil ↔ key ∈ entries.map Prod.fst := by
  constructor
  · intro hkey
    by_contra hnone
    exact hkey (by rw [rawGet, Map.get_eq_none.mpr hnone]; rfl)
  · intro hmem
    obtain ⟨⟨_, v⟩, he, rfl⟩ := List.mem_map.mp hmem
    rw [hproper.rawGet_eq he]
    exact hproper.present _ he

theorem ProperTable.mem_of_present (hproper : ProperTable entries) {key : LuaValue}
    (hkey : rawGet entries key ≠ .nil) : (key, rawGet entries key) ∈ entries := by
  obtain ⟨⟨_, v⟩, he, rfl⟩ := List.mem_map.mp (hproper.present_iff.mp hkey)
  rwa [hproper.rawGet_eq he]

theorem indices_nodup {n : Nat} (hn : n ≤ 2 ^ 63) : ((List.range n).map index).Nodup := by
  refine List.Nodup.map_on (fun j hj k hk heq => ?_) List.nodup_range
  rw [List.mem_range] at hj hk
  exact index_inj (hj.trans_le hn) (hk.trans_le hn) heq

theorem mem_indices {n : Nat} {key : LuaValue} :
    key ∈ (List.range n).map index ↔ ∃ k < n, key = index k := by
  simp [eq_comm]

theorem sequence_of_within (hproper : ProperTable entries)
    (hwithin : ∀ e ∈ entries, ∃ k < entries.length, e.1 = index k) :
    Sequence entries entries.length := by
  have hsubset : entries.map Prod.fst ⊆ (List.range entries.length).map index := by
    intro key hkey
    obtain ⟨e, he, rfl⟩ := List.mem_map.mp hkey
    exact mem_indices.mpr (hwithin e he)
  have hperm : (entries.map Prod.fst).Perm ((List.range entries.length).map index) :=
    (List.subperm_of_subset hproper.nodup hsubset).perm_of_length_le (by simp)
  intro key
  rw [hproper.present_iff, hperm.mem_iff, mem_indices]

theorem Sequence.length_eq (hproper : ProperTable entries) {n : Nat} (hseq : Sequence entries n) :
    entries.length = n := by
  have hmem : ∀ m, m ≤ n → (List.range m).map index ⊆ entries.map Prod.fst := by
    intro m hm key hkey
    obtain ⟨k, hk, rfl⟩ := mem_indices.mp hkey
    exact hproper.present_iff.mp ((hseq _).mpr ⟨k, hk.trans_le hm, rfl⟩)
  have hlen := hproper.length_lt
  -- There are not as many keys as there are indices of an `i64`.
  have hn : n ≤ 2 ^ 63 := by
    by_contra hgt
    have hle := (List.subperm_of_subset (indices_nodup (Nat.le_refl _))
      (hmem (2 ^ 63) (by omega))).length_le
    rw [List.length_map, List.length_map, List.length_range] at hle
    omega
  have hback : entries.map Prod.fst ⊆ (List.range n).map index := by
    intro key hkey
    exact mem_indices.mpr ((hseq key).mp (hproper.present_iff.mpr hkey))
  have hle := (List.subperm_of_subset hproper.nodup hback).length_le
  have hge := (List.subperm_of_subset (indices_nodup hn) (hmem n (Nat.le_refl n))).length_le
  rw [List.length_map, List.length_map, List.length_range] at hle hge
  exact Nat.le_antisymm hle hge

theorem keyShape_eq_ok {shape shape' : KeyShape} :
    keyShape texts entries shape = .ok shape' ↔ ∃ kinds,
      List.Forall₂ (fun e kind => keyKind texts e.1 = .ok kind) entries kinds ∧
        shape' = kinds.foldl KeyShape.add shape := by
  induction entries generalizing shape with
  | nil =>
    constructor
    · intro h
      exact ⟨[], .nil, (Except.ok.inj h).symm⟩
    · rintro ⟨kinds, hkinds, rfl⟩
      cases hkinds
      rfl
  | cons e entries ih =>
    obtain ⟨k, v⟩ := e
    rw [keyShape]
    cases hkind : keyKind texts k with
    | error message =>
      constructor
      · intro h
        cases h
      · rintro ⟨kinds, hkinds, -⟩
        cases hkinds with
        | cons hfirst _ =>
          rw [hkind] at hfirst
          cases hfirst
    | ok kind =>
      have hstep : (Except.ok kind >>= fun kind => keyShape texts entries (shape.add kind)) =
          keyShape texts entries (shape.add kind) := rfl
      rw [hstep, ih]
      constructor
      · rintro ⟨kinds, hkinds, hshape⟩
        exact ⟨kind :: kinds, .cons hkind hkinds, hshape⟩
      · rintro ⟨all, hall, hshape⟩
        cases hall with
        | @cons _ kind' _ kinds hfirst hkinds =>
          rw [hkind] at hfirst
          obtain rfl := Except.ok.inj hfirst
          exact ⟨kinds, hkinds, hshape⟩

theorem foldl_add_counts (kinds : List (Option Int64)) (shape : KeyShape) :
    (kinds.foldl KeyShape.add shape).intCount = shape.intCount + kinds.countP Option.isSome ∧
      (kinds.foldl KeyShape.add shape).hasNonInt =
        (shape.hasNonInt || kinds.any Option.isNone) := by
  induction kinds generalizing shape with
  | nil => simp
  | cons kind kinds ih =>
    obtain ⟨hcount, hnon⟩ := ih (shape.add kind)
    rw [List.foldl_cons, hcount, hnon]
    cases kind with
    | none => simp [KeyShape.add]
    | some i => simp [KeyShape.add, Nat.add_assoc, Nat.add_comm 1]

theorem add_max (shape : KeyShape) (i : Int64) :
    shape.maxInt ≤ (shape.add (some i)).maxInt ∧ i ≤ (shape.add (some i)).maxInt ∧
      ((shape.add (some i)).maxInt = shape.maxInt ∨ (shape.add (some i)).maxInt = i) := by
  rw [KeyShape.add]
  dsimp only
  split_ifs with hlt
  · exact ⟨Int64.le_of_lt hlt, Int64.le_refl i, .inr rfl⟩
  · exact ⟨Int64.le_refl _, Int64.not_lt.mp hlt, .inl rfl⟩

theorem foldl_add_max (kinds : List (Option Int64)) (shape : KeyShape) :
    shape.maxInt ≤ (kinds.foldl KeyShape.add shape).maxInt ∧
      (∀ i, some i ∈ kinds → i ≤ (kinds.foldl KeyShape.add shape).maxInt) ∧
        ((kinds.foldl KeyShape.add shape).maxInt = shape.maxInt ∨
          some (kinds.foldl KeyShape.add shape).maxInt ∈ kinds) := by
  induction kinds generalizing shape with
  | nil => exact ⟨Int64.le_refl _, by simp, .inl rfl⟩
  | cons kind kinds ih =>
    obtain ⟨hle, hall, hmem⟩ := ih (shape.add kind)
    rw [List.foldl_cons]
    cases kind with
    | none =>
      refine ⟨hle, fun i hi => hall i ?_, hmem.imp_right (List.mem_cons_of_mem _)⟩
      exact (List.mem_cons.mp hi).resolve_left (by simp)
    | some i =>
      obtain ⟨hshape, hi, heq⟩ := add_max shape i
      refine ⟨Int64.le_trans hshape hle, fun j hj => ?_, ?_⟩
      · rcases List.mem_cons.mp hj with heq | hj
        · rw [Option.some.inj heq]
          exact Int64.le_trans hi hle
        · exact hall j hj
      · rcases hmem with hmem | hmem
        · rw [hmem]
          exact heq.imp_right fun hi => by rw [hi]; exact List.mem_cons_self
        · exact .inr (List.mem_cons_of_mem _ hmem)

theorem keyKind_some {key : LuaValue} {i : Int64} (hnormal : NormalKey key)
    (hkind : keyKind texts key = .ok (some i)) :
    key = .integer i ∧ 1 ≤ i ∨ i = Int64.maxValue := by
  cases key with
  | integer j =>
    rw [keyKind] at hkind
    split_ifs at hkind with hpos
    obtain rfl := Option.some.inj (Except.ok.inj hkind)
    exact .inl ⟨rfl, hpos⟩
  | number f =>
    rw [keyKind] at hkind
    split_ifs at hkind with hwhole
    obtain rfl := Option.some.inj (Except.ok.inj hkind)
    simp only [Bool.and_eq_true] at hwhole
    obtain ⟨hnan, hout⟩ := hnormal
    have hpos := F64.trunc_nonneg (F64.signBit_of_ge_one hwhole.2)
    have hge : 2 ^ 63 ≤ f.trunc := by
      by_contra hlt
      exact hout ⟨hwhole.1.1, hwhole.1.2, by omega, by omega⟩
    exact .inr (F64.toI64_of_ge hnan hge)
  | string s => cases hkind
  | bytes b => cases hkind
  | _ => cases hkind

theorem toInt_of_nonneg {i : Int64} (hi : 0 ≤ i) : i.toInt = i.toUInt64.toNat := by
  rw [Int64.toNat_toUInt64_of_le hi, Int64.cast_toNatClampNeg i hi]

theorem sequence_of_keyShape (hproper : ProperTable entries) {shape : KeyShape}
    (hshape : keyShape texts entries .empty = .ok shape) (hnon : shape.hasNonInt = false)
    (hmax : shape.maxInt.toUInt64.toNat = entries.length) :
    Sequence entries entries.length := by
  obtain ⟨kinds, hkinds, rfl⟩ := keyShape_eq_ok.mp hshape
  obtain ⟨hzero, hall, -⟩ := foldl_add_max kinds .empty
  rw [(foldl_add_counts kinds .empty).2, KeyShape.empty, Bool.false_or, List.any_eq_false] at hnon
  have hlen := hproper.length_lt
  have htotal := toInt_of_nonneg hzero
  rw [hmax] at htotal
  refine sequence_of_within hproper fun e he => ?_
  obtain ⟨kind, hmem, hkind⟩ := Res.exists_of_forall₂ hkinds he
  obtain ⟨i, rfl⟩ : ∃ i, kind = some i := by
    cases kind with
    | none => exact absurd rfl (hnon none hmem)
    | some i => exact ⟨i, rfl⟩
  have hle := Int64.le_iff_toInt_le.mp (hall i hmem)
  rw [htotal] at hle
  rcases keyKind_some (hproper.normal e he) hkind with ⟨hkey, hpos⟩ | rfl
  · have hone : 1 ≤ i.toInt := Int64.le_iff_toInt_le.mp hpos
    refine ⟨(i.toInt - 1).toNat, by omega, ?_⟩
    rw [hkey, index, LuaValue.integer.injEq, ← Int64.toInt_inj, index_toInt (by omega)]
    omega
  · rw [Int64.toInt_maxValue] at hle
    omega

theorem keyShape_of_sequence (hproper : ProperTable entries) (hne : entries ≠ [])
    (hseq : Sequence entries entries.length) :
    ∃ shape, keyShape texts entries .empty = .ok shape ∧ shape.hasNonInt = false ∧
      shape.intCount = entries.length ∧ shape.maxInt.toUInt64.toNat = entries.length := by
  have hlen := hproper.length_lt
  have hkeys : ∀ e ∈ entries, ∃ i, e.1 = .integer i ∧ 1 ≤ i ∧ i.toInt ≤ entries.length := by
    intro e he
    obtain ⟨k, hk, hkey⟩ := (hseq e.1).mp (hproper.present_iff.mpr (List.mem_map_of_mem he))
    have hint := index_toInt (show k + 1 < 2 ^ 63 by omega)
    refine ⟨_, hkey, Int64.le_iff_toInt_le.mpr ?_, by omega⟩
    rw [hint, Int64.toInt_one]
    omega
  choose! i hi using hkeys
  have hkinds : List.Forall₂ (fun e kind => keyKind texts e.1 = .ok kind) entries
      (entries.map fun e => some (i e)) := by
    rw [List.forall₂_map_right_iff, List.forall₂_same]
    intro e he
    rw [(hi e he).1, keyKind, if_pos (hi e he).2.1]
  obtain ⟨hcount, hnon⟩ := foldl_add_counts (entries.map fun e => some (i e)) .empty
  obtain ⟨hzero, hall, hmem⟩ := foldl_add_max (entries.map fun e => some (i e)) .empty
  refine ⟨_, keyShape_eq_ok.mpr ⟨_, hkinds, rfl⟩, ?_, ?_, ?_⟩
  · rw [hnon]
    simp [KeyShape.empty]
  · rw [hcount]
    simp [KeyShape.empty, List.countP_map]
  · have hle : ((entries.map fun e => some (i e)).foldl KeyShape.add .empty).maxInt.toInt ≤
        entries.length := by
      rcases hmem with hmem | hmem
      · rw [hmem]
        exact Int.natCast_nonneg _
      · obtain ⟨e, he, heq⟩ := List.mem_map.mp hmem
        rw [← Option.some.inj heq]
        exact (hi e he).2.2
    -- The last index is among the keys.
    have hpos := List.length_pos_iff.mpr hne
    obtain ⟨e, he, hkey⟩ := List.mem_map.mp (hproper.present_iff.mp
      ((hseq _).mpr ⟨entries.length - 1, by omega, rfl⟩))
    have hlast := Int64.le_iff_toInt_le.mp (hall (i e) (List.mem_map_of_mem he))
    rw [LuaValue.integer.inj ((hi e he).1.symm.trans hkey), index_toInt (by omega)] at hlast
    have hint := toInt_of_nonneg hzero
    omega

end Json

end Luaml
