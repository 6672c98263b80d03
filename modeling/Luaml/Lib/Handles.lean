import Mathlib.Data.List.Basic
import Mathlib.Logic.Function.Basic

universe u v

namespace Handles

variable {α : Type u} {β : Type v} {mk : Nat → α → β} {key : β → Nat} {m m' : Nat → Option α}
  {n id : Nat}

def listed (mk : Nat → α → β) (n : Nat) (m : Nat → Option α) : List β :=
  (List.range n).filterMap fun i => (m i).map (mk i)

theorem listed_congr (h : ∀ i < n, m i = m' i) : listed mk n m = listed mk n m' :=
  List.filterMap_congr fun i hi => by rw [h i (List.mem_range.mp hi)]

theorem listed_succ (n : Nat) (m : Nat → Option α) :
    listed mk (n + 1) m = listed mk n m ++ ((m n).map (mk n)).toList := by
  rw [listed, List.range_succ, List.filterMap_append]
  cases h : m n <;> simp [listed, h]

theorem listed_skip (h : m n = none) : listed mk (n + 1) m = listed mk n m := by
  rw [listed_succ, h]
  exact List.append_nil _

theorem listed_issue (n : Nat) (m : Nat → Option α) (a : α) :
    listed mk (n + 1) (Function.update m n (some a)) = listed mk n m ++ [mk n a] := by
  rw [listed_succ, Function.update_self]
  congr 1
  exact listed_congr fun i hi => Function.update_of_ne (Nat.ne_of_lt hi) _ _

theorem listed_found (hkey : ∀ i a, key (mk i a) = i) (hnew : ∀ i ≥ n, m i = none) :
    (∃ b ∈ listed mk n m, key b = id) ↔ (m id).isSome = true := by
  constructor
  · rintro ⟨b, hb, rfl⟩
    obtain ⟨i, -, hb⟩ := List.mem_filterMap.mp hb
    obtain ⟨a, ha, rfl⟩ := Option.map_eq_some_iff.mp hb
    rw [hkey, ha]
    rfl
  · intro hsome
    obtain ⟨a, ha⟩ := Option.isSome_iff_exists.mp hsome
    have hlt : id < n := by
      by_contra hge
      rw [hnew id (Nat.not_lt.mp hge)] at ha
      cases ha
    exact ⟨mk id a, List.mem_filterMap.mpr ⟨id, List.mem_range.mpr hlt, by rw [ha]; rfl⟩, hkey id a⟩

theorem listed_retire (hkey : ∀ i a, key (mk i a) = i) (n id : Nat) (m : Nat → Option α) :
    (listed mk n m).filter (fun b => key b ≠ id) = listed mk n (Function.update m id none) := by
  induction n with
  | zero => rfl
  | succ n ih =>
    rw [listed_succ, List.filter_append, ih, listed_succ]
    congr 1
    by_cases hid : n = id
    · subst hid
      rw [Function.update_self]
      cases m n <;> simp [hkey]
    · rw [Function.update_of_ne hid]
      cases m n <;> simp [hkey, hid]

theorem listed_retire_length (hkey : ∀ i a, key (mk i a) = i) (hnew : ∀ i ≥ n, m i = none) :
    (((listed mk n m).filter fun b => key b ≠ id).length != (listed mk n m).length) =
      (m id).isSome := by
  have hshorter := @List.length_filter_lt_length_iff_exists _ (fun b => key b ≠ id) (listed mk n m)
  have hle := List.length_filter_le (fun b => key b ≠ id) (listed mk n m)
  have hne : _ ≠ _ ↔ _ := ⟨Nat.lt_of_le_of_ne hle, Nat.ne_of_lt⟩
  rw [Bool.eq_iff_iff, bne_iff_ne, hne, hshorter]
  simp only [decide_eq_true_eq, ne_eq, not_not]
  exact listed_found hkey hnew

theorem listed_put (hkey : ∀ i a, key (mk i a) = i) (n id : Nat) (m : Nat → Option α) (a : α) :
    ((listed mk n m).map fun b => if key b = id then mk id a else b) =
      listed mk n (Function.update m id ((m id).map fun _ => a)) := by
  induction n with
  | zero => rfl
  | succ n ih =>
    rw [listed_succ, List.map_append, ih, listed_succ]
    congr 1
    by_cases hid : n = id
    · subst hid
      rw [Function.update_self]
      cases m n <;> simp [hkey]
    · rw [Function.update_of_ne hid]
      cases m n <;> simp [hkey, hid]

theorem listed_keys (hkey : ∀ i a, key (mk i a) = i) (n : Nat) (m : Nat → Option α) :
    (listed mk n m).map key = (List.range n).filter fun i => (m i).isSome := by
  induction n with
  | zero => rfl
  | succ n ih =>
    rw [listed_succ, List.map_append, ih, List.range_succ, List.filter_append]
    congr 1
    cases h : m n <;> simp [h, hkey]

theorem listed_nodup (hkey : ∀ i a, key (mk i a) = i) (n : Nat) (m : Nat → Option α) :
    ((listed mk n m).map key).Nodup := by
  rw [listed_keys hkey]
  exact List.nodup_range.filter _

theorem update_eq_none {value : Option α} (hvalue : m id = none → value = none) {i : Nat}
    (hi : m i = none) : Function.update m id value i = none := by
  by_cases h : i = id
  · subst h
    rw [Function.update_self, hvalue hi]
  · rw [Function.update_of_ne h, hi]

end Handles
