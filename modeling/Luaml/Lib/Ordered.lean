import Mathlib.Data.List.Perm.Basic
import Mathlib.Order.Defs.LinearOrder

universe u v

namespace Rust.BTreeMap

variable {κ : Type u} {ν : Type v} (cmp : κ → κ → Ordering)

def insert : List (κ × ν) → κ → ν → List (κ × ν)
  | [], k, v => [(k, v)]
  | (l, w) :: m, k, v =>
    match cmp k l with
    | .lt => (k, v) :: (l, w) :: m
    | .eq => (l, v) :: m
    | .gt => (l, w) :: insert m k v

def extend (m entries : List (κ × ν)) : List (κ × ν) :=
  entries.foldl (fun m e => insert cmp m e.1 e.2) m

def Ascending (m : List (κ × ν)) : Prop := m.Pairwise fun e e' => cmp e.1 e'.1 = .lt

variable {cmp} {m m' : List (κ × ν)} {k : κ} {v : ν}

theorem mem_keys_insert {l : κ} (h : l ∈ (insert cmp m k v).map Prod.fst) :
    l = k ∨ l ∈ m.map Prod.fst := by
  induction m with
  | nil => exact .inl (List.mem_singleton.mp h)
  | cons e m ih =>
    obtain ⟨l', w⟩ := e
    rw [insert] at h
    split at h
    · exact List.mem_cons.mp h
    · exact .inr h
    · rcases List.mem_cons.mp h with rfl | h
      · exact .inr (List.mem_cons_self)
      · exact (ih h).imp_right (List.mem_cons_of_mem _)

theorem Ascending.keys (h : Ascending cmp m) :
    (m.map Prod.fst).Pairwise fun k l => cmp k l = .lt :=
  List.pairwise_map.mpr h

theorem Ascending.insert [Std.TransCmp cmp] (h : Ascending cmp m) (k : κ) (v : ν) :
    Ascending cmp (insert cmp m k v) := by
  induction m with
  | nil => exact List.pairwise_singleton _ _
  | cons e m ih =>
    obtain ⟨l, w⟩ := e
    obtain ⟨hl, hm⟩ := List.pairwise_cons.mp h
    rw [BTreeMap.insert]
    split
    · rename_i hlt
      refine List.pairwise_cons.mpr ⟨fun e he => ?_, h⟩
      rcases List.mem_cons.mp he with rfl | he
      · exact hlt
      · exact Std.TransCmp.lt_trans hlt (hl e he)
    · exact List.pairwise_cons.mpr ⟨hl, hm⟩
    · rename_i hgt
      refine List.pairwise_cons.mpr ⟨fun e he => ?_, ih hm⟩
      rcases mem_keys_insert (List.mem_map_of_mem he) with heq | he
      · rw [heq]
        exact Std.OrientedCmp.lt_of_gt hgt
      · obtain ⟨e', he', heq⟩ := List.mem_map.mp he
        rw [← heq]
        exact hl e' he'

theorem insert_perm [Std.LawfulEqCmp cmp] (h : k ∉ m.map Prod.fst) (v : ν) :
    (insert cmp m k v).Perm ((k, v) :: m) := by
  induction m with
  | nil => exact .refl _
  | cons e m ih =>
    obtain ⟨l, w⟩ := e
    rw [List.map_cons, List.mem_cons, not_or] at h
    rw [BTreeMap.insert]
    split
    · exact .refl _
    · rename_i heq
      exact absurd (Std.LawfulEqCmp.eq_of_compare heq) h.1
    · exact ((ih h.2).cons (l, w)).trans (.swap _ _ _)

theorem forall_insert {p : ν → Prop} (hm : ∀ e ∈ m, p e.2) (hv : p v) :
    ∀ e ∈ insert cmp m k v, p e.2 := by
  induction m with
  | nil => simpa [insert] using hv
  | cons e m ih =>
    obtain ⟨l, w⟩ := e
    rw [List.forall_mem_cons] at hm
    rw [insert]
    split
    · exact List.forall_mem_cons.mpr ⟨hv, List.forall_mem_cons.mpr hm⟩
    · exact List.forall_mem_cons.mpr ⟨hv, hm.2⟩
    · exact List.forall_mem_cons.mpr ⟨hm.1, ih hm.2⟩

theorem forall_extend {p : ν → Prop} {entries : List (κ × ν)} (hm : ∀ e ∈ m, p e.2)
    (hentries : ∀ e ∈ entries, p e.2) : ∀ e ∈ extend cmp m entries, p e.2 := by
  induction entries generalizing m with
  | nil => exact hm
  | cons e entries ih =>
    rw [List.forall_mem_cons] at hentries
    exact ih (forall_insert hm hentries.1) hentries.2

theorem insert_of_last [Std.TransCmp cmp] (h : ∀ e ∈ m, cmp e.1 k = .lt) (v : ν) :
    insert cmp m k v = m ++ [(k, v)] := by
  induction m with
  | nil => rfl
  | cons e m ih =>
    obtain ⟨l, w⟩ := e
    rw [List.forall_mem_cons] at h
    have hgt : cmp k l = .gt := Std.OrientedCmp.gt_of_lt h.1
    rw [BTreeMap.insert, hgt, ih h.2, List.cons_append]

theorem Ascending.extend [Std.TransCmp cmp] (h : Ascending cmp m) (entries : List (κ × ν)) :
    Ascending cmp (extend cmp m entries) := by
  induction entries generalizing m with
  | nil => exact h
  | cons e entries ih => exact ih (h.insert _ _)

theorem extend_perm [Std.LawfulEqCmp cmp] {entries : List (κ × ν)}
    (h : (m.map Prod.fst ++ entries.map Prod.fst).Nodup) :
    (extend cmp m entries).Perm (m ++ entries) := by
  induction entries generalizing m with
  | nil =>
    rw [List.append_nil]
    rfl
  | cons e entries ih =>
    obtain ⟨k, v⟩ := e
    have hnew : k ∉ m.map Prod.fst := by
      intro hmem
      exact (List.nodup_append.mp h).2.2 k hmem k (by simp) rfl
    have hinsert : (insert cmp m k v).Perm ((k, v) :: m) := insert_perm hnew v
    have hmove : (m.map Prod.fst ++ (k :: entries.map Prod.fst)).Perm
        ((insert cmp m k v).map Prod.fst ++ entries.map Prod.fst) :=
      List.perm_middle.trans (((hinsert.map Prod.fst).append_right _).symm)
    refine (ih (hmove.nodup_iff.mp h)).trans ?_
    exact (hinsert.append_right entries).trans List.perm_middle.symm

theorem extend_of_ascending [Std.TransCmp cmp] {entries : List (κ × ν)}
    (h : Ascending cmp (m ++ entries)) : extend cmp m entries = m ++ entries := by
  induction entries generalizing m with
  | nil => exact (List.append_nil m).symm
  | cons e entries ih =>
    obtain ⟨k, v⟩ := e
    have hlast : ∀ e ∈ m, cmp e.1 k = .lt := fun e he =>
      (List.pairwise_append.mp h).2.2 e he (k, v) (List.mem_cons_self)
    rw [List.append_cons] at h ⊢
    rw [extend, List.foldl_cons, insert_of_last hlast]
    exact ih h

theorem Ascending.nodup [Std.ReflCmp cmp] (h : Ascending cmp m) : (m.map Prod.fst).Nodup := by
  refine h.keys.imp fun {k l} hlt heq => ?_
  have hself : cmp l l = .eq := Std.ReflCmp.compare_self
  rw [heq, hself] at hlt
  cases hlt

theorem Ascending.eq_of_perm [Std.OrientedCmp cmp] (h : Ascending cmp m)
    (h' : Ascending cmp m') (hperm : m.Perm m') :
    m = m' := by
  refine hperm.eq_of_pairwise (fun e e' _ _ hlt hgt => ?_) h h'
  rw [Std.OrientedCmp.gt_of_lt hlt] at hgt
  cases hgt

end Rust.BTreeMap
