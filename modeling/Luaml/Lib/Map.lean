import Mathlib.Data.List.Nodup

universe u v

namespace Rust.Map

variable {κ : Type u} {ν : Type v} [DecidableEq κ]

def get : List (κ × ν) → κ → Option ν
  | [], _ => none
  | (l, v) :: m, k => if l = k then some v else get m k

/-- `HashMap::insert`: the value of a key that is present is replaced where it stands. -/
def insert : List (κ × ν) → κ → ν → List (κ × ν)
  | [], k, v => [(k, v)]
  | (l, w) :: m, k, v => if l = k then (l, v) :: m else (l, w) :: insert m k v

def extend (m m' : List (κ × ν)) : List (κ × ν) :=
  m'.foldl (fun m (k, v) => insert m k v) m

theorem get_insert (m : List (κ × ν)) (k l : κ) (v : ν) :
    get (insert m k v) l = if k = l then some v else get m l := by
  induction m with
  | nil => rfl
  | cons e m ih =>
    obtain ⟨k', w⟩ := e
    by_cases hk : k' = k
    · subst hk
      by_cases hl : k' = l <;> simp [insert, get, hl]
    · by_cases hl : k' = l
      · subst hl
        simp [insert, get, hk, Ne.symm hk]
      · simp [insert, get, hk, hl, ih]

theorem mem_of_get {m : List (κ × ν)} {k : κ} {v : ν} (h : get m k = some v) : (k, v) ∈ m := by
  induction m with
  | nil => simp [get] at h
  | cons e m ih =>
    obtain ⟨l, w⟩ := e
    rw [get] at h
    split_ifs at h with hl
    · obtain rfl := Option.some.inj h
      simp [hl]
    · exact List.mem_cons_of_mem _ (ih h)

theorem mem_insert {m : List (κ × ν)} {k : κ} {v : ν} {e : κ × ν} (h : e ∈ insert m k v) :
    e = (k, v) ∨ e ∈ m := by
  induction m with
  | nil => exact .inl (List.mem_singleton.mp h)
  | cons f m ih =>
    obtain ⟨l, w⟩ := f
    rw [insert] at h
    split_ifs at h with hl
    · rcases List.mem_cons.mp h with rfl | h
      · exact .inl (by rw [hl])
      · exact .inr (List.mem_cons_of_mem _ h)
    · rcases List.mem_cons.mp h with rfl | h
      · exact .inr List.mem_cons_self
      · exact (ih h).imp_right (List.mem_cons_of_mem _)

theorem get_eq_none {m : List (κ × ν)} {k : κ} : get m k = none ↔ k ∉ m.map Prod.fst := by
  induction m with
  | nil => simp [get]
  | cons e m ih =>
    obtain ⟨l, w⟩ := e
    by_cases hl : l = k
    · simp [get, hl]
    · simp [get, hl, ih, Ne.symm hl]

theorem get_of_mem {m : List (κ × ν)} {k : κ} {v : ν} (hm : (m.map Prod.fst).Nodup)
    (h : (k, v) ∈ m) : get m k = some v := by
  induction m with
  | nil => simp at h
  | cons e m ih =>
    obtain ⟨l, w⟩ := e
    simp only [List.map_cons, List.nodup_cons] at hm
    rcases List.mem_cons.mp h with heq | h
    · obtain ⟨rfl, rfl⟩ := Prod.mk.inj heq
      simp [get]
    · have hne : l ≠ k := fun heq => hm.1 (heq ▸ List.mem_map_of_mem (f := Prod.fst) h)
      rw [get, if_neg hne, ih hm.2 h]

theorem get_append (m m' : List (κ × ν)) (k : κ) :
    get (m ++ m') k = (get m k).or (get m' k) := by
  induction m with
  | nil => rfl
  | cons e m ih =>
    obtain ⟨l, v⟩ := e
    by_cases hl : l = k <;> simp [get, hl, ih]

theorem get_filter_ne (m : List (κ × ν)) (k l : κ) :
    get (m.filter fun e => e.1 ≠ k) l = if k = l then none else get m l := by
  induction m with
  | nil => simp [get]
  | cons e m ih =>
    obtain ⟨j, v⟩ := e
    rw [List.filter_cons, get]
    by_cases hj : j = k
    · rw [if_neg (by simp [hj]), ih]
      by_cases hk : k = l
      · rw [if_pos hk, if_pos hk]
      · rw [if_neg hk, if_neg hk, if_neg (hj ▸ hk)]
    · rw [if_pos (by simpa using hj), get, ih]
      by_cases hl : j = l
      · rw [if_pos hl, if_pos hl, if_neg (fun hk => hj (hl.trans hk.symm))]
      · rw [if_neg hl, if_neg hl]

theorem keys_insert (m : List (κ × ν)) (k : κ) (v : ν) :
    (insert m k v).map Prod.fst =
      if k ∈ m.map Prod.fst then m.map Prod.fst else m.map Prod.fst ++ [k] := by
  induction m with
  | nil => rfl
  | cons e m ih =>
    obtain ⟨l, w⟩ := e
    by_cases hl : l = k
    · simp [insert, hl]
    · rw [insert, if_neg hl, List.map_cons, ih, List.map_cons]
      by_cases hk : k ∈ m.map Prod.fst
      · rw [if_pos hk, if_pos (List.mem_cons_of_mem _ hk)]
      · rw [if_neg hk, if_neg (by simp [Ne.symm hl, hk]), List.cons_append]

theorem nodup_keys_insert {m : List (κ × ν)} (h : (m.map Prod.fst).Nodup) (k : κ) (v : ν) :
    ((insert m k v).map Prod.fst).Nodup := by
  rw [keys_insert]
  split_ifs with hk
  · exact h
  · rw [List.nodup_append]
    exact ⟨h, List.nodup_singleton k, fun l hl j hj heq => hk (List.mem_singleton.mp hj ▸ heq ▸ hl)⟩

theorem insert_of_notMem {m : List (κ × ν)} {k : κ} (h : k ∉ m.map Prod.fst) (v : ν) :
    insert m k v = m ++ [(k, v)] := by
  induction m with
  | nil => rfl
  | cons e m ih =>
    obtain ⟨l, w⟩ := e
    obtain ⟨hl, hm⟩ := not_or.mp (mt List.mem_cons.mpr h)
    rw [insert, if_neg (Ne.symm hl), ih hm, List.cons_append]

theorem insert_insert_self (m : List (κ × ν)) (k : κ) (v w : ν) :
    insert (insert m k w) k v = insert m k v := by
  induction m with
  | nil => simp [insert]
  | cons e m ih =>
    obtain ⟨l, u⟩ := e
    by_cases hl : l = k <;> simp [insert, hl, ih]

theorem insert_insert_comm {m : List (κ × ν)} {k l : κ} (hk : k ∈ m.map Prod.fst) (hne : l ≠ k)
    (v w : ν) : insert (insert m l w) k v = insert (insert m k v) l w := by
  induction m with
  | nil => simp at hk
  | cons e m ih =>
    obtain ⟨j, u⟩ := e
    by_cases hjl : j = l
    · have hjk : j ≠ k := hjl ▸ hne
      simp [insert, hjl, hne]
    · by_cases hjk : j = k
      · simp [insert, hjk, Ne.symm hne]
      · have hm : k ∈ m.map Prod.fst := by simpa [Ne.symm hjk] using hk
        simp [insert, hjl, hjk, ih hm]

theorem extend_cons (m : List (κ × ν)) (k : κ) (v : ν) (l : List (κ × ν)) :
    extend m ((k, v) :: l) = extend (insert m k v) l := rfl

theorem extend_append (m l l' : List (κ × ν)) : extend m (l ++ l') = extend (extend m l) l' :=
  List.foldl_append

theorem insert_extend {m : List (κ × ν)} {k : κ} (hk : k ∈ m.map Prod.fst) {l : List (κ × ν)}
    (hl : k ∉ l.map Prod.fst) (v : ν) : insert (extend m l) k v = extend (insert m k v) l := by
  induction l generalizing m with
  | nil => rfl
  | cons e l ih =>
    obtain ⟨j, w⟩ := e
    obtain ⟨hne, hl⟩ := not_or.mp (mt List.mem_cons.mpr hl)
    have hmem : k ∈ (insert m j w).map Prod.fst := by
      rw [keys_insert]
      split_ifs
      · exact hk
      · exact List.mem_append_left _ hk
    rw [extend_cons, extend_cons, ih hmem hl, insert_insert_comm hk (Ne.symm hne)]

theorem extend_insert (m : List (κ × ν)) {l : List (κ × ν)} (h : (l.map Prod.fst).Nodup) (k : κ)
    (v : ν) : extend m (insert l k v) = insert (extend m l) k v := by
  induction l generalizing m with
  | nil => rfl
  | cons e l ih =>
    obtain ⟨j, w⟩ := e
    obtain ⟨hnew, hl⟩ := List.nodup_cons.mp h
    by_cases hj : j = k
    · subst hj
      have hmem : j ∈ (insert m j w).map Prod.fst := by
        rw [keys_insert]
        split_ifs with hj
        · exact hj
        · simp
      rw [insert, if_pos rfl, extend_cons, extend_cons, insert_extend hmem hnew,
        insert_insert_self]
    · rw [insert, if_neg hj, extend_cons, extend_cons, ih _ hl]

theorem extend_assoc (m : List (κ × ν)) {m' : List (κ × ν)} (h : (m'.map Prod.fst).Nodup)
    (l : List (κ × ν)) : extend m (extend m' l) = extend (extend m m') l := by
  induction l generalizing m' with
  | nil => rfl
  | cons e l ih =>
    obtain ⟨k, v⟩ := e
    rw [extend_cons, extend_cons, ih (nodup_keys_insert h k v), extend_insert m h]

theorem extend_of_nodup {m l : List (κ × ν)} (h : ((m ++ l).map Prod.fst).Nodup) :
    extend m l = m ++ l := by
  induction l generalizing m with
  | nil => simp [extend]
  | cons e l ih =>
    obtain ⟨k, v⟩ := e
    have hnew : k ∉ m.map Prod.fst := by
      intro hk
      rw [List.map_append, List.nodup_append] at h
      exact h.2.2 k hk k (by simp) rfl
    rw [List.append_cons] at h ⊢
    rw [extend_cons, insert_of_notMem hnew, ih h]

/-- The entries that remain when, of each of the keys, the first entry is taken out. -/
def leftover : List κ → List (κ × ν) → List (κ × ν)
  | _, [] => []
  | ks, (k, v) :: m =>
    if k ∈ ks then leftover (ks.filter (· ≠ k)) m else (k, v) :: leftover ks m

def lasts : List (κ × ν) → List (κ × ν)
  | [] => []
  | (k, v) :: m => if k ∈ m.map Prod.fst then lasts m else (k, v) :: lasts m

theorem leftover_congr {ks ls : List κ} (h : ∀ k, k ∈ ks ↔ k ∈ ls) (m : List (κ × ν)) :
    leftover ks m = leftover ls m := by
  induction m generalizing ks ls with
  | nil => rfl
  | cons e m ih =>
    obtain ⟨k, v⟩ := e
    have hfilter : leftover (ks.filter (· ≠ k)) m = leftover (ls.filter (· ≠ k)) m := by
      apply ih
      intro l
      simp [h l]
    simp only [leftover, h k, hfilter, ih h]

theorem leftover_insert_of_mem {ks : List κ} {k : κ} (hk : k ∈ ks) (m : List (κ × ν)) (v : ν) :
    leftover ks (insert m k v) = leftover ks m := by
  induction m generalizing ks with
  | nil => simp [insert, leftover, hk]
  | cons e m ih =>
    obtain ⟨l, w⟩ := e
    by_cases hl : l = k
    · simp [insert, leftover, hl, hk]
    · have hmem : k ∈ ks.filter (· ≠ l) := by simp [hk, Ne.symm hl]
      rw [insert, if_neg hl, leftover, leftover, ih hk, ih hmem]

theorem leftover_insert_of_notMem {ks : List κ} {k : κ} (hk : k ∉ ks) (m : List (κ × ν)) (v : ν) :
    (leftover ks (insert m k v)).Perm ((k, v) :: leftover (k :: ks) m) := by
  induction m generalizing ks with
  | nil => simp [insert, leftover, hk]
  | cons e m ih =>
    obtain ⟨l, w⟩ := e
    by_cases hl : l = k
    · subst hl
      have hrest : leftover ((l :: ks).filter (· ≠ l)) m = leftover ks m := by
        apply leftover_congr
        intro k'
        simp only [ne_eq, decide_not, List.mem_filter, List.mem_cons, Bool.not_eq_eq_eq_not,
          Bool.not_true, decide_eq_false_iff_not]
        constructor
        · rintro ⟨rfl | hmem, hne⟩
          · exact absurd rfl hne
          · exact hmem
        · exact fun hmem => ⟨.inr hmem, fun heq => hk (heq ▸ hmem)⟩
      rw [insert, if_pos rfl, leftover, if_neg hk, leftover, if_pos (by simp), hrest]
    · have hmem : k ∉ ks.filter (· ≠ l) := fun h => hk (List.mem_of_mem_filter h)
      have hcons : (k :: ks).filter (· ≠ l) = k :: ks.filter (· ≠ l) := by simp [Ne.symm hl]
      have hin : l ∈ k :: ks ↔ l ∈ ks := by simp [hl]
      rw [insert, if_neg hl, leftover, leftover, hcons, if_congr hin rfl rfl]
      split_ifs
      · exact ih hmem
      · exact ((ih hk).cons _).trans (.swap _ _ _)

theorem extend_perm (m m' : List (κ × ν)) :
    (extend m m').Perm (leftover (m'.map Prod.fst) m ++ lasts m') := by
  induction m' generalizing m with
  | nil =>
    have hself : leftover [] m = m := by
      induction m with
      | nil => rfl
      | cons e m ih => simp [leftover, ih]
    simp [extend, lasts, hself]
  | cons e m' ih =>
    obtain ⟨k, v⟩ := e
    have hstep := ih (insert m k v)
    rw [List.map_cons, lasts]
    split_ifs with hk
    · rw [leftover_insert_of_mem hk] at hstep
      have hkeys : ∀ l, l ∈ k :: m'.map Prod.fst ↔ l ∈ m'.map Prod.fst := by simpa using hk
      rwa [leftover_congr hkeys]
    · refine hstep.trans (((leftover_insert_of_notMem hk m v).append_right _).trans ?_)
      exact List.perm_middle.symm

/-- The entries of a key that a later entry has again. -/
def shadowed : List (κ × ν) → List (κ × ν)
  | [] => []
  | (k, v) :: m => if k ∈ m.map Prod.fst then (k, v) :: shadowed m else shadowed m

/-- The entries of the keys, but for the first entry of each. -/
def repeats (ks : List κ) (m : List (κ × ν)) : List (κ × ν) :=
  (leftover ks m).filter fun e => e.1 ∈ ks

def without (ks : List κ) (m : List (κ × ν)) : List (κ × ν) := m.filter fun e => e.1 ∉ ks

theorem lasts_shadowed_perm (m : List (κ × ν)) : (lasts m ++ shadowed m).Perm m := by
  induction m with
  | nil => rfl
  | cons e m ih =>
    obtain ⟨k, v⟩ := e
    rw [lasts, shadowed]
    split_ifs
    · exact List.perm_middle.trans (ih.cons _)
    · exact ih.cons _

theorem mem_leftover {ks : List κ} {m : List (κ × ν)} {e : κ × ν} :
    e ∈ leftover ks m ↔ e ∈ without ks m ∨ e ∈ repeats ks m := by
  have hwithout : e.1 ∉ ks → (e ∈ leftover ks m ↔ e ∈ m) := by
    induction m generalizing ks with
    | nil => simp [leftover]
    | cons f m ih =>
      obtain ⟨l, w⟩ := f
      intro he
      rw [leftover]
      split_ifs with hl
      · have hne : e ≠ (l, w) := fun heq => he (heq ▸ hl)
        rw [ih fun h => he (List.mem_of_mem_filter h), List.mem_cons, or_iff_right hne]
      · rw [List.mem_cons, List.mem_cons, ih he]
  by_cases he : e.1 ∈ ks
  · simp [without, repeats, he]
  · simp [without, repeats, he, hwithout he]

theorem shadowed_of_nodup {m : List (κ × ν)} (h : (m.map Prod.fst).Nodup) : shadowed m = [] := by
  induction m with
  | nil => rfl
  | cons e m ih =>
    obtain ⟨hnew, hm⟩ := List.nodup_cons.mp h
    rw [shadowed, if_neg hnew, ih hm]

theorem leftover_of_nodup {ks : List κ} {m : List (κ × ν)} (h : (m.map Prod.fst).Nodup) :
    leftover ks m = without ks m := by
  induction m generalizing ks with
  | nil => rfl
  | cons e m ih =>
    obtain ⟨k, v⟩ := e
    obtain ⟨hnew, hm⟩ := List.nodup_cons.mp h
    have hsame : without (ks.filter (· ≠ k)) m = without ks m := by
      apply List.filter_congr
      intro f hf
      have hne : f.1 ≠ k := by
        rintro rfl
        exact hnew (List.mem_map.mpr ⟨f, hf, rfl⟩)
      simp [hne]
    rw [leftover, ih hm, ih hm, hsame]
    split_ifs with hk <;> simp [without, hk]

theorem repeats_of_nodup {ks : List κ} {m : List (κ × ν)} (h : (m.map Prod.fst).Nodup) :
    repeats ks m = [] := by
  rw [repeats, leftover_of_nodup h, without, List.filter_filter, List.filter_eq_nil_iff]
  intro e _
  simp

end Rust.Map
