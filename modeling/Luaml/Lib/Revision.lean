import Mathlib.Data.List.Basic

universe u

structure Revision (α : Type u) where
  keeps : α → Bool
  adds : List α

namespace Revision

variable {α : Type u} {r s : Revision α} {xs : List α} {x : α}

def act (r : Revision α) (xs : List α) : List α := xs.filter r.keeps ++ r.adds

def nothing : Revision α := ⟨fun _ => true, []⟩

def adding (xs : List α) : Revision α := ⟨fun _ => true, xs⟩

def keeping (p : α → Bool) : Revision α := ⟨p, []⟩

def andThen (r s : Revision α) : Revision α := ⟨fun x => r.keeps x && s.keeps x, s.act r.adds⟩

def replay (log : List (Revision α)) (xs : List α) : List α := log.foldl (fun xs r => r.act xs) xs

@[simp] theorem nothing_act : nothing.act xs = xs := by simp [act, nothing]

@[simp] theorem adding_act (ys : List α) : (adding ys).act xs = xs ++ ys := by simp [act, adding]

@[simp] theorem keeping_act (p : α → Bool) : (keeping p).act xs = xs.filter p := by
  simp [act, keeping]

@[simp] theorem andThen_act : (r.andThen s).act xs = s.act (r.act xs) := by
  simp [act, andThen, List.filter_append, List.filter_filter, Bool.and_comm]

theorem mem_act : x ∈ r.act xs ↔ x ∈ xs ∧ r.keeps x ∨ x ∈ r.adds := by
  simp [act]

theorem mem_adds_andThen (h : x ∈ (r.andThen s).adds) : x ∈ r.adds ∨ x ∈ s.adds := by
  rcases mem_act.mp h with ⟨hx, -⟩ | hx
  · exact .inl hx
  · exact .inr hx

theorem act_act_again (h : ∀ x ∈ r.adds, r.keeps x = false) :
    r.act (s.act (r.act xs)) = r.act (s.act xs) := by
  have hadds : (r.adds.filter s.keeps).filter r.keeps = [] := by
    rw [List.filter_eq_nil_iff]
    intro x hx
    rw [h x (List.mem_filter.mp hx).1]
    exact Bool.false_ne_true
  have hkept : ((xs.filter r.keeps).filter s.keeps).filter r.keeps =
      (xs.filter s.keeps).filter r.keeps := by
    simp only [List.filter_filter]
    congr 1
    funext x
    cases r.keeps x <;> cases s.keeps x <;> rfl
  simp only [act, List.filter_append, hadds, hkept, List.append_nil]

theorem replay_cons (log : List (Revision α)) : replay (r :: log) xs = replay log (r.act xs) := rfl

end Revision
