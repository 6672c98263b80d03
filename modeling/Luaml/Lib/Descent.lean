import Mathlib.Order.WellFounded
import Mathlib.Order.Preorder.Finite

universe u

namespace Descent

open Relation

variable {α : Type u} {r : α → α → Prop} {a b : α}

def Endless (r : α → α → Prop) (a : α) : Prop :=
  ∃ f : Nat → α, f 0 = a ∧ ∀ n, r (f n) (f (n + 1))

theorem acc_iff_not_endless : Acc (flip r) a ↔ ¬Endless r a :=
  not_iff_not.mp (not_acc_iff_exists_descending_chain.trans not_not.symm)

theorem transGen_of_lt {f : Nat → α} (hf : ∀ n, r (f n) (f (n + 1))) {i j : Nat} (hij : i < j) :
    TransGen r (f i) (f j) := by
  induction j, hij using Nat.le_induction with
  | base => exact .single (hf i)
  | succ j _ ih => exact ih.tail (hf j)

theorem reflTransGen_zero {f : Nat → α} (hf : ∀ n, r (f n) (f (n + 1))) (i : Nat) :
    ReflTransGen r (f 0) (f i) := by
  induction i with
  | zero => exact .refl
  | succ i ih => exact ih.tail (hf i)

theorem acc_of_reflTransGen (h : Acc (flip r) a) (hab : ReflTransGen r a b) : Acc (flip r) b := by
  induction hab with
  | refl => exact h
  | tail _ hstep ih => exact ih.inv hstep

theorem not_self_of_acc (h : Acc r a) : ¬r a a := by
  induction h with
  | intro a _ ih => exact fun haa => ih a haa haa

theorem Endless.of_cycle (hab : ReflTransGen r a b) (hcycle : TransGen r b b) : Endless r a := by
  by_contra hend
  have hacc := acc_of_reflTransGen (acc_iff_not_endless.mpr hend) hab
  exact not_self_of_acc hacc.transGen (transGen_swap.mpr hcycle)

theorem endless_iff_cycle {dom : Set α} (hfinite : dom.Finite) (hdom : ∀ a b, r a b → a ∈ dom) :
    Endless r a ↔ ∃ b, ReflTransGen r a b ∧ TransGen r b b := by
  constructor
  · rintro ⟨f, rfl, hf⟩
    obtain ⟨i, j, hij, heq⟩ := hfinite.exists_lt_map_eq_of_forall_mem fun n => hdom _ _ (hf n)
    refine ⟨f i, reflTransGen_zero hf i, ?_⟩
    have hcycle := transGen_of_lt hf hij
    rwa [← heq] at hcycle
  · rintro ⟨b, hab, hcycle⟩
    exact .of_cycle hab hcycle

end Descent
