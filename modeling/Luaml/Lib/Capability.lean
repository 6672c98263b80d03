import Mathlib.Data.Set.Insert
import Mathlib.Logic.Relation

universe u v

namespace Capability

/-- The references that an object holds, and the authority that it grants. -/
structure Shape (O : Type u) (X : Type v) where
  refs : O → Set Nat
  grants : O → Set X

variable {O : Type u} {X : Type v} (S : Shape O X)

def Refers (h : List O) (a b : Nat) : Prop := ∃ o, h[a]? = some o ∧ b ∈ S.refs o

def Reaches (h : List O) : Nat → Nat → Prop := Relation.ReflTransGen (Refers S h)

def Confined (A : Set X) (h : List O) (R : Set Nat) : Prop :=
  ∀ a ∈ R, ∀ b, Reaches S h a b → ∀ o, h[b]? = some o → S.grants o ⊆ A

variable {S} {A : Set X} {h h' : List O} {R R' : Set Nat} {o o' : O} {a : Nat}

theorem Confined.mono (hc : Confined S A h R') (hR : R ⊆ R') : Confined S A h R :=
  fun a ha => hc a (hR ha)

theorem Confined.union (hc : Confined S A h R) (hc' : Confined S A h R') :
    Confined S A h (R ∪ R') :=
  fun a ha => ha.elim (hc a) (hc' a)

theorem Confined.refs (hc : Confined S A h R) (ha : a ∈ R) (ho : h[a]? = some o) :
    Confined S A h (S.refs o) :=
  fun _ hb c hbc => hc a ha c (.head ⟨o, ho, hb⟩ hbc)

theorem Confined.grants (hc : Confined S A h R) (ha : a ∈ R) (ho : h[a]? = some o) :
    S.grants o ⊆ A :=
  hc a ha a .refl o ho

theorem reaches_of_changed (hsame : ∀ b, b ≠ a → ∀ o, h'[b]? = some o → h[b]? = some o)
    {c d : Nat} (hcd : Reaches S h' c d) :
    d = a ∨ c ≠ a ∧ Reaches S h c d ∨
      ∃ o, h'[a]? = some o ∧ ∃ b ∈ S.refs o, Reaches S h b d := by
  induction hcd with
  | refl => exact (em (c = a)).imp_right fun hca => .inl ⟨hca, .refl⟩
  | @tail d e _ hde ih =>
    obtain ⟨o, ho, he⟩ := hde
    by_cases hda : d = a
    · exact .inr (.inr ⟨o, hda ▸ ho, e, he, .refl⟩)
    · have hstep : Refers S h d e := ⟨o, hsame d hda o ho, he⟩
      rcases ih with heq | ⟨hca, hcd⟩ | ⟨o', ho', b, hb, hbd⟩
      · exact absurd heq hda
      · exact .inr (.inl ⟨hca, hcd.tail hstep⟩)
      · exact .inr (.inr ⟨o', ho', b, hb, hbd.tail hstep⟩)

theorem Confined.changed (hc : Confined S A h R)
    (hsame : ∀ b, b ≠ a → ∀ o, h'[b]? = some o → h[b]? = some o)
    (hnew : ∀ o, h'[a]? = some o → S.grants o ⊆ A ∧ Confined S A h (S.refs o)) :
    Confined S A h' (insert a R) := by
  intro c hcR d hcd o ho
  by_cases hda : d = a
  · exact (hnew o (hda ▸ ho)).1
  rcases reaches_of_changed hsame hcd with heq | ⟨hca, hcd⟩ | ⟨o', ho', b, hb, hbd⟩
  · exact absurd heq hda
  · exact hc c (hcR.resolve_left hca) d hcd o (hsame d hda o ho)
  · exact (hnew o' ho').2 b hb d hbd o (hsame d hda o ho)

theorem Confined.push (hc : Confined S A h R) (hgrants : S.grants o ⊆ A) (hrefs : S.refs o ⊆ R) :
    Confined S A (h ++ [o]) (insert h.length R) := by
  apply hc.changed
  · intro b hb o' ho'
    rcases Nat.lt_trichotomy b h.length with hlt | heq | hgt
    · rwa [List.getElem?_append_left hlt] at ho'
    · exact absurd heq hb
    · rw [List.getElem?_eq_none (by simp; omega)] at ho'
      cases ho'
  · intro o' ho'
    rw [List.getElem?_concat_length] at ho'
    obtain rfl := Option.some.inj ho'
    exact ⟨hgrants, hc.mono hrefs⟩

theorem Confined.set (hc : Confined S A h R) (ha : a ∈ R) (ho : h[a]? = some o)
    (hgrants : S.grants o' ⊆ A) (hrefs : S.refs o' ⊆ S.refs o ∪ R) :
    Confined S A (h.set a o') R := by
  rw [← Set.insert_eq_of_mem ha]
  apply hc.changed
  · intro b hb o'' ho''
    rwa [List.getElem?_set_ne (Ne.symm hb)] at ho''
  · intro o'' ho''
    obtain ⟨hlt, -⟩ := List.getElem?_eq_some_iff.mp ho
    rw [List.getElem?_set_self hlt] at ho''
    obtain rfl := Option.some.inj ho''
    exact ⟨hgrants, ((hc.refs ha ho).union hc).mono hrefs⟩

end Capability
