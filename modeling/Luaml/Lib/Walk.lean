import Mathlib.Data.List.Infix
import Mathlib.Data.Set.Insert

universe u v

namespace Walk

variable {N : Type u} {K : Type v} {G G' : N → K → Option N} {R S : Set (N × List K)}
  {t t' g x : N} {p q s : List K} {k : K}

/-- The end of the walk that starts at a node and takes the edges with these labels. -/
def walk (G : N → K → Option N) : N → List K → Option N
  | t, [] => some t
  | t, k :: ks => (G t k).bind fun u => walk G u ks

theorem walk_append (G : N → K → Option N) (t : N) (p q : List K) :
    walk G t (p ++ q) = (walk G t p).bind fun u => walk G u q := by
  induction p generalizing t with
  | nil => rfl
  | cons k p ih => simp [walk, ih, Option.bind_assoc]

theorem walk_concat (G : N → K → Option N) (t : N) (p : List K) (k : K) :
    walk G t (p ++ [k]) = (walk G t p).bind fun u => G u k := by
  rw [walk_append]
  congr 1
  funext u
  rw [walk]
  cases G u k <;> rfl

theorem walk_congr (hsame : ∀ p k, p ++ [k] <+: q → ∀ u, walk G t p = some u → G' u k = G u k) :
    walk G' t q = walk G t q := by
  induction q using List.reverseRecOn with
  | nil => rfl
  | append_singleton q k ih =>
    have hq : walk G' t q = walk G t q :=
      ih fun p l hp => hsame p l (hp.trans (List.prefix_append q [k]))
    rw [walk_concat, walk_concat, hq]
    cases hu : walk G t q with
    | none => rfl
    | some u => exact hsame q k List.prefix_rfl u hu

theorem not_concat_prefix (p : List K) (k : K) : ¬ p ++ [k] <+: p := by
  intro h
  have hlen := h.length_le
  rw [List.length_append, List.length_singleton] at hlen
  exact Nat.not_succ_le_self _ hlen

def Along (R : Set (N × List K)) (t : N) (q : List K) : Prop :=
  ∀ p k, p ++ [k] <+: q → (t, p) ∈ R

def Leads (G : N → K → Option N) (R : Set (N × List K)) (u : N) : Prop :=
  ∃ way ∈ R, walk G way.1 way.2 = some u

/-- No two ways lead to one node. -/
def Unshared (G : N → K → Option N) (R : Set (N × List K)) : Prop :=
  ∀ way ∈ R, ∀ way' ∈ R, ∀ u, walk G way.1 way.2 = some u → walk G way'.1 way'.2 = some u →
    way = way'

def below (R : Set (N × List K)) (t : N) (q : List K) : Set (List K) := {s | (t, q ++ s) ∈ R}

def ways (x : N) (S : Set (List K)) : Set (N × List K) := {way | way.1 = x ∧ way.2 ∈ S}

theorem Along.mono (hq : Along R t q) (hR : R ⊆ S) : Along S t q :=
  fun p k hp => hR (hq p k hp)

theorem Along.prefix (hq : Along R t q) (hp : p <+: q) : Along R t p :=
  fun p' k hp' => hq p' k (hp'.trans hp)

theorem Along.below (hq : Along R t (p ++ s)) : Along (ways x (Walk.below R t p)) x s :=
  fun p' k hp' => ⟨rfl, hq (p ++ p') k (by simpa using hp')⟩

theorem Leads.mono {u : N} (hu : Leads G R u) (hR : R ⊆ S) : Leads G S u :=
  hu.imp fun _ hway => ⟨hR hway.1, hway.2⟩

variable [DecidableEq N] [DecidableEq K]

def relink (G : N → K → Option N) (g : N) (k : K) (x : N) : N → K → Option N :=
  fun u l => if u = g ∧ l = k then some x else G u l

theorem walk_relink_of_not (hun : Unshared G R) (htp : (t, p) ∈ R) (hg : walk G t p = some g)
    (hq : Along R t' q) (hnot : t' = t → ¬ p ++ [k] <+: q) :
    walk (relink G g k x) t' q = walk G t' q := by
  refine walk_congr fun p' l hp' u hu => ?_
  rw [relink, if_neg]
  rintro ⟨rfl, rfl⟩
  obtain ⟨rfl, rfl⟩ := Prod.mk.inj (hun _ (hq p' l hp') _ htp u hu hg)
  exact hnot rfl hp'

theorem walk_relink_below (hun : Unshared G R) (htp : (t, p) ∈ R) (hp : Along R t p)
    (hg : walk G t p = some g) (hx : x ≠ t) (hs : Along R x s) :
    walk (relink G g k x) t (p ++ [k] ++ s) = walk G x s := by
  have hto : walk (relink G g k x) t p = some g := by
    rw [walk_relink_of_not hun htp hg hp fun _ => not_concat_prefix p k, hg]
  have hedge : relink G g k x g k = some x := if_pos ⟨rfl, rfl⟩
  rw [walk_append, walk_concat, hto, Option.bind_some, hedge, Option.bind_some]
  exact walk_relink_of_not hun htp hg hs fun heq => absurd heq hx

/-- The ways that will lead through the new node lead on from it already, and none else does. -/
def Graft (G : N → K → Option N) (R : Set (N × List K)) (t : N) (p : List K) (k : K) (x : N) :
    Prop :=
  Unshared G (R ∪ ways x (below R t (p ++ [k]))) ∧ ∀ q, (x, q) ∉ R

theorem Graft.walk_cases (hgraft : Graft G R t p k x) (htp : (t, p) ∈ R) (hp : Along R t p)
    (hg : walk G t p = some g) (hq : Along R t' q) :
    (∃ s, t' = t ∧ q = p ++ [k] ++ s ∧ walk (relink G g k x) t' q = walk G x s) ∨
      (t' = t → ¬ p ++ [k] <+: q) ∧ walk (relink G g k x) t' q = walk G t' q := by
  have hR : R ⊆ R ∪ ways x (below R t (p ++ [k])) := Set.subset_union_left
  by_cases hto : t' = t ∧ p ++ [k] <+: q
  · obtain ⟨rfl, s, rfl⟩ := hto
    have hx : x ≠ t' := fun heq => hgraft.2 p (heq ▸ htp)
    refine .inl ⟨s, rfl, rfl, ?_⟩
    exact walk_relink_below hgraft.1 (hR htp) (hp.mono hR) hg hx
      (hq.below.mono Set.subset_union_right)
  · have hnot : t' = t → ¬ p ++ [k] <+: q := fun heq hpre => hto ⟨heq, hpre⟩
    exact .inr ⟨hnot, walk_relink_of_not hgraft.1 (hR htp) hg (hq.mono hR) hnot⟩

theorem Graft.leads (hgraft : Graft G R t p k x) (hclosed : ∀ way ∈ R, Along R way.1 way.2)
    (htp : (t, p) ∈ R) (hg : walk G t p = some g) {u : N} (hu : Leads (relink G g k x) R u) :
    Leads G (R ∪ ways x (below R t (p ++ [k]))) u := by
  obtain ⟨⟨t', q⟩, hway, hu⟩ := hu
  rcases hgraft.walk_cases htp (hclosed _ htp) hg (hclosed _ hway) with ⟨s, rfl, rfl, heq⟩ | hnot
  · exact ⟨(x, s), .inr ⟨rfl, hway⟩, heq ▸ hu⟩
  · exact ⟨(t', q), .inl hway, hnot.2 ▸ hu⟩

theorem Graft.unshared (hgraft : Graft G R t p k x) (hclosed : ∀ way ∈ R, Along R way.1 way.2)
    (htp : (t, p) ∈ R) (hg : walk G t p = some g) : Unshared (relink G g k x) R := by
  rintro ⟨t₁, q₁⟩ h₁ ⟨t₂, q₂⟩ h₂ u hu₁ hu₂
  have hp := hclosed _ htp
  rcases hgraft.walk_cases htp hp hg (hclosed _ h₁) with ⟨s₁, rfl, rfl, heq₁⟩ | hnot₁ <;>
    rcases hgraft.walk_cases htp hp hg (hclosed _ h₂) with ⟨s₂, rfl, rfl, heq₂⟩ | hnot₂
  · have heq := hgraft.1 (x, s₁) (.inr ⟨rfl, h₁⟩) (x, s₂) (.inr ⟨rfl, h₂⟩) u (heq₁ ▸ hu₁)
      (heq₂ ▸ hu₂)
    rw [(Prod.mk.inj heq).2]
  · have heq := hgraft.1 (x, s₁) (.inr ⟨rfl, h₁⟩) (t₂, q₂) (.inl h₂) u (heq₁ ▸ hu₁) (hnot₂.2 ▸ hu₂)
    exact absurd (heq ▸ h₂) (hgraft.2 s₁)
  · have heq := hgraft.1 (t₁, q₁) (.inl h₁) (x, s₂) (.inr ⟨rfl, h₂⟩) u (hnot₁.2 ▸ hu₁) (heq₂ ▸ hu₂)
    exact absurd (heq ▸ h₁) (hgraft.2 s₂)
  · exact hgraft.1 (t₁, q₁) (.inl h₁) (t₂, q₂) (.inl h₂) u (hnot₁.2 ▸ hu₁) (hnot₂.2 ▸ hu₂)

end Walk
