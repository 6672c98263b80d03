
universe u v

inductive Round (R : Type u) (S : Type v)
  | ends (result : R) (s : S)
  | goesOn (s : S)

namespace Round

variable {R : Type u} {S : Type v} {body : S → Round R S} {s : S}

def within (body : S → Round R S) : Nat → S → Option (R × S)
  | 0, _ => none
  | n + 1, s =>
    match body s with
    | .ends result s => some (result, s)
    | .goesOn s => within body n s

theorem within_mono {n m : Nat} (hle : n ≤ m) {r : R × S} (hr : within body n s = some r) :
    within body m s = some r := by
  induction n generalizing m s with
  | zero => cases hr
  | succ n ih =>
    obtain ⟨m, rfl⟩ := Nat.exists_eq_add_of_le' hle
    rw [within] at hr
    rw [← Nat.add_assoc, within]
    split at hr
    · exact hr
    · exact ih (Nat.le_add_left n m) hr

theorem within_some {P : S → Prop} {Q : R → S → Prop}
    (hgoesOn : ∀ s s', P s → body s = .goesOn s' → P s')
    (hends : ∀ s r s', P s → body s = .ends r s' → Q r s') (hs : P s) {n : Nat} {r : R} {s' : S}
    (hr : within body n s = some (r, s')) : Q r s' := by
  induction n generalizing s with
  | zero => cases hr
  | succ n ih =>
    rw [within] at hr
    split at hr
    · rename_i hround
      cases hr
      exact hends s _ _ hs hround
    · rename_i t hround
      exact ih (hgoesOn s t hs hround) hr

theorem within_eq_none {P : S → Prop} (hbody : ∀ s, P s → ∃ s', body s = .goesOn s' ∧ P s')
    (hs : P s) (n : Nat) : within body n s = none := by
  induction n generalizing s with
  | zero => rfl
  | succ n ih =>
    obtain ⟨s', hround, hs'⟩ := hbody s hs
    rw [within, hround]
    exact ih hs'

theorem exists_within {P : S → Prop} (clock : S → Nat) (deadline : Nat)
    (hbody : ∀ s s', P s → body s = .goesOn s' → P s' ∧ clock s < clock s')
    (hends : ∀ s s', P s → deadline ≤ clock s → body s ≠ .goesOn s') (hs : P s) :
    ∃ n r, within body n s = some r := by
  induction hleft : deadline - clock s using Nat.strongRecOn generalizing s with
  | ind left ih =>
    cases hround : body s with
    | ends result s' => exact ⟨1, (result, s'), by rw [within, hround]⟩
    | goesOn s' =>
      obtain ⟨hs', hclock⟩ := hbody s s' hs hround
      have hbefore : clock s < deadline :=
        Nat.lt_of_not_le fun hle => hends s s' hs hle hround
      obtain ⟨n, r, hr⟩ := ih (deadline - clock s') (by omega) hs' rfl
      exact ⟨n + 1, r, by rw [within, hround]; exact hr⟩

end Round
