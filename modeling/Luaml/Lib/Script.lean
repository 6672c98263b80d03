import Luaml.Lib.Res

/-! A computation beside one that is given what is to come: `R i s as t` relates a state, what is
still to come, and a state that is given it, under whatever `i` says of the latter. -/

universe u v w t x

namespace Rust

namespace Res

variable {ε : Type v} {σ : Type u} {A : Type w} {τ : Type t} {ι : Type x}
  {α β : Type v} {R : ι → σ → List A → τ → Prop} {s s' s'' : σ}

/-- From `s` to `s'` something comes, and given it, with whatever comes after, `f` does the same and
leaves what comes after. -/
def Plays (R : ι → σ → List A → τ → Prop) (s s' : σ) (f : τ → Res ε α) (out : τ → α) : Prop :=
  ∃ as, ∀ i rest t, R i s (as ++ rest) t → ∃ t', f t = .ok (out t') ∧ R i s' rest t'

theorem Plays.ok (s : σ) (out : τ → α) : Plays (ε := ε) R s s (fun t => .ok (out t)) out :=
  ⟨[], fun _ _ t ht => ⟨t, rfl, ht⟩⟩

theorem Plays.bind {f : τ → Res ε α} {out : τ → α} {g : α → Res ε β} {out' : τ → β}
    (hf : Plays R s s' f out) (hg : Plays R s' s'' (fun t => g (out t)) out') :
    Plays R s s'' (fun t => f t >>= g) out' := by
  obtain ⟨as, hf⟩ := hf
  obtain ⟨as', hg⟩ := hg
  refine ⟨as ++ as', fun i rest t ht => ?_⟩
  rw [List.append_assoc] at ht
  obtain ⟨t', heq, ht'⟩ := hf i _ t ht
  obtain ⟨t'', heq', ht''⟩ := hg i rest t' ht'
  refine ⟨t'', ?_, ht''⟩
  change (f t >>= g) = _
  rw [heq, ok_bind]
  exact heq'

end Res

end Rust
