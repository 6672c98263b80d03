import Luaml.Parser
import Luaml.PatternLaws

namespace Luaml.Parser

open Rust Str Res

theorem returns_readLine (line : Str) : (readLine line).Returns := by
  simp only [readLine]
  split_ifs
  · exact returns_ok _
  · exact returns_err _
  · split
    · split <;> simp
    · split_ifs <;> simp
    · split
      · exact returns_err _
      · split_ifs <;> simp

theorem Frontmatter.returns_take (isChild : Bool) (st : Frontmatter) (form : Line) :
    (st.take isChild form).Returns ↔
      ∀ key value, form = .field key value → (Pattern.parsePatternValue value).Returns := by
  cases form with
  | blank => simp [Frontmatter.take]
  | note key value => simp [Frontmatter.take]
  | guard expr => simp [Frontmatter.take]
  | field key value => simp [Frontmatter.take, returns_bind]

theorem Frontmatter.returns_read (isChild : Bool) (st : Frontmatter) (lines : List Str) :
    (st.read isChild lines).Returns ↔
      ∀ pre line post key value, lines = pre ++ line :: post →
        (∃ st', st.read isChild pre = .ok st') → readLine line = .ok (.field key value) →
          (Pattern.parsePatternValue value).Returns := by
  induction lines generalizing st with
  | nil => simp [Frontmatter.read]
  | cons l ls ih =>
    simp only [Frontmatter.read, returns_bind, returns_readLine, true_and, ih,
      Frontmatter.returns_take]
    constructor
    · intro h pre line post key value hlines hpre hline
      cases pre with
      | nil =>
        obtain ⟨rfl, -⟩ := List.cons.inj hlines
        exact (h _ hline).1 key value rfl
      | cons l' pre =>
        obtain ⟨rfl, hls⟩ := List.cons.inj hlines
        obtain ⟨st', hst'⟩ := hpre
        simp only [Frontmatter.read, bind_eq_ok] at hst'
        obtain ⟨form, hform, st₁, hst₁, hrest⟩ := hst'
        exact (h form hform).2 st₁ hst₁ pre line post key value hls ⟨st', hrest⟩ hline
    · intro h form hform
      refine ⟨fun key value hf => h [] l ls key value rfl ⟨st, rfl⟩ (hf ▸ hform), ?_⟩
      intro st₁ hst₁ pre line post key value hls hpre hline
      obtain ⟨st', hst'⟩ := hpre
      refine h (l :: pre) line post key value (by rw [hls]; rfl) ⟨st', ?_⟩ hline
      simp only [Frontmatter.read, hform, ok_bind, hst₁, hst']

theorem parseFrontmatterBlock_eq_ok {lines : List Str} {isChild : Bool} {b : FrontmatterBlock} :
    parseFrontmatterBlock lines isChild = .ok b ↔
      ∃ st, Frontmatter.start.read isChild lines = .ok st ∧ st.finish = b := by
  simp [parseFrontmatterBlock, bind_eq_ok]

/-- The block hands `value` on to `parse_pattern_value`: it is a field's value, and the lines
above it parse. -/
def HandsOn (isChild : Bool) (lines : List Str) (value : Str) : Prop :=
  ∃ pre line post key, lines = pre ++ line :: post ∧
    (∃ b, parseFrontmatterBlock pre isChild = .ok b) ∧ readLine line = .ok (.field key value)

theorem returns_parseFrontmatterBlock (lines : List Str) (isChild : Bool) :
    (parseFrontmatterBlock lines isChild).Returns ↔
      ∀ value, HandsOn isChild lines value → (Pattern.parsePatternValue value).Returns := by
  have hread : (parseFrontmatterBlock lines isChild).Returns ↔
      (Frontmatter.start.read isChild lines).Returns := by
    simp [parseFrontmatterBlock, returns_bind]
  rw [hread, Frontmatter.returns_read]
  constructor
  · rintro h value ⟨pre, line, post, key, hlines, ⟨b, hb⟩, hline⟩
    obtain ⟨st, hst, -⟩ := parseFrontmatterBlock_eq_ok.mp hb
    exact h pre line post key value hlines ⟨st, hst⟩ hline
  · rintro h pre line post key value hlines ⟨st, hst⟩ hline
    exact h value ⟨pre, line, post, key, hlines,
      ⟨st.finish, parseFrontmatterBlock_eq_ok.mpr ⟨st, hst, rfl⟩⟩, hline⟩

theorem position_append {block rest : List Str} (h : dashes ∉ block) :
    position (block ++ dashes :: rest) = some block.length := by
  induction block with
  | nil => simp [position, List.findIdx?_cons]
  | cons l block ih =>
    obtain ⟨hl, hblock⟩ := not_or.mp (fun hor => h (List.mem_cons.mpr hor))
    have hne : (l == dashes) = false := by simpa using Ne.symm hl
    have := ih hblock
    simp only [position] at this
    simp [position, List.findIdx?_cons, hne, this]

theorem position_eq_some {xs : List Str} {i : Nat} (h : position xs = some i) :
    ∃ block rest, xs = block ++ dashes :: rest ∧ dashes ∉ block ∧ i = block.length := by
  induction xs generalizing i with
  | nil => simp [position] at h
  | cons x xs ih =>
    by_cases hx : x = dashes
    · subst hx
      have : i = 0 := by simpa [position, List.findIdx?_cons] using h.symm
      exact ⟨[], xs, rfl, by simp, this⟩
    · have hne : (x == dashes) = false := by simpa using hx
      simp only [position, List.findIdx?_cons, hne, Bool.false_eq_true, if_false,
        Option.map_eq_some_iff] at h
      obtain ⟨j, hj, rfl⟩ := h
      obtain ⟨block, rest, rfl, hblock, rfl⟩ := ih hj
      exact ⟨x :: block, rest, rfl, by simp [hblock, Ne.symm hx], rfl⟩

end Luaml.Parser
