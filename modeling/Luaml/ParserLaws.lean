import Luaml.Sections

namespace Luaml.Parser

open Rust Str Res

theorem extensionLines_le {sourceName : Str} {extension : Option Str} {consumed : Nat}
    {lines : List Str} {r : Option Str × Nat}
    (h : extensionLines sourceName extension consumed lines = .ok r) :
    r.2 ≤ consumed + lines.length := by
  induction lines generalizing extension consumed with
  | nil =>
    obtain rfl := Res.ok.inj h
    simp
  | cons line lines ih =>
    have later : ∀ {extension'}, extensionLines sourceName extension' (consumed + 1) lines = .ok r →
        r.2 ≤ consumed + (line :: lines).length := by
      intro extension' h
      have := ih h
      simp only [List.length_cons]
      omega
    simp only [extensionLines] at h
    cases hname : stripPrefix '!' (trim line) with
    | none =>
      simp only [hname] at h
      split_ifs at h
      · exact later h
      · obtain rfl := Res.ok.inj h
        simp
    | some name =>
      simp only [hname] at h
      split_ifs at h
      · exact later h
      · exact later h

theorem returns_extensionLines (sourceName : Str) (extension : Option Str) (consumed : Nat)
    (lines : List Str) : (extensionLines sourceName extension consumed lines).Returns := by
  induction lines generalizing extension consumed with
  | nil => simp [extensionLines]
  | cons line lines ih =>
    cases hname : stripPrefix '!' (trim line) with
    | none =>
      simp only [extensionLines, hname]
      split_ifs
      · exact ih _ _
      · exact returns_ok _
    | some name =>
      simp only [extensionLines, hname]
      split_ifs
      · exact ih _ _
      · exact returns_err _
      · exact returns_err _
      · exact ih _ _

theorem returns_extractExtension (lines : List Str) (sourceName : Str) :
    (extractExtension lines sourceName).Returns := by
  rw [extractExtension, returns_bind]
  refine ⟨returns_extensionLines _ _ _ _, fun r hr => ?_⟩
  have hle := extensionLines_le hr
  simp only [Nat.zero_add] at hle
  simp only [sliceList_ok hle (Nat.le_refl _), ok_bind, returns_ok]

def blockAt (lines : List Str) (b : Nat) : List Str :=
  (lines.drop (b + 1)).takeWhile (· != dashes)

theorem map_blockAt_starts {lines body : List Str} {sections : List (List Str × List Str)} {i : Nat}
    (h : Sections (lines.drop i) body sections) :
    (starts i body sections).map (blockAt lines) = sections.map Prod.fst := by
  generalize hxs : lines.drop i = xs at h
  induction h generalizing i with
  | nil => rfl
  | line _ _ ih =>
    obtain ⟨-, -, hdrop⟩ := drop_eq_cons (ε := LuamlError) hxs
    rw [starts_cons, ih hdrop]
  | @block block rest body sections hblock _ _ ih =>
    rw [List.cons_append] at hxs
    obtain ⟨-, -, hdrop⟩ := drop_eq_cons (ε := LuamlError) hxs
    have hafter : lines.drop (i + block.length + 2) = rest := by
      rw [show i + block.length + 2 = i + 1 + (block.length + 1) by omega, ← List.drop_drop, hdrop]
      simp
    have hall : ∀ l ∈ block, (l != dashes) = true := by
      intro l hl
      simp only [bne_iff_ne, ne_eq]
      rintro rfl
      exact hblock hl
    have hat : blockAt lines i = block := by
      rw [blockAt, hdrop, List.takeWhile_append_of_pos hall]
      simp
    simp only [starts, List.length_nil, Nat.add_zero, List.map_cons, hat, ih hafter]

/-- The text starts with a frontmatter block: `fm` are its lines below any `!` declaration, and
`rest` the lines after it. -/
def Opens (sourceName text : Str) (fm rest : List Str) : Prop :=
  ∃ block extension, lines text = dashes :: block ++ dashes :: rest ∧ dashes ∉ block ∧
    extractExtension block sourceName = .ok (extension, fm)

theorem parseLuaml_of_opened {sourcePath : PathBuf} {text : Str} {block rest : List Str}
    {bs : List Nat} (hlines : lines text = dashes :: block ++ dashes :: rest)
    (hblock : dashes ∉ block) (hbs : findClauseBoundaries rest = .ok bs) :
    (parseLuaml sourcePath text).Returns ↔
      ∀ extension fm, extractExtension block sourcePath.text = .ok (extension, fm) →
        (parseFrontmatterBlock fm false).Returns ∧
          ∀ base, parseFrontmatterBlock fm false = .ok base →
            ReturnsEach (fun b => parseFrontmatterBlock (blockAt rest b) true) bs := by
  obtain ⟨body, sections, hsections⟩ := exists_sections rest
  obtain rfl := Res.ok.inj (hbs.symm.trans (findClauseBoundaries_of_sections hsections))
  have hclauses : ∀ base, ReturnsEach (sectionClause base) sections ↔
      ReturnsEach (fun b => parseFrontmatterBlock (blockAt rest b) true)
        (starts 0 body sections) := by
    intro base
    have hblocks : (starts 0 body sections).map (blockAt rest) = sections.map Prod.fst :=
      map_blockAt_starts hsections
    rw [← returnsEach_map (fun block => parseFrontmatterBlock block true) (blockAt rest), hblocks,
      returnsEach_map]
    exact returnsEach_bind_ok
  rw [parseLuaml_of_sections hlines hblock hsections, returns_bind]
  simp only [returns_extractExtension, true_and, Prod.forall, returns_bind, returns_collect,
    hclauses, returns_ok, implies_true, and_true]

inductive Comes (sourceName text : Str) : Str → Prop
  | base {fm rest value} : Opens sourceName text fm rest → HandsOn false fm value →
      Comes sourceName text value
  | child {fm rest value base pre b post} : Opens sourceName text fm rest →
      parseFrontmatterBlock fm false = .ok base →
      findClauseBoundaries rest = .ok (pre ++ b :: post) →
      (∀ b' ∈ pre, ∃ child, parseFrontmatterBlock (blockAt rest b') true = .ok child) →
      HandsOn true (blockAt rest b) value → Comes sourceName text value

theorem returns_parseLuaml (sourcePath : PathBuf) (text : Str) :
    (parseLuaml sourcePath text).Returns ↔
      ∀ value, Comes sourcePath.text text value → (Pattern.parsePatternValue value).Returns := by
  constructor
  · intro h value hcomes
    cases hcomes with
    | @base fm rest _ hopens hon =>
      obtain ⟨block, extension, hlines, hblock, hext⟩ := hopens
      obtain ⟨bs, hbs⟩ := findClauseBoundaries_isOk rest
      have hbase := ((parseLuaml_of_opened hlines hblock hbs).mp h extension _ hext).1
      exact (returns_parseFrontmatterBlock _ _).mp hbase value hon
    | @child fm rest _ base pre b post hopens hparse hbs hpre hon =>
      obtain ⟨block, extension, hlines, hblock, hext⟩ := hopens
      have heach := ((parseLuaml_of_opened hlines hblock hbs).mp h extension _ hext).2 _ hparse
      have hb := returnsEach_iff.mp heach pre b post rfl hpre
      exact (returns_parseFrontmatterBlock _ _).mp hb value hon
  · intro h
    by_cases hopen : ∃ block rest, lines text = dashes :: block ++ dashes :: rest ∧ dashes ∉ block
    · obtain ⟨block, rest, hlines, hblock⟩ := hopen
      obtain ⟨bs, hbs⟩ := findClauseBoundaries_isOk rest
      refine (parseLuaml_of_opened hlines hblock hbs).mpr fun extension fm hext => ?_
      have hopens : Opens sourcePath.text text fm rest := ⟨block, extension, hlines, hblock, hext⟩
      refine ⟨(returns_parseFrontmatterBlock _ _).mpr fun value hon => h value (.base hopens hon),
        fun base hbase => returnsEach_iff.mpr fun pre b post hsplit hpre => ?_⟩
      refine (returns_parseFrontmatterBlock _ _).mpr fun value hon => ?_
      exact h value (.child hopens hbase (hsplit ▸ hbs) hpre hon)
    · obtain ⟨message, herr, -⟩ := parseLuaml_of_unopened hopen sourcePath
      rw [herr]
      exact returns_err _

/-- Parsing ends with `Ok` or `Err`, and only recurs on shorter values, exactly when no value it
comes to is a lone quote or has brackets nested too deep to be counted. -/
theorem parseLuaml_safe_iff (sourcePath : PathBuf) (text : Str) :
    ((parseLuaml sourcePath text).Returns ∧
        ∀ f g input, (∀ v, byteLen v < byteLen input → f v = g v) →
          Pattern.parseValue f input = Pattern.parseValue g input) ↔
      ∀ field, Comes sourcePath.text text field →
        ∀ value, Pattern.Meets field value → Pattern.Readable value := by
  rw [returns_parseLuaml]
  simp only [Pattern.returns_parsePatternValue]
  refine and_iff_left fun f g input h => Pattern.parseValue_congr fun v hv => ?_
  exact h v (Pattern.byteLen_lt_of_mem_calls hv)

theorem parseLuaml_loneQuote_panics :
    ¬(parseLuaml ⟨"a.luaml".toList⟩ "---\nkey: \"\n---\n".toList).Returns := by
  have h : parseLuaml ⟨"a.luaml".toList⟩ "---\nkey: \"\n---\n".toList = .panic .slice := rfl
  rw [h]
  exact not_returns_panic _

end Luaml.Parser
