import Luaml.Sections

namespace Luaml.Parser

open Rust Str Res

def render (pairs : List (List Str × List Str)) : Str :=
  unlines ((sectionLines pairs).map fun l => (l, ['\n']))

/-- No line of the pair has an end of line in it, and no line of the body is a delimiter. -/
structure Writable (pair : List Str × List Str) : Prop where
  lf : ∀ l ∈ pair.1 ++ pair.2, '\n' ∉ l
  cr : ∀ l ∈ pair.1 ++ pair.2, '\r' ∉ l
  body : dashes ∉ pair.2

def Declares (block : List Str) : Prop :=
  ∃ pre l post, block = pre ++ l :: post ∧ (∀ b ∈ pre, trim b = []) ∧ trim l ≠ [] ∧
    (':' ∈ trim l ∨ startsWith (trim l) '?' ∨ startsWith (trim l) '@')

theorem looksLikeFrontmatter_iff (block : List Str) :
    looksLikeFrontmatter block ↔ Declares block := by
  induction block with
  | nil => simp [looksLikeFrontmatter, Declares]
  | cons l ls ih =>
    rw [looksLikeFrontmatter]
    simp only [List.isEmpty_iff]
    split_ifs with hblank
    · rw [ih]
      constructor
      · rintro ⟨pre, m, post, rfl, hpre, hm⟩
        exact ⟨l :: pre, m, post, rfl, List.forall_mem_cons.mpr ⟨hblank, hpre⟩, hm⟩
      · rintro ⟨pre, m, post, heq, hpre, hne, hm⟩
        cases pre with
        | nil =>
          obtain ⟨rfl, -⟩ := List.cons.inj heq
          exact absurd hblank hne
        | cons b pre =>
          obtain ⟨-, rfl⟩ := List.cons.inj heq
          exact ⟨pre, m, post, rfl, (List.forall_mem_cons.mp hpre).2, hne, hm⟩
    · constructor
      · intro h
        exact ⟨[], l, ls, rfl, by simp, hblank, by simpa [or_assoc] using h⟩
      · rintro ⟨pre, m, post, heq, hpre, hne, hm⟩
        cases pre with
        | nil =>
          obtain ⟨rfl, -⟩ := List.cons.inj heq
          simpa [or_assoc] using hm
        | cons b pre =>
          obtain ⟨rfl, -⟩ := List.cons.inj heq
          exact absurd (hpre _ (List.mem_cons_self ..)) hblank

theorem lines_render {pairs : List (List Str × List Str)} (h : ∀ p ∈ pairs, Writable p) :
    lines (render pairs) = sectionLines pairs := by
  have hline : ∀ l ∈ sectionLines pairs, '\n' ∉ l ∧ '\r' ∉ l := by
    intro l hl
    obtain ⟨⟨block, body⟩, hp, hl⟩ := List.mem_flatMap.mp hl
    have hw := h _ hp
    rcases List.mem_append.mp hl with hl | hl
    · rcases List.mem_cons.mp hl with rfl | hl
      · decide
      · exact ⟨hw.lf l (by simp [hl]), hw.cr l (by simp [hl])⟩
    · rcases List.mem_cons.mp hl with rfl | hl
      · decide
      · exact ⟨hw.lf l (by simp [hl]), hw.cr l (by simp [hl])⟩
  have hended : ∀ ls : List Str, (∀ l ∈ ls, '\n' ∉ l ∧ '\r' ∉ l) →
      Ended (ls.map fun l => (l, ['\n'])) := by
    intro ls hls
    induction ls with
    | nil => trivial
    | cons l ls ih =>
      obtain ⟨⟨hlf, hcr⟩, hls⟩ := List.forall_mem_cons.mp hls
      exact ⟨hlf, ih hls, .inl ⟨rfl, fun hlast => hcr (List.mem_of_getLast? hlast)⟩⟩
  rw [render, lines_unlines (hended _ hline), List.map_map]
  exact List.map_id' _

theorem notMem_of_parseFrontmatterBlock {block : List Str} {isChild : Bool} {b : FrontmatterBlock}
    (h : parseFrontmatterBlock block isChild = .ok b) : dashes ∉ block := by
  obtain ⟨st, hread, -⟩ := parseFrontmatterBlock_eq_ok.mp h
  clear h
  generalize Frontmatter.start = st₀ at hread
  induction block generalizing st₀ with
  | nil => simp
  | cons l ls ih =>
    simp only [Frontmatter.read, bind_eq_ok] at hread
    obtain ⟨form, hform, st₁, -, hread⟩ := hread
    rw [List.mem_cons, not_or]
    refine ⟨?_, ih _ hread⟩
    rintro rfl
    have herr : ∃ e, readLine dashes = .err e := ⟨_, rfl⟩
    obtain ⟨e, he⟩ := herr
    rw [he] at hform
    cases hform

theorem sections_sectionLines {body : List Str} {pairs : List (List Str × List Str)}
    (hbody : dashes ∉ body) (hbodies : ∀ p ∈ pairs, dashes ∉ p.2)
    (hblocks : ∀ p ∈ pairs, dashes ∉ p.1 ∧ looksLikeFrontmatter p.1) :
    Sections (body ++ sectionLines pairs) body pairs := by
  have hrest : Sections (sectionLines pairs) [] pairs := by
    induction pairs with
    | nil => exact .nil
    | cons p pairs ih =>
      obtain ⟨hp, hps⟩ := List.forall_mem_cons.mp hblocks
      obtain ⟨hb, hbs⟩ := List.forall_mem_cons.mp hbodies
      rw [sectionLines_cons p.1 p.2]
      exact .block hp.1 hp.2 (sections_append hb (ih hbs hps))
  exact sections_append hbody hrest

theorem reads_render {first : List Str × List Str} {pairs : List (List Str × List Str)}
    {base : FrontmatterBlock} (hwritable : ∀ p ∈ first :: pairs, Writable p)
    (hbase : parseFrontmatterBlock first.1 false = .ok base)
    (hblocks : ∀ p ∈ pairs, dashes ∉ p.1 ∧ looksLikeFrontmatter p.1) (sourceName : Str) :
    ∃ fm, Reads sourceName (render (first :: pairs)) none (fm, first.2) pairs ∧
      parseFrontmatterBlock fm false = .ok base := by
  obtain ⟨fm, hextension, hfm⟩ := extractExtension_of_accepted hbase sourceName
  have hfirst := hwritable first (List.mem_cons_self ..)
  have hsections : Sections (first.2 ++ sectionLines pairs) first.2 pairs :=
    sections_sectionLines hfirst.body (fun p hp => (hwritable p (List.mem_cons_of_mem _ hp)).body)
      hblocks
  have hlines : lines (render (first :: pairs)) =
      dashes :: first.1 ++ dashes :: (first.2 ++ sectionLines pairs) :=
    (lines_render hwritable).trans (sectionLines_cons first.1 first.2 pairs)
  exact ⟨fm, ⟨first.1, _, hlines, notMem_of_parseFrontmatterBlock hbase, hextension, hsections⟩,
    hfm⟩

/-- A rendered file is read back as one clause a pair: the first has the fields of the base, each
later one the fields merged from the base's and its own. -/
theorem parseLuaml_render {first : List Str × List Str} {pairs : List (List Str × List Str)}
    {base : FrontmatterBlock} {children : List FrontmatterBlock}
    (hwritable : ∀ p ∈ first :: pairs, Writable p)
    (hbase : parseFrontmatterBlock first.1 false = .ok base)
    (hchildren : List.Forall₂ (fun p child => parseFrontmatterBlock p.1 true = .ok child)
      pairs children)
    (hdeclares : ∀ p ∈ pairs, Declares p.1) (sourcePath : PathBuf) :
    ∃ script, parseLuaml sourcePath (render (first :: pairs)) = .ok script ∧
      script.clauses.map (fun c => (c.policy.fields, c.guard, c.behavior.luaSource)) =
        (base.fields, base.guard, join ['\n'] first.2) ::
          List.zipWith (fun p child =>
            (mergeFields base.fields child.fields, child.guard, join ['\n'] p.2))
            pairs children := by
  have hblocks : ∀ p ∈ pairs, dashes ∉ p.1 ∧ looksLikeFrontmatter p.1 := by
    intro p hp
    obtain ⟨child, -, hchild⟩ := exists_of_forall₂ hchildren hp
    exact ⟨notMem_of_parseFrontmatterBlock hchild,
      (looksLikeFrontmatter_iff p.1).mpr (hdeclares p hp)⟩
  obtain ⟨fm, hreads, hfm⟩ := reads_render hwritable hbase hblocks sourcePath.text
  refine ⟨⟨sourcePath, none, firstOf base first.2 ::
    List.zipWith (fun p child => childOf base child p.2) pairs children⟩, ?_, ?_⟩
  · exact parseLuaml_eq_ok.mpr
      ⟨(fm, first.2), pairs, base, children, hreads, hfm, hchildren, rfl, rfl⟩
  · rw [List.map_cons, List.map_zipWith]
    rfl

theorem parseLuaml_render_two :
    ∃ script, parseLuaml ⟨"a.luaml".toList⟩
        (render [(["k: $x".toList], ["f()".toList]), (["? x".toList], [])]) = .ok script ∧
      script.clauses.map (fun c => (c.policy.fields, c.guard, c.behavior.luaSource)) =
        [([("k".toList, .variable "x".toList)], none, "f()".toList),
          ([("k".toList, .variable "x".toList)], some "x".toList, [])] :=
  have hfirst : Writable (["k: $x".toList], ["f()".toList]) := ⟨by decide, by decide, by decide⟩
  have hsecond : Writable (["? x".toList], []) := ⟨by decide, by decide, by decide⟩
  have hdeclares : Declares ["? x".toList] := (looksLikeFrontmatter_iff _).mp (by decide)
  parseLuaml_render
    (List.forall_mem_cons.mpr ⟨hfirst, List.forall_mem_singleton.mpr hsecond⟩) rfl
    (.cons rfl .nil) (List.forall_mem_singleton.mpr hdeclares) _

/-- The first clause has a key that the base repeats as the base has it, and not as merging the
base into itself would. -/
theorem first_clause_not_merged :
    ¬∀ (first : List Str × List Str) (pairs : List (List Str × List Str))
      (base : FrontmatterBlock) (children : List FrontmatterBlock) (sourcePath : PathBuf),
      (∀ p ∈ first :: pairs, Writable p) → parseFrontmatterBlock first.1 false = .ok base →
        List.Forall₂ (fun p child => parseFrontmatterBlock p.1 true = .ok child) pairs children →
          (∀ p ∈ pairs, Declares p.1) →
            ∃ script, parseLuaml sourcePath (render (first :: pairs)) = .ok script ∧
              script.clauses.map (fun c => (c.policy.fields, c.guard, c.behavior.luaSource)) =
                List.zipWith (fun p block =>
                  (mergeFields base.fields block.fields, block.guard, join ['\n'] p.2))
                  (first :: pairs) (base :: children) := by
  intro h
  have hfirst : Writable (["k: $x".toList, "k: true".toList], []) :=
    ⟨by decide, by decide, by decide⟩
  have hwritable := List.forall_mem_singleton.mpr hfirst
  obtain ⟨script, hparse, hclauses⟩ := h _ [] _ [] ⟨"a.luaml".toList⟩ hwritable rfl .nil (by simp)
  obtain rfl := Res.ok.inj hparse
  have hvariables := congrArg
    (List.map fun c => Pattern.collectFieldVariables c.1) hclauses
  exact absurd hvariables (by decide)

end Luaml.Parser
