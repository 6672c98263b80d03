import Luaml.Sections

namespace Luaml.Parser

open Rust Str Res

def NotUnclosed (e : LuamlError) : Prop :=
  ∀ message sourceName, e = .parse message sourceName → message.head? ≠ some 'm'

theorem fails_parse {α : Type} {message : Str} (h : message.head? ≠ some 'm') (sourceName : Str) :
    Fails NotUnclosed (.err (.parse message sourceName) : Res LuamlError α) := by
  refine fails_err.mpr fun m s heq => ?_
  rwa [← (LuamlError.parse.inj heq).1]

theorem fails_readLine (line : Str) : Fails NotUnclosed (readLine line) := by
  simp only [readLine]
  split_ifs
  · exact fails_ok _
  · exact fails_parse (by simp) _
  · split
    · split
      · exact fails_parse (by simp) _
      · exact fails_ok _
    · split_ifs
      · exact fails_parse (by simp) _
      · exact fails_ok _
    · split
      · exact fails_parse (by simp) _
      · split_ifs
        · exact fails_parse (by simp) _
        · exact fails_ok _

theorem fails_take (isChild : Bool) (st : Frontmatter) (form : Line) :
    Fails NotUnclosed (st.take isChild form) := by
  cases form with
  | field key value =>
    refine Fails.bind ?_ fun pattern => fails_ok _
    cases Pattern.parsePatternValue value with
    | ok pattern => exact fails_ok _
    | err e => exact fails_err.mpr fun message sourceName heq => by cases heq
    | panic c => exact fails_panic c
  | _ => exact fails_ok _

theorem fails_read (isChild : Bool) (st : Frontmatter) (block : List Str) :
    Fails NotUnclosed (st.read isChild block) := by
  induction block generalizing st with
  | nil => exact fails_ok _
  | cons line block ih =>
    exact (fails_readLine line).bind fun form => (fails_take isChild st form).bind ih

theorem fails_parseFrontmatterBlock (block : List Str) (isChild : Bool) :
    Fails NotUnclosed (parseFrontmatterBlock block isChild) :=
  (fails_read isChild .start block).bind fun _ => fails_ok _

theorem fails_extensionLines (sourceName : Str) (extension : Option Str) (consumed : Nat)
    (block : List Str) :
    Fails NotUnclosed (extensionLines sourceName extension consumed block) := by
  induction block generalizing extension consumed with
  | nil => exact fails_ok _
  | cons line block ih =>
    rw [extensionLines]
    by_cases hblank : (trim line).isEmpty
    · simp only [if_pos hblank]
      exact ih _ _
    · simp only [if_neg hblank]
      cases stripPrefix '!' (trim line) with
      | none => exact fails_ok _
      | some name =>
        dsimp only
        split_ifs
        · exact fails_parse (by simp) _
        · exact fails_parse (by simp) _
        · exact ih _ _

theorem fails_extractExtension (block : List Str) (sourceName : Str) :
    Fails NotUnclosed (extractExtension block sourceName) := by
  refine (fails_extensionLines sourceName none 0 block).bind fun r => ?_
  refine Fails.bind ?_ fun rest => fails_ok _
  rw [sliceList]
  split_ifs
  · exact fails_ok _
  · exact fails_panic _

theorem fails_parseLuaml (sourcePath : PathBuf) (text : Str) :
    Fails NotUnclosed (parseLuaml sourcePath text) := by
  by_cases hopen : ∃ block rest, lines text = dashes :: block ++ dashes :: rest ∧ dashes ∉ block
  · obtain ⟨block, rest, hlines, hblock⟩ := hopen
    obtain ⟨body, sections, hsections⟩ := exists_sections rest
    rw [parseLuaml_of_sections hlines hblock hsections]
    refine (fails_extractExtension block _).bind fun r => ?_
    refine (fails_parseFrontmatterBlock r.2 false).bind fun base => ?_
    refine Fails.bind (Fails.collect fun s => ?_) fun children => fails_ok _
    exact (fails_parseFrontmatterBlock s.1 true).bind fun child => fails_ok _
  · obtain ⟨message, herr, hhead⟩ := parseLuaml_of_unopened hopen sourcePath
    rw [herr]
    exact fails_parse (by simp [hhead]) _

def Unopened (sections : List (List Str × List Str)) : Prop :=
  ∀ pre s post, sections = pre ++ s :: post → ∀ above below, s.2 = above ++ below → below ≠ [] →
    ¬Opening (below ++ sectionLines post)

theorem Sections.body_unopened {lines body : List Str} {sections : List (List Str × List Str)}
    (h : Sections lines body sections) {above below : List Str} (hbody : body = above ++ below)
    (hne : below ≠ []) : ¬Opening (below ++ sectionLines sections) := by
  induction h generalizing above with
  | nil => exact absurd (List.append_eq_nil_iff.mp hbody.symm).2 hne
  | block => exact absurd (List.append_eq_nil_iff.mp hbody.symm).2 hne
  | @line l ls body sections hopen hsections ih =>
    cases above with
    | nil =>
      rw [List.nil_append] at hbody
      rw [← hbody, List.cons_append, ← hsections.lines_eq]
      exact hopen
    | cons a above => exact ih (List.cons.inj hbody).2

theorem Sections.unopened {lines body : List Str} {sections : List (List Str × List Str)}
    (h : Sections lines body sections) (block : List Str) :
    Unopened ((block, body) :: sections) := by
  intro pre s post heq
  induction sections generalizing lines body block pre with
  | nil =>
    cases pre with
    | nil =>
      obtain ⟨rfl, rfl⟩ := List.cons.inj heq
      exact fun _ _ hbody hne => h.body_unopened hbody hne
    | cons p pre =>
      have hnil := (List.cons.inj heq).2
      simp at hnil
  | cons s' sections ih =>
    cases pre with
    | nil =>
      obtain ⟨rfl, rfl⟩ := List.cons.inj heq
      exact fun _ _ hbody hne => h.body_unopened hbody hne
    | cons p pre => exact ih h.tail s'.1 pre (List.cons.inj heq).2

/-- The lines of a text that is accepted are the blocks and the bodies of its clauses, each of them
between delimiters: those below the first body open what looks like a block, and no other line does.
The clauses are what their own block and the first say.  There is no text of which a later block is
found not to be closed. -/
theorem parseLuaml_lines (sourcePath : PathBuf) (text : Str) :
    (∀ script, parseLuaml sourcePath text = .ok script →
      ∃ first sections, lines text = sectionLines (first :: sections) ∧
        (∀ s ∈ first :: sections, dashes ∉ s.1) ∧
        script.clauses.length = (first :: sections).length ∧
        (script.clauses.map fun c => c.behavior.luaSource) =
          ((first :: sections).map fun s => join ['\n'] s.2) ∧
        (∀ s ∈ sections, looksLikeFrontmatter s.1) ∧ Unopened (first :: sections) ∧
        ∃ block base children,
          extractExtension first.1 sourcePath.text = .ok (script.extension, block) ∧
          parseFrontmatterBlock block false = .ok base ∧
          List.Forall₂ (fun s child => parseFrontmatterBlock s.1 true = .ok child) sections
            children ∧
          script.clauses = firstOf base first.2 ::
            List.zipWith (fun s child => childOf base child s.2) sections children) ∧
      ∀ (n : Nat) (sourceName : Str), parseLuaml sourcePath text ≠
        .err (.parse ("multi-clause block ".toList ++ (Nat.repr n).toList ++
          " did not close frontmatter with ---".toList) sourceName) := by
  constructor
  · intro script hparse
    obtain ⟨below, sections, base, children, haccepted⟩ := parseLuaml_eq_ok.mp hparse
    obtain ⟨block, rest, hlines, hblock, hextension, hsections⟩ := haccepted.reads.opens
    have hsources := sources_of_sections hparse hlines hblock hsections
    have hlength := congrArg List.length hsources
    rw [List.length_map, List.length_map] at hlength
    refine ⟨(block, below.2), sections, ?_, ?_, ?_, ?_, fun s hs => (hsections.blocks s hs).2,
      hsections.unopened block, below.1, base, children, hextension, haccepted.parsesBase,
      haccepted.parsesChildren, haccepted.clauses_eq⟩
    · rw [sectionLines_cons, ← hsections.lines_eq, hlines]
    · exact List.forall_mem_cons.mpr ⟨hblock, fun s hs => (hsections.blocks s hs).1⟩
    · rw [hlength, bodies, List.length_cons, List.length_map, List.length_cons]
    · rw [hsources, bodies, List.map_cons, List.map_map]
      rfl
  · intro n sourceName herr
    exact fails_parseLuaml sourcePath text _ herr _ sourceName rfl rfl

end Luaml.Parser
