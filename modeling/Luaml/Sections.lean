import Luaml.Frontmatter

namespace Luaml.Parser

open Rust Str Res

/-- The first line opens the block of another clause. -/
def Opening (lines : List Str) : Prop :=
  ∃ block rest, lines = dashes :: block ++ dashes :: rest ∧ dashes ∉ block ∧
    looksLikeFrontmatter block

/-- The body that comes first, and the blocks with the bodies below them. -/
inductive Sections : List Str → List Str → List (List Str × List Str) → Prop
  | nil : Sections [] [] []
  | line {l ls body sections} : ¬Opening (l :: ls) → Sections ls body sections →
      Sections (l :: ls) (l :: body) sections
  | block {block rest body sections} : dashes ∉ block → looksLikeFrontmatter block →
      Sections rest body sections →
      Sections (dashes :: block ++ dashes :: rest) [] ((block, body) :: sections)

theorem block_unique {block block' rest rest' : List Str} (h : dashes ∉ block)
    (h' : dashes ∉ block') (heq : block ++ dashes :: rest = block' ++ dashes :: rest') :
    block = block' ∧ rest = rest' := by
  have hpos := congrArg position heq
  rw [position_append h, position_append h'] at hpos
  obtain ⟨hblock, hrest⟩ := List.append_inj heq (Option.some.inj hpos)
  exact ⟨hblock, (List.cons.inj hrest).2⟩

theorem exists_sections (lines : List Str) : ∃ body sections, Sections lines body sections := by
  induction hn : lines.length using Nat.strong_induction_on generalizing lines with
  | h n ih =>
    subst hn
    by_cases hopen : Opening lines
    · obtain ⟨block, rest, rfl, hblock, hlooks⟩ := hopen
      have hlen : rest.length < (dashes :: block ++ dashes :: rest).length := by
        simp only [List.cons_append, List.length_cons, List.length_append]
        omega
      obtain ⟨body, sections, h⟩ := ih _ hlen rest rfl
      exact ⟨[], (block, body) :: sections, .block hblock hlooks h⟩
    · cases lines with
      | nil => exact ⟨[], [], .nil⟩
      | cons l ls =>
        obtain ⟨body, sections, h⟩ := ih _ (Nat.lt_succ_self _) ls rfl
        exact ⟨l :: body, sections, .line hopen h⟩

def sectionLines (sections : List (List Str × List Str)) : List Str :=
  sections.flatMap fun (block, body) => dashes :: block ++ dashes :: body

theorem sectionLines_cons (block body : List Str) (sections : List (List Str × List Str)) :
    sectionLines ((block, body) :: sections) =
      dashes :: block ++ dashes :: (body ++ sectionLines sections) := by
  simp [sectionLines]

theorem Sections.lines_eq {lines body : List Str} {sections : List (List Str × List Str)}
    (h : Sections lines body sections) : lines = body ++ sectionLines sections := by
  induction h with
  | nil => rfl
  | line _ _ ih => rw [List.cons_append, ← ih]
  | block _ _ _ ih => rw [ih, sectionLines_cons, List.nil_append]

theorem Sections.blocks {lines body : List Str} {sections : List (List Str × List Str)}
    (h : Sections lines body sections) :
    ∀ s ∈ sections, dashes ∉ s.1 ∧ looksLikeFrontmatter s.1 := by
  induction h with
  | nil => simp
  | line _ _ ih => exact ih
  | block hblock hlooks _ ih => exact List.forall_mem_cons.mpr ⟨⟨hblock, hlooks⟩, ih⟩

theorem Sections.tail {lines body : List Str} {s : List Str × List Str}
    {sections : List (List Str × List Str)} (h : Sections lines body (s :: sections)) :
    Sections (s.2 ++ sectionLines sections) s.2 sections := by
  generalize hs : s :: sections = ss at h
  induction h with
  | nil => simp at hs
  | line _ _ ih => exact ih hs
  | block _ _ hrest _ =>
    obtain ⟨rfl, rfl⟩ := List.cons.inj hs
    rwa [← hrest.lines_eq]

theorem sections_append {lines body : List Str} {sections : List (List Str × List Str)}
    (hbody : dashes ∉ body) (h : Sections lines [] sections) :
    Sections (body ++ lines) body sections := by
  induction body with
  | nil => exact h
  | cons l body ih =>
    obtain ⟨hl, hbody⟩ := not_or.mp (fun hor => hbody (List.mem_cons.mpr hor))
    refine .line ?_ (ih hbody)
    rintro ⟨block, rest, heq, -, -⟩
    exact hl (List.cons.inj heq).1.symm

def starts (i : Nat) (body : List Str) : List (List Str × List Str) → List Nat
  | [] => []
  | (block, next) :: sections =>
    (i + body.length) :: starts (i + body.length + block.length + 2) next sections

theorem starts_cons (i : Nat) (l : Str) (body : List Str)
    (sections : List (List Str × List Str)) :
    starts i (l :: body) sections = starts (i + 1) body sections := by
  cases sections with
  | nil => rfl
  | cons s sections => simp only [starts, List.length_cons, Nat.add_assoc, Nat.add_comm 1]

section Slices

variable {ε : Type} {lines block rest : List Str} {l : Str} {ls : List Str} {i : Nat}

theorem drop_eq_cons (h : lines.drop i = l :: ls) :
    i < lines.length ∧ (getList lines i : Res ε Str) = .ok l ∧ lines.drop (i + 1) = ls := by
  have hi : i < lines.length := by
    by_contra hge
    rw [List.drop_eq_nil_of_le (Nat.le_of_not_lt hge)] at h
    exact absurd h (by simp)
  rw [List.drop_eq_getElem_cons hi] at h
  obtain ⟨hl, hls⟩ := List.cons.inj h
  exact ⟨hi, by simp [getList, List.getElem?_eq_getElem hi, hl], hls⟩

theorem sliceList_drop (hi : i ≤ lines.length) :
    (sliceList lines i lines.length : Res ε (List Str)) = .ok (lines.drop i) := by
  rw [sliceList_ok hi (Nat.le_refl _), List.take_of_length_le (by simp)]

theorem sliceList_block (h : lines.drop i = block ++ rest) (hi : i ≤ lines.length) :
    (sliceList lines i (i + block.length) : Res ε (List Str)) = .ok block := by
  have hlen := congrArg List.length h
  simp only [List.length_drop, List.length_append] at hlen
  rw [sliceList_ok (by omega) (by omega), h, Nat.add_sub_cancel_left, List.take_left]

end Slices

theorem boundariesFrom_of_sections {lines body : List Str}
    {sections : List (List Str × List Str)} {i n : Nat}
    (h : Sections (lines.drop i) body sections) (hn : lines.length - i < n) :
    boundariesFrom lines n i = .ok (starts i body sections) := by
  generalize hxs : lines.drop i = xs at h
  induction h generalizing i n with
  | nil =>
    obtain ⟨n, rfl⟩ : ∃ k, n = k + 1 := ⟨n - 1, by omega⟩
    have hi : ¬i < lines.length := by simpa using hxs
    rw [boundariesFrom, if_neg hi]
    rfl
  | @line l ls body sections hopen hsections ih =>
    obtain ⟨n, rfl⟩ : ∃ k, n = k + 1 := ⟨n - 1, by omega⟩
    obtain ⟨hi, hget, hdrop⟩ := drop_eq_cons hxs
    have hrest : boundariesFrom lines n (i + 1) = .ok (starts i (l :: body) sections) := by
      rw [starts_cons]
      exact ih (by omega) hdrop
    rw [boundariesFrom, if_pos hi, hget, ok_bind, sliceList_drop (by omega), hdrop]
    by_cases hl : l = dashes
    · simp only [if_pos hl, ok_bind]
      cases hclose : position ls with
      | none => exact hrest
      | some close =>
        obtain ⟨block, rest, rfl, hblock, rfl⟩ := position_eq_some hclose
        have hlooks : ¬looksLikeFrontmatter block = true := fun hlooks =>
          hopen ⟨block, rest, by rw [hl]; rfl, hblock, hlooks⟩
        simp only [sliceList_block hdrop (by omega), ok_bind, if_neg hlooks, hrest]
    · simp only [if_neg hl, ok_bind, hrest]
  | @block block rest body sections hblock hlooks hsections ih =>
    obtain ⟨n, rfl⟩ : ∃ k, n = k + 1 := ⟨n - 1, by omega⟩
    rw [List.cons_append] at hxs
    obtain ⟨hi, hget, hdrop⟩ := drop_eq_cons hxs
    have hafter : lines.drop (i + 1 + block.length + 1) = rest := by
      rw [Nat.add_assoc (i + 1), ← List.drop_drop, hdrop]
      simp
    have hlen := congrArg List.length hdrop
    simp only [List.length_drop, List.length_append, List.length_cons] at hlen
    rw [boundariesFrom, if_pos hi, hget, ok_bind, sliceList_drop (by omega), hdrop]
    simp only [if_true, ok_bind, position_append hblock, sliceList_block hdrop (by omega), hlooks,
      ih (i := i + 1 + block.length + 1) (n := n) (by omega) hafter]
    simp only [starts, List.length_nil, Nat.add_zero, Nat.add_right_comm i 1]

theorem findClauseBoundaries_of_sections {lines body : List Str}
    {sections : List (List Str × List Str)} (h : Sections lines body sections) :
    findClauseBoundaries lines = .ok (starts 0 body sections) :=
  boundariesFrom_of_sections (i := 0) h (by omega)

theorem findClauseBoundaries_isOk (lines : List Str) :
    ∃ bs, findClauseBoundaries lines = .ok bs := by
  obtain ⟨body, sections, h⟩ := exists_sections lines
  exact ⟨_, findClauseBoundaries_of_sections h⟩

theorem extensionLines_of_accepted {block : List Str} {isChild : Bool} {b : FrontmatterBlock}
    (h : parseFrontmatterBlock block isChild = .ok b) (sourceName : Str) (extension : Option Str)
    (consumed : Nat) :
    ∃ pre fm, block = pre ++ fm ∧ parseFrontmatterBlock fm isChild = .ok b ∧
      extensionLines sourceName extension consumed block =
        .ok (extension, consumed + pre.length) := by
  induction block generalizing consumed with
  | nil => exact ⟨[], [], rfl, h, rfl⟩
  | cons l ls ih =>
    obtain ⟨st, hread, hfinish⟩ := parseFrontmatterBlock_eq_ok.mp h
    simp only [Frontmatter.read, bind_eq_ok] at hread
    obtain ⟨form, hform, st₁, htake, hread⟩ := hread
    rw [extensionLines]
    by_cases hblank : (trim l).isEmpty
    · obtain rfl : Line.blank = form := by simpa [readLine, hblank] using hform
      obtain rfl := Res.ok.inj htake
      obtain ⟨pre, fm, rfl, hfm, heq⟩ :=
        ih (parseFrontmatterBlock_eq_ok.mpr ⟨st, hread, hfinish⟩) (consumed + 1)
      refine ⟨l :: pre, fm, rfl, hfm, ?_⟩
      simp only [hblank, if_true, heq, List.length_cons]
      congr 2
      omega
    · refine ⟨[], l :: ls, rfl, h, ?_⟩
      have hbang : stripPrefix '!' (trim l) = none := by
        rw [stripPrefix_eq_none, Bool.eq_false_iff]
        intro hbang
        simp [readLine, hblank, hbang] at hform
      simp only [hblank, hbang]
      rfl

theorem extractExtension_of_accepted {block : List Str} {isChild : Bool} {b : FrontmatterBlock}
    (h : parseFrontmatterBlock block isChild = .ok b) (sourceName : Str) :
    ∃ fm, extractExtension block sourceName = .ok (none, fm) ∧
      parseFrontmatterBlock fm isChild = .ok b := by
  obtain ⟨pre, fm, rfl, hfm, heq⟩ := extensionLines_of_accepted h sourceName none 0
  refine ⟨fm, ?_, hfm⟩
  have hdrop : (pre ++ fm).drop pre.length = fm := List.drop_left
  rw [extractExtension, heq, ok_bind]
  simp only [Nat.zero_add, sliceList_drop (show pre.length ≤ (pre ++ fm).length by simp), hdrop,
    ok_bind]

def firstOf (base : FrontmatterBlock) (body : List Str) : Clause where
  policy := ⟨base.fields⟩
  guard := base.guard
  behavior := ⟨join ['\n'] body⟩
  annotations := base.annotations
  fieldAnnotations := base.fieldAnnotations

def childOf (base child : FrontmatterBlock) (body : List Str) : Clause where
  policy := ⟨mergeFields base.fields child.fields⟩
  guard := child.guard
  behavior := ⟨join ['\n'] body⟩
  annotations := child.annotations
  fieldAnnotations := mergeFieldAnnotations base.fieldAnnotations child.fieldAnnotations
    (mergeFields base.fields child.fields)

def sectionClause (base : FrontmatterBlock) (s : List Str × List Str) : Res LuamlError Clause := do
  let child ← parseFrontmatterBlock s.1 true
  .ok (childOf base child s.2)

theorem childClause_of_section {rest block body more : List Str} {boundaries : List Nat} {i b : Nat}
    (h : rest.drop b = dashes :: block ++ dashes :: (body ++ more)) (hblock : dashes ∉ block)
    (hend : boundaries[i + 1]?.getD rest.length = b + 1 + block.length + 1 + body.length)
    (sourceName : Str) (base : FrontmatterBlock) :
    childClause sourceName rest boundaries base i b = sectionClause base (block, body) := by
  rw [List.cons_append] at h
  obtain ⟨hb, -, hdrop⟩ := drop_eq_cons (ε := LuamlError) h
  have hafter : rest.drop (b + 1 + block.length + 1) = body ++ more := by
    rw [Nat.add_assoc (b + 1), ← List.drop_drop, hdrop]
    simp
  have hlen := congrArg List.length hdrop
  simp only [List.length_drop, List.length_append, List.length_cons] at hlen
  rw [childClause]
  simp only [sliceList_drop (show b + 1 ≤ rest.length by omega), ok_bind, hdrop,
    position_append hblock, sliceList_block hdrop (by omega), hend,
    sliceList_block hafter (by omega)]
  rfl

theorem Sections.end_eq {lines body : List Str} {sections : List (List Str × List Str)}
    (h : Sections lines body sections) (i : Nat) :
    (starts i body sections).head?.getD (i + lines.length) = i + body.length := by
  cases sections with
  | nil => simp [starts, h.lines_eq, sectionLines]
  | cons s sections => rfl

theorem collect_childClause {rest body : List Str} {sections : List (List Str × List Str)}
    {i : Nat} (pre : List Nat) (h : Sections (rest.drop i) body sections) (hi : i ≤ rest.length)
    (sourceName : Str) (base : FrontmatterBlock) :
    collect (fun (boundaryStart, j) =>
        childClause sourceName rest (pre ++ starts i body sections) base j boundaryStart)
        ((starts i body sections).zipIdx pre.length) =
      collect (sectionClause base) sections := by
  induction sections generalizing i body pre with
  | nil => rfl
  | cons s sections ih =>
    obtain ⟨block, next⟩ := s
    have hblock := (h.blocks _ (List.mem_cons_self ..)).1
    have hdrop : rest.drop (i + body.length) =
        dashes :: block ++ dashes :: (next ++ sectionLines sections) := by
      rw [← List.drop_drop, h.lines_eq, List.drop_left, sectionLines_cons]
    have htail : rest.drop (i + body.length + block.length + 2) =
        next ++ sectionLines sections := by
      rw [Nat.add_assoc (i + body.length), ← List.drop_drop, hdrop]
      simp [List.drop_append]
    have hnext : Sections (rest.drop (i + body.length + block.length + 2)) next sections := by
      rw [htail]
      exact h.tail
    have hlen := congrArg List.length hdrop
    simp only [List.length_drop, List.length_append, List.length_cons] at hlen
    have hend : (pre ++ starts i body ((block, next) :: sections))[pre.length + 1]?.getD
        rest.length = i + body.length + 1 + block.length + 1 + next.length := by
      have hlast := hnext.end_eq (i + body.length + block.length + 2)
      rw [List.length_drop, Nat.add_sub_cancel' (by omega)] at hlast
      rw [List.getElem?_append_right (by omega), Nat.add_sub_cancel_left, starts]
      simp only [List.getElem?_cons_succ, ← List.head?_eq_getElem?, hlast]
      omega
    have hrest := ih (pre ++ [i + body.length]) hnext (by omega)
    rw [List.append_assoc, List.singleton_append, List.length_append,
      List.length_singleton] at hrest
    rw [collect_cons, ← hrest]
    simp only [starts, List.zipIdx_cons, collect_cons] at hend ⊢
    rw [childClause_of_section hdrop hblock hend]

theorem parseLuaml_of_sections {text : Str} {block rest body : List Str}
    {sections : List (List Str × List Str)}
    (hlines : lines text = dashes :: block ++ dashes :: rest) (hblock : dashes ∉ block)
    (h : Sections rest body sections) (sourcePath : PathBuf) :
    parseLuaml sourcePath text =
      extractExtension block sourcePath.text >>= fun (extension, fm) =>
        parseFrontmatterBlock fm false >>= fun base =>
          collect (sectionClause base) sections >>= fun children =>
            .ok ⟨sourcePath, extension, firstOf base body :: children⟩ := by
  have hfirst : (getList (lines text) 0 : Res LuamlError Str) = .ok dashes := by
    rw [hlines]
    rfl
  have hopen : (lines text).isEmpty = false := by rw [hlines]; rfl
  have hne : (!(dashes == dashes)) = false := by simp
  have hafter : (lines text).drop 1 = block ++ dashes :: rest := by rw [hlines]; rfl
  have hdrop : (lines text).drop (block.length + 1 + 1) = rest := by
    rw [Nat.add_assoc, Nat.add_comm, ← List.drop_drop, Nat.add_comm 1 1, ← List.drop_drop, hafter]
    simp
  have hlen := congrArg List.length hlines
  simp only [List.cons_append, List.length_cons, List.length_append] at hlen
  have hstart : Sections (rest.drop 0) body sections := h
  have hfm : (sliceList (lines text) 1 (block.length + 1) : Res LuamlError (List Str)) =
      .ok block := by
    rw [Nat.add_comm]
    exact sliceList_block hafter (by omega)
  have hbodyEnd := h.end_eq 0
  rw [Nat.zero_add, Nat.zero_add] at hbodyEnd
  have hbody : (sliceList rest 0 (0 + body.length) : Res LuamlError (List Str)) = .ok body :=
    sliceList_block h.lines_eq (Nat.zero_le _)
  rw [Nat.zero_add] at hbody
  have hclauses := fun base => collect_childClause [] hstart (Nat.zero_le _) sourcePath.text base
  simp only [List.nil_append, List.length_nil] at hclauses
  rw [parseLuaml]
  simp only [hopen, hfirst, ok_bind, Bool.false_eq_true, if_false, hne,
    sliceList_drop (show 1 ≤ (lines text).length by omega), hafter, position_append hblock, hfm,
    sliceList_drop (show block.length + 1 + 1 ≤ (lines text).length by omega), hdrop,
    findClauseBoundaries_of_sections h, hbodyEnd, hbody, hclauses]
  rfl

/-- The text as blocks with their bodies: the first block, below any `!` declaration, and those of
the other clauses. -/
structure Reads (sourceName text : Str) (extension : Option Str)
    (first : List Str × List Str) (sections : List (List Str × List Str)) : Prop where
  opens : ∃ block rest, lines text = dashes :: block ++ dashes :: rest ∧ dashes ∉ block ∧
    extractExtension block sourceName = .ok (extension, first.1) ∧ Sections rest first.2 sections

theorem parseLuaml_of_reads {sourcePath : PathBuf} {text : Str} {extension : Option Str}
    {first : List Str × List Str} {sections : List (List Str × List Str)}
    (h : Reads sourcePath.text text extension first sections) :
    parseLuaml sourcePath text =
      parseFrontmatterBlock first.1 false >>= fun base =>
        collect (sectionClause base) sections >>= fun children =>
          .ok ⟨sourcePath, extension, firstOf base first.2 :: children⟩ := by
  obtain ⟨block, rest, hlines, hblock, hextension, hsections⟩ := h.opens
  rw [parseLuaml_of_sections hlines hblock hsections, hextension]
  rfl

theorem parseLuaml_of_unopened {text : Str}
    (h : ¬∃ block rest, lines text = dashes :: block ++ dashes :: rest ∧ dashes ∉ block)
    (sourcePath : PathBuf) :
    ∃ message, parseLuaml sourcePath text = .err (.parse message sourcePath.text) ∧
      message.head? = some 'l' := by
  rw [parseLuaml]
  cases hlines : lines text with
  | nil =>
    simp only [List.isEmpty_nil, if_true, ok_bind, Bool.not_false]
    exact ⟨_, rfl, by simp⟩
  | cons l ls =>
    have hfirst : (getList (l :: ls) 0 : Res LuamlError Str) = .ok l := rfl
    simp only [List.isEmpty_cons, Bool.false_eq_true, if_false, hfirst, ok_bind]
    split_ifs with hopen
    · exact ⟨_, rfl, by simp⟩
    · obtain rfl : l = dashes := by simpa using hopen
      simp only [sliceList_drop (show 1 ≤ (dashes :: ls).length by simp), List.drop_succ_cons,
        List.drop_zero, ok_bind]
      cases hpos : position ls with
      | none => exact ⟨_, rfl, by simp⟩
      | some i =>
        obtain ⟨block, rest, rfl, hblock, -⟩ := position_eq_some hpos
        exact absurd ⟨block, rest, hlines, hblock⟩ h

theorem opened_of_parseLuaml {sourcePath : PathBuf} {text : Str} {script : Script}
    (h : parseLuaml sourcePath text = .ok script) :
    ∃ block rest, lines text = dashes :: block ++ dashes :: rest ∧ dashes ∉ block := by
  by_contra hopen
  obtain ⟨message, herr, -⟩ := parseLuaml_of_unopened hopen sourcePath
  exact absurd (herr.symm.trans h) (by simp)

/-- The blocks of a text that is accepted, with their bodies, and what they are parsed to. -/
structure Accepted (sourcePath : PathBuf) (text : Str) (script : Script)
    (first : List Str × List Str) (sections : List (List Str × List Str))
    (base : FrontmatterBlock) (children : List FrontmatterBlock) : Prop where
  reads : Reads sourcePath.text text script.extension first sections
  parsesBase : parseFrontmatterBlock first.1 false = .ok base
  parsesChildren : List.Forall₂ (fun s child => parseFrontmatterBlock s.1 true = .ok child)
    sections children
  sourcePath_eq : script.sourcePath = sourcePath
  clauses_eq : script.clauses = firstOf base first.2 ::
    List.zipWith (fun s child => childOf base child s.2) sections children

theorem collect_sectionClause {base : FrontmatterBlock} {sections : List (List Str × List Str)}
    {clauses : List Clause} :
    collect (sectionClause base) sections = .ok clauses ↔
      ∃ children, List.Forall₂ (fun s child => parseFrontmatterBlock s.1 true = .ok child)
          sections children ∧
        clauses = List.zipWith (fun s child => childOf base child s.2) sections children := by
  rw [collect_eq_ok]
  induction sections generalizing clauses with
  | nil => simp
  | cons s sections ih =>
    simp only [List.forall₂_cons_left_iff, ih]
    simp only [sectionClause, bind_eq_ok, Res.ok.injEq]
    constructor
    · rintro ⟨_, _, ⟨child, hchild, rfl⟩, ⟨children, hchildren, rfl⟩, rfl⟩
      exact ⟨child :: children, ⟨child, children, hchild, hchildren, rfl⟩, rfl⟩
    · rintro ⟨_, ⟨child, children, hchild, hchildren, rfl⟩, rfl⟩
      exact ⟨_, _, ⟨child, hchild, rfl⟩, ⟨children, hchildren, rfl⟩, rfl⟩

theorem parseLuaml_eq_ok {sourcePath : PathBuf} {text : Str} {script : Script} :
    parseLuaml sourcePath text = .ok script ↔
      ∃ first sections base children,
        Accepted sourcePath text script first sections base children := by
  constructor
  · intro h
    obtain ⟨block, rest, hlines, hblock⟩ := opened_of_parseLuaml h
    obtain ⟨body, sections, hsections⟩ := exists_sections rest
    rw [parseLuaml_of_sections hlines hblock hsections] at h
    obtain ⟨⟨extension, fm⟩, hextension, h⟩ := bind_eq_ok.mp h
    obtain ⟨base, hbase, h⟩ := bind_eq_ok.mp h
    obtain ⟨clauses, hclauses, h⟩ := bind_eq_ok.mp h
    obtain ⟨children, hchildren, rfl⟩ := collect_sectionClause.mp hclauses
    obtain rfl := Res.ok.inj h
    exact ⟨(fm, body), sections, base, children,
      ⟨⟨block, rest, hlines, hblock, hextension, hsections⟩⟩, hbase, hchildren, rfl, rfl⟩
  · rintro ⟨first, sections, base, children, hreads, hbase, hchildren, rfl, hclauses⟩
    have hcollect : collect (sectionClause base) sections = .ok _ :=
      collect_sectionClause.mpr ⟨children, hchildren, rfl⟩
    rw [parseLuaml_of_reads hreads, hbase, ok_bind, hcollect, ok_bind, ← hclauses]

def bodies (body : List Str) (sections : List (List Str × List Str)) : List (List Str) :=
  body :: sections.map Prod.snd

theorem map_luaSource_childOf {base : FrontmatterBlock} {R : _ → _ → Prop}
    {sections : List (List Str × List Str)} {children : List FrontmatterBlock}
    (h : List.Forall₂ R sections children) :
    (List.zipWith (fun s child => childOf base child s.2) sections children).map
        (fun c => c.behavior.luaSource) = (sections.map Prod.snd).map (join ['\n']) := by
  induction h with
  | nil => rfl
  | cons _ _ ih =>
    rw [List.zipWith_cons_cons, List.map_cons, ih]
    rfl

theorem sources_of_sections {sourcePath : PathBuf} {text : Str} {script : Script}
    {block rest body : List Str} {sections : List (List Str × List Str)}
    (hparse : parseLuaml sourcePath text = .ok script)
    (hlines : lines text = dashes :: block ++ dashes :: rest) (hblock : dashes ∉ block)
    (h : Sections rest body sections) :
    script.clauses.map (fun c => c.behavior.luaSource) =
      (bodies body sections).map (join ['\n']) := by
  rw [parseLuaml_of_sections hlines hblock h] at hparse
  obtain ⟨⟨extension, fm⟩, -, hparse⟩ := bind_eq_ok.mp hparse
  obtain ⟨base, -, hparse⟩ := bind_eq_ok.mp hparse
  obtain ⟨clauses, hclauses, hparse⟩ := bind_eq_ok.mp hparse
  obtain ⟨children, hchildren, rfl⟩ := collect_sectionClause.mp hclauses
  obtain rfl := Res.ok.inj hparse
  rw [List.map_cons, map_luaSource_childOf hchildren]
  rfl

section Accepted

variable {sourcePath : PathBuf} {text : Str} {script : Script} {first : List Str × List Str}
  {sections : List (List Str × List Str)} {base : FrontmatterBlock}
  {children : List FrontmatterBlock}

theorem Accepted.child_of_clause {i : Nat} {clause : Clause}
    (h : Accepted sourcePath text script first sections base children)
    (hclause : script.clauses[i + 1]? = some clause) :
    ∃ s child, sections[i]? = some s ∧ children[i]? = some child ∧
      childOf base child s.2 = clause := by
  rw [h.clauses_eq, List.getElem?_cons_succ, List.getElem?_zipWith] at hclause
  cases hs : sections[i]? with
  | none => simp [hs] at hclause
  | some s =>
    cases hchild : children[i]? with
    | none => simp [hs, hchild] at hclause
    | some child => exact ⟨s, child, rfl, rfl, by simpa [hs, hchild] using hclause⟩

theorem Accepted.forall_clause
    (h : Accepted sourcePath text script first sections base children)
    {P : List (Str × Pattern) → Prop} :
    (∀ clause ∈ script.clauses, P clause.policy.fields) ↔
      P base.fields ∧ ∀ child ∈ children, P (mergeFields base.fields child.fields) := by
  have hparses := h.parsesChildren
  rw [h.clauses_eq, List.forall_mem_cons]
  apply and_congr_right
  intro _
  clear h
  induction hparses with
  | nil => simp
  | cons _ _ ih => rw [List.zipWith_cons_cons, List.forall_mem_cons, List.forall_mem_cons, ih]; rfl

end Accepted

end Luaml.Parser
