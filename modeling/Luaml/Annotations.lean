import Luaml.Sections

namespace Luaml.Parser

open Rust Str Res

def isNote (line : Str) : Bool := startsWith (trim line) '@'

/-- The block below a `---` line, if `ls` are the lines below it, is that of a clause. -/
def opensBlock (ls : List Str) : Bool :=
  (position ls).any fun close => looksLikeFrontmatter (ls.take close)

/-- The lines but the annotations in blocks; `inBlock` says whether the first line is in a block. -/
def dropNotes {α : Type} (line : α → Str) : Bool → List α → List α
  | _, [] => []
  | true, x :: xs =>
    if line x = dashes then x :: dropNotes line false xs
    else if isNote (line x) then dropNotes line true xs
    else x :: dropNotes line true xs
  | false, x :: xs =>
    x :: dropNotes line (decide (line x = dashes) && opensBlock (xs.map line)) xs

/-- The text from which the `@` lines of its blocks are deleted, with their ends of line. -/
def withoutNotes (text : Str) : Str :=
  match rawLines text with
  | [] => []
  | x :: xs => unlines (x :: dropNotes Prod.fst true xs)

def stripNotes (block : List Str) : List Str := block.filter fun l => !isNote l

def stripSection (s : List Str × List Str) : List Str × List Str := (stripNotes s.1, s.2)

theorem not_mem_stripNotes {block : List Str} (h : dashes ∉ block) : dashes ∉ stripNotes block :=
  fun hmem => h (List.mem_of_mem_filter hmem)

theorem dropNotes_sublist {α : Type} (line : α → Str) (inBlock : Bool) (xs : List α) :
    (dropNotes line inBlock xs).Sublist xs := by
  induction xs generalizing inBlock with
  | nil => cases inBlock <;> exact .slnil
  | cons x xs ih =>
    cases inBlock with
    | false => exact (ih _).cons_cons x
    | true =>
      rw [dropNotes]
      split_ifs
      · exact (ih _).cons_cons x
      · exact (ih _).cons x
      · exact (ih _).cons_cons x

theorem dropNotes_map {α : Type} (line : α → Str) (inBlock : Bool) (xs : List α) :
    (dropNotes line inBlock xs).map line = dropNotes id inBlock (xs.map line) := by
  induction xs generalizing inBlock with
  | nil => cases inBlock <;> rfl
  | cons x xs ih =>
    cases inBlock with
    | false => simp [dropNotes, ih]
    | true =>
      simp only [dropNotes, List.map_cons, id]
      split_ifs <;> simp [ih]

theorem dropNotes_block {block : List Str} (h : dashes ∉ block) (rest : List Str) :
    dropNotes id true (block ++ dashes :: rest) =
      stripNotes block ++ dashes :: dropNotes id false rest := by
  induction block with
  | nil => simp [dropNotes, stripNotes]
  | cons l block ih =>
    obtain ⟨hl, hblock⟩ := not_or.mp (fun hor => h (List.mem_cons.mpr hor))
    have ih := ih hblock
    rw [List.cons_append, dropNotes, id, if_neg (Ne.symm hl), ih]
    cases hnote : isNote l <;> simp [stripNotes, hnote]

theorem opensBlock_iff {l : Str} {ls : List Str} :
    Opening (l :: ls) ↔ l = dashes ∧ opensBlock ls := by
  constructor
  · rintro ⟨block, rest, heq, hblock, hlooks⟩
    obtain ⟨rfl, rfl⟩ := List.cons.inj heq
    refine ⟨rfl, ?_⟩
    simp [opensBlock, position_append hblock, hlooks]
  · rintro ⟨rfl, hopens⟩
    obtain ⟨close, hclose, hlooks⟩ := Option.any_eq_true _ _ |>.mp hopens
    obtain ⟨block, rest, rfl, hblock, rfl⟩ := position_eq_some hclose
    exact ⟨block, rest, rfl, hblock, by simpa using hlooks⟩

theorem opensBlock_congr (body : List Str) (sections : List (List Str × List Str)) :
    opensBlock (body ++ sectionLines (sections.map stripSection)) =
      opensBlock (body ++ sectionLines sections) := by
  have hprefix : ∀ (block rest rest' : List Str), dashes ∉ block →
      opensBlock (block ++ dashes :: rest) = opensBlock (block ++ dashes :: rest') := by
    intro block rest rest' hblock
    simp [opensBlock, position_append hblock]
  by_cases hbody : dashes ∈ body
  · obtain ⟨i, hi⟩ : ∃ i, position body = some i := by
      obtain ⟨i, hi, hget⟩ := List.getElem_of_mem hbody
      rw [← Option.isSome_iff_exists, position, List.findIdx?_isSome]
      exact List.any_eq_true.mpr ⟨dashes, hbody, by simp⟩
    obtain ⟨block, rest, rfl, hblock, -⟩ := position_eq_some hi
    simp only [List.append_assoc, List.cons_append]
    exact hprefix _ _ _ hblock
  · cases sections with
    | nil => rfl
    | cons s sections =>
      rw [List.map_cons, stripSection, sectionLines_cons, sectionLines_cons]
      exact hprefix _ _ _ hbody

theorem dropNotes_sections {lines body : List Str} {sections : List (List Str × List Str)}
    (h : Sections lines body sections) :
    dropNotes id false lines = body ++ sectionLines (sections.map stripSection) := by
  induction h with
  | nil => rfl
  | @line l ls body sections hopen hsections ih =>
    have hstay : (decide (l = dashes) && opensBlock ls) = false := by
      rw [Bool.eq_false_iff]
      intro hopens
      exact hopen (opensBlock_iff.mpr (by simpa using hopens))
    rw [dropNotes, List.map_id, id, hstay, ih]
    rfl
  | @block block rest body sections hblock hlooks hsections ih =>
    have hopens : opensBlock (block ++ dashes :: rest) := by
      simp [opensBlock, position_append hblock, hlooks]
    rw [List.cons_append, dropNotes, List.map_id, id, decide_eq_true rfl, hopens, Bool.and_self,
      dropNotes_block hblock, ih, List.map_cons, stripSection, sectionLines_cons]
    rfl

theorem lines_withoutNotes {text : Str} {block rest body : List Str}
    {sections : List (List Str × List Str)}
    (hlines : lines text = dashes :: block ++ dashes :: rest) (hblock : dashes ∉ block)
    (h : Sections rest body sections) :
    lines (withoutNotes text) = dashes :: stripNotes block ++
      dashes :: (body ++ sectionLines (sections.map stripSection)) := by
  obtain ⟨hended, -⟩ := rawLines_spec text
  have hraw := rawLines_map_fst text
  rw [hlines] at hraw
  rw [withoutNotes]
  cases hxs : rawLines text with
  | nil => simp [hxs] at hraw
  | cons x xs =>
    rw [hxs] at hraw hended
    obtain ⟨hx, hxs'⟩ := List.cons.inj hraw
    have hsub := (dropNotes_sublist Prod.fst true xs).cons_cons x
    dsimp only
    rw [lines_unlines (Ended.sublist hsub hended), List.map_cons, hx, dropNotes_map]
    change dashes :: dropNotes id true (xs.map Prod.fst) = _
    rw [hxs']
    change dashes :: dropNotes id true (block ++ dashes :: rest) = _
    rw [dropNotes_block hblock, dropNotes_sections h]
    rfl

def Frontmatter.Same (st st' : Frontmatter) : Prop :=
  st.fields = st'.fields ∧ st.guards = st'.guards

theorem Frontmatter.flush_same (st : Frontmatter) (isChild : Bool) (key : Str) :
    (st.flush isChild key).Same st := by
  unfold flush
  split_ifs <;> exact ⟨rfl, rfl⟩

theorem Frontmatter.Same.take {st st' r : Frontmatter} (h : st.Same st') {isChild : Bool}
    {form : Line} (htake : st.take isChild form = .ok r) :
    ∃ r', st'.take isChild form = .ok r' ∧ r.Same r' := by
  obtain ⟨hfields, hguards⟩ := h
  cases form with
  | blank =>
    obtain rfl := Res.ok.inj htake
    exact ⟨_, rfl, hfields, hguards⟩
  | note key value =>
    obtain rfl := Res.ok.inj htake
    exact ⟨_, rfl, hfields, hguards⟩
  | guard expr =>
    obtain rfl := Res.ok.inj htake
    exact ⟨_, rfl, hfields, by simp [hguards]⟩
  | field key value =>
    obtain ⟨pattern, hpattern, hr⟩ := bind_eq_ok.mp htake
    obtain rfl := Res.ok.inj hr
    refine ⟨_, by rw [Frontmatter.take, hpattern]; rfl, ?_⟩
    obtain ⟨hf, hg⟩ := st.flush_same isChild key
    obtain ⟨hf', hg'⟩ := st'.flush_same isChild key
    exact ⟨by simp [hf, hf', hfields], by simp [hg, hg', hguards]⟩

theorem readLine_of_isNote {l : Str} {form : Line} (hnote : isNote l)
    (h : readLine l = .ok form) : ∃ key value, form = .note key value := by
  obtain ⟨rest, hrest⟩ := eq_cons_of_startsWith hnote
  have hempty : (('@' :: rest : Str).isEmpty) = false := rfl
  have hbang : startsWith ('@' :: rest) '!' = false := rfl
  have hat : stripPrefix '@' ('@' :: rest) = some rest := rfl
  simp only [readLine, hrest, hempty, hbang, hat, Bool.false_eq_true, if_false] at h
  cases hsplit : splitOnce ':' rest with
  | none => simp [hsplit] at h
  | some kv =>
    rw [hsplit] at h
    exact ⟨_, _, (Res.ok.inj h).symm⟩

theorem Frontmatter.Same.read {st st' r : Frontmatter} (h : st.Same st') {isChild : Bool}
    {ls : List Str} (hread : st.read isChild ls = .ok r) :
    ∃ r', st'.read isChild (stripNotes ls) = .ok r' ∧ r.Same r' := by
  induction ls generalizing st st' with
  | nil =>
    obtain rfl := Res.ok.inj hread
    exact ⟨st', rfl, h⟩
  | cons l ls ih =>
    simp only [Frontmatter.read, bind_eq_ok] at hread
    obtain ⟨form, hform, st₁, htake, hread⟩ := hread
    cases hnote : isNote l with
    | true =>
      obtain ⟨key, value, rfl⟩ := readLine_of_isNote hnote hform
      obtain rfl := Res.ok.inj htake
      have hstrip : stripNotes (l :: ls) = stripNotes ls := by simp [stripNotes, hnote]
      rw [hstrip]
      refine ih ?_ hread
      exact ⟨h.1, h.2⟩
    | false =>
      have hstrip : stripNotes (l :: ls) = l :: stripNotes ls := by simp [stripNotes, hnote]
      obtain ⟨st₁', htake', hsame⟩ := h.take htake
      obtain ⟨r', hread', hr⟩ := ih hsame hread
      refine ⟨r', ?_, hr⟩
      simp only [hstrip, Frontmatter.read, hform, ok_bind, htake', hread']

theorem parse_stripNotes {block : List Str} {isChild : Bool} {b : FrontmatterBlock}
    (h : parseFrontmatterBlock block isChild = .ok b) :
    ∃ b', parseFrontmatterBlock (stripNotes block) isChild = .ok b' ∧ b'.fields = b.fields ∧
      b'.guard = b.guard := by
  obtain ⟨st, hread, rfl⟩ := parseFrontmatterBlock_eq_ok.mp h
  have hstart : Frontmatter.start.Same Frontmatter.start := ⟨rfl, rfl⟩
  obtain ⟨st', hread', hfields, hguards⟩ := hstart.read hread
  refine ⟨st'.finish, parseFrontmatterBlock_eq_ok.mpr ⟨st', hread', rfl⟩, hfields.symm, ?_⟩
  simp [Frontmatter.finish, hguards]

theorem extensionLines_eq_ok {sourceName : Str} {extension extension' : Option Str}
    {consumed n : Nat} {lines : List Str}
    (h : extensionLines sourceName extension consumed lines = .ok (extension', n)) :
    ∃ pre fm, lines = pre ++ fm ∧ n = consumed + pre.length ∧ (∀ l ∈ pre, isNote l = false) ∧
      ∀ ls, extensionLines sourceName extension consumed (pre ++ ls) =
        extensionLines sourceName extension' n ls := by
  induction lines generalizing extension consumed with
  | nil =>
    obtain ⟨rfl, rfl⟩ := Prod.mk.inj (Res.ok.inj h)
    exact ⟨[], [], rfl, rfl, by simp, fun ls => rfl⟩
  | cons l lines ih =>
    rw [extensionLines] at h
    by_cases hblank : (trim l).isEmpty
    · simp only [hblank, if_true] at h
      obtain ⟨pre, fm, rfl, rfl, hpre, heq⟩ := ih h
      have hnote : isNote l = false := by simp [isNote, List.isEmpty_iff.mp hblank, startsWith]
      refine ⟨l :: pre, fm, rfl, by simp only [List.length_cons]; omega,
        List.forall_mem_cons.mpr ⟨hnote, hpre⟩, fun ls => ?_⟩
      rw [List.cons_append, extensionLines]
      simp only [hblank, if_true, heq]
    · cases hname : stripPrefix '!' (trim l) with
      | none =>
        simp only [hblank, hname] at h
        obtain ⟨rfl, rfl⟩ := Prod.mk.inj (Res.ok.inj h)
        exact ⟨[], l :: lines, rfl, rfl, by simp, fun ls => rfl⟩
      | some name =>
        have hnote : isNote l = false := by
          rw [isNote, eq_cons_of_stripPrefix hname]
          rfl
        simp only [hblank, hname] at h
        simp only [Bool.false_eq_true, if_false] at h
        split_ifs at h with hempty hsome
        obtain ⟨pre, fm, rfl, rfl, hpre, heq⟩ := ih h
        refine ⟨l :: pre, fm, rfl, by simp only [List.length_cons]; omega,
          List.forall_mem_cons.mpr ⟨hnote, hpre⟩, fun ls => ?_⟩
        rw [List.cons_append, extensionLines]
        simp only [hblank, hname, Bool.false_eq_true, if_false, if_neg hempty, if_neg hsome, heq]

theorem extract_stripNotes {block fm : List Str} {sourceName : Str} {extension : Option Str}
    {base : FrontmatterBlock} (h : extractExtension block sourceName = .ok (extension, fm))
    (hbase : parseFrontmatterBlock fm false = .ok base) :
    ∃ fm' base', extractExtension (stripNotes block) sourceName = .ok (extension, fm') ∧
      parseFrontmatterBlock fm' false = .ok base' ∧ base'.fields = base.fields ∧
        base'.guard = base.guard := by
  obtain ⟨⟨extension', n⟩, hext, h⟩ := bind_eq_ok.mp h
  obtain ⟨pre, fm₀, rfl, rfl, hpre, heq⟩ := extensionLines_eq_ok hext
  rw [Nat.zero_add] at h heq
  have hdrop : ∀ ls : List Str, (pre ++ ls).drop pre.length = ls := fun ls => List.drop_left
  simp only [sliceList_drop (show pre.length ≤ (pre ++ fm₀).length by simp), hdrop, ok_bind] at h
  obtain ⟨rfl, rfl⟩ := Prod.mk.inj (Res.ok.inj h)
  obtain ⟨base', hbase', hsame⟩ := parse_stripNotes hbase
  obtain ⟨blanks, fm', hfm', hparse, heq'⟩ :=
    extensionLines_of_accepted hbase' sourceName extension' pre.length
  have hstrip : stripNotes (pre ++ fm₀) = pre ++ stripNotes fm₀ := by
    rw [stripNotes, List.filter_append, List.filter_eq_self.mpr (by simpa using hpre)]
    rfl
  refine ⟨fm', base', ?_, hparse, hsame⟩
  have hlast : (pre ++ stripNotes fm₀).drop (pre.length + blanks.length) = fm' := by
    rw [← List.drop_drop, hdrop, hfm', List.drop_left]
  have hle : pre.length + blanks.length ≤ (pre ++ stripNotes fm₀).length := by simp [hfm']
  rw [extractExtension, hstrip, heq, heq', ok_bind]
  simp only [sliceList_drop hle, hlast, ok_bind]

def HasOther (block : List Str) : Prop := ∃ l ∈ block, trim l ≠ [] ∧ isNote l = false

theorem looks_of_readLine {l : Str} {form : Line} (h : readLine l = .ok form) (hblank : trim l ≠ [])
    (hnote : isNote l = false) : ':' ∈ trim l ∨ startsWith (trim l) '?' := by
  by_contra hlooks
  rw [not_or, Bool.not_eq_true] at hlooks
  obtain ⟨hcolon, hguard⟩ := hlooks
  have hat : stripPrefix '@' (trim l) = none := stripPrefix_eq_none.mpr hnote
  have hquestion : stripPrefix '?' (trim l) = none := stripPrefix_eq_none.mpr hguard
  have hsplit : splitOnce ':' (trim l) = none := by
    cases hs : splitOnce ':' (trim l) with
    | none => rfl
    | some kv =>
      rw [(splitOnce_eq_some hs).1] at hcolon
      simp at hcolon
  simp only [readLine, hat, hquestion, hsplit, List.isEmpty_iff, hblank, if_false] at h
  split_ifs at h

theorem looks_stripNotes {block : List Str} {isChild : Bool} {b : FrontmatterBlock}
    (h : parseFrontmatterBlock block isChild = .ok b) :
    looksLikeFrontmatter (stripNotes block) ↔ HasOther block := by
  obtain ⟨st, hread, -⟩ := parseFrontmatterBlock_eq_ok.mp h
  clear h
  generalize Frontmatter.start = st₀ at hread
  induction block generalizing st₀ with
  | nil => simp [stripNotes, looksLikeFrontmatter, HasOther]
  | cons l ls ih =>
    simp only [Frontmatter.read, bind_eq_ok] at hread
    obtain ⟨form, hform, st₁, -, hread⟩ := hread
    have ih := ih _ hread
    have hcons : HasOther (l :: ls) ↔ (trim l ≠ [] ∧ isNote l = false) ∨ HasOther ls := by
      simp [HasOther]
    rw [hcons, ← ih]
    cases hnote : isNote l with
    | true => simp [stripNotes, hnote]
    | false =>
      have hstrip : stripNotes (l :: ls) = l :: stripNotes ls := by simp [stripNotes, hnote]
      rw [hstrip, looksLikeFrontmatter]
      simp only [List.isEmpty_iff]
      split_ifs with hblank
      · simp [hblank]
      · have hlooks := looks_of_readLine hform hblank hnote
        simp [hlooks, hblank]

theorem not_opening_strip {l : Str} {body : List Str} {sections : List (List Str × List Str)}
    (h : ¬Opening (l :: (body ++ sectionLines sections))) :
    ¬Opening (l :: (body ++ sectionLines (sections.map stripSection))) := by
  rwa [opensBlock_iff, opensBlock_congr, ← opensBlock_iff]

theorem Sections.strip {lines body : List Str} {sections : List (List Str × List Str)}
    (h : Sections lines body sections)
    (hlooks : ∀ s ∈ sections, looksLikeFrontmatter (stripNotes s.1)) :
    Sections (body ++ sectionLines (sections.map stripSection)) body
      (sections.map stripSection) := by
  induction h with
  | nil => exact .nil
  | @line l ls body sections hopen hsections ih =>
    rw [hsections.lines_eq] at hopen
    exact .line (not_opening_strip hopen) (ih hlooks)
  | @block block rest body sections hblock _ hsections ih =>
    obtain ⟨hfirst, hrest⟩ := List.forall_mem_cons.mp hlooks
    rw [List.nil_append, List.map_cons, stripSection, sectionLines_cons]
    exact .block (not_mem_stripNotes hblock) hfirst (ih hrest)

theorem Sections.strip_longer {lines body : List Str} {sections : List (List Str × List Str)}
    (h : Sections lines body sections)
    (hbad : ∃ s ∈ sections, ¬looksLikeFrontmatter (stripNotes s.1)) :
    ∃ body' sections', Sections (body ++ sectionLines (sections.map stripSection)) body' sections' ∧
      ∃ (k : Nat) (y more : List Str), (bodies body sections)[k]? = some y ∧
        (bodies body' sections')[k]? = some (y ++ dashes :: more) := by
  induction h with
  | nil => simp at hbad
  | @line l ls body sections hopen hsections ih =>
    obtain ⟨body', sections', hstripped, k, y, more, hy, hmore⟩ := ih hbad
    rw [hsections.lines_eq] at hopen
    refine ⟨l :: body', sections', .line (not_opening_strip hopen) hstripped, k, ?_⟩
    cases k with
    | zero =>
      obtain rfl : body = y := by simpa [bodies] using hy
      obtain rfl : body' = body ++ dashes :: more := by simpa [bodies] using hmore
      exact ⟨l :: body, more, rfl, rfl⟩
    | succ k => exact ⟨y, more, hy, hmore⟩
  | @block block rest body sections hblock _ hsections ih =>
    have hkept := not_mem_stripNotes hblock
    rw [List.nil_append, List.map_cons, stripSection, sectionLines_cons]
    by_cases hlooks : looksLikeFrontmatter (stripNotes block)
    · have hrest : ∃ s ∈ sections, ¬looksLikeFrontmatter (stripNotes s.1) := by
        obtain ⟨s, hs, hnot⟩ := hbad
        rcases List.mem_cons.mp hs with rfl | hs
        · exact absurd hlooks hnot
        · exact ⟨s, hs, hnot⟩
      obtain ⟨body', sections', hstripped, k, y, more, hy, hmore⟩ := ih hrest
      exact ⟨[], (stripNotes block, body') :: sections', .block hkept hlooks hstripped, k + 1, y,
        more, hy, hmore⟩
    · obtain ⟨body', sections', hstripped⟩ := exists_sections
        (stripNotes block ++ dashes :: (body ++ sectionLines (sections.map stripSection)))
      refine ⟨dashes :: body', sections', .line ?_ hstripped, 0, [], body', rfl, rfl⟩
      rintro ⟨block', rest', heq, hblock', hlooks'⟩
      obtain ⟨rfl, -⟩ := block_unique hkept hblock' (List.cons.inj heq).2
      exact hlooks hlooks'

theorem join_lt_join (y more : List Str) :
    (join ['\n'] y).length < (join ['\n'] (y ++ dashes :: more)).length := by
  induction y with
  | nil => cases more <;> simp [join, dashes]
  | cons l y ih =>
    cases y with
    | nil => simp
    | cons m y =>
      rw [List.cons_append] at ih
      simp only [List.cons_append, join_cons_cons, List.length_append] at ih ⊢
      omega

/-- As many clauses, with the same fields, guards and bodies. -/
def SameProgram (script script' : Script) : Prop :=
  script'.clauses.map (fun c => (c.policy, c.guard, c.behavior)) =
    script.clauses.map fun c => (c.policy, c.guard, c.behavior)

theorem SameProgram.sources {script script' : Script} (h : SameProgram script script') :
    script'.clauses.map (fun c => c.behavior.luaSource) =
      script.clauses.map fun c => c.behavior.luaSource := by
  have hsources := congrArg (List.map fun c : _ × _ × Behavior => c.2.2.luaSource) h
  simpa only [List.map_map, Function.comp_def] using hsources

theorem children_stripNotes {base base' : FrontmatterBlock}
    {sections : List (List Str × List Str)} {children : List FrontmatterBlock}
    (hbase : base'.fields = base.fields)
    (h : List.Forall₂ (fun s child => parseFrontmatterBlock s.1 true = .ok child)
      sections children) :
    ∃ clauses, collect (sectionClause base') (sections.map stripSection) = .ok clauses ∧
      clauses.map (fun c => (c.policy, c.guard, c.behavior)) =
        (List.zipWith (fun s child => childOf base child s.2) sections children).map
          fun c => (c.policy, c.guard, c.behavior) := by
  induction h with
  | nil => exact ⟨[], rfl, rfl⟩
  | @cons s child sections children hchild _ ih =>
    obtain ⟨clauses, hclauses, heq⟩ := ih
    obtain ⟨child', hchild', hfields, hguard⟩ := parse_stripNotes hchild
    refine ⟨childOf base' child' s.2 :: clauses, ?_, ?_⟩
    · rw [List.map_cons, collect_cons, hclauses]
      simp only [sectionClause, stripSection, hchild', ok_bind]
    · rw [List.map_cons, heq, List.zipWith_cons_cons, List.map_cons]
      simp only [childOf, hbase, hfields, hguard]

/-- The text without its annotations is the same program exactly when each block but the first has
another line than blank ones and annotations. -/
theorem withoutNotes_iff {sourcePath : PathBuf} {text : Str} {script : Script}
    (h : parseLuaml sourcePath text = .ok script) :
    ∃ first sections base children,
      Accepted sourcePath text script first sections base children ∧
      ((∃ script', parseLuaml sourcePath (withoutNotes text) = .ok script' ∧
          SameProgram script script') ↔ ∀ s ∈ sections, HasOther s.1) := by
  obtain ⟨first, sections, base, children, haccepted⟩ := parseLuaml_eq_ok.mp h
  refine ⟨first, sections, base, children, haccepted, ?_⟩
  obtain ⟨block, rest, hlines, hblock, hextension, hsections⟩ := haccepted.reads.opens
  have hkept := not_mem_stripNotes hblock
  have hstripped := lines_withoutNotes hlines hblock hsections
  have hlooks : ∀ s ∈ sections, looksLikeFrontmatter (stripNotes s.1) ↔ HasOther s.1 := by
    intro s hs
    obtain ⟨child, -, hchild⟩ := exists_of_forall₂ haccepted.parsesChildren hs
    exact looks_stripNotes hchild
  constructor
  · rintro ⟨script', hparse', hsame⟩
    by_contra hbad
    have hlost : ∃ s ∈ sections, ¬looksLikeFrontmatter (stripNotes s.1) := by
      by_contra hall
      exact hbad fun s hs => (hlooks s hs).mp (not_not.mp fun hnot => hall ⟨s, hs, hnot⟩)
    obtain ⟨body', sections', hsections', k, y, more, hy, hmore⟩ := hsections.strip_longer hlost
    have hsources := hsame.sources
    rw [sources_of_sections hparse' hstripped hkept hsections',
      sources_of_sections h hlines hblock hsections] at hsources
    have hk := congrArg (fun sources => sources[k]?) hsources
    simp only [List.getElem?_map, hy, hmore, Option.map_some] at hk
    have hlt := join_lt_join y more
    rw [Option.some.inj hk] at hlt
    exact absurd hlt (Nat.lt_irrefl _)
  · intro hother
    have hsections' := hsections.strip fun s hs => (hlooks s hs).mpr (hother s hs)
    obtain ⟨fm', base', hextension', hbase', hfields, hguard⟩ :=
      extract_stripNotes hextension haccepted.parsesBase
    obtain ⟨clauses, hclauses, heq⟩ := children_stripNotes hfields haccepted.parsesChildren
    refine ⟨⟨sourcePath, script.extension, firstOf base' first.2 :: clauses⟩, ?_, ?_⟩
    · rw [parseLuaml_of_sections hstripped hkept hsections', hextension']
      simp only [ok_bind, hbase', hclauses]
    · rw [SameProgram, haccepted.clauses_eq, List.map_cons, List.map_cons, heq]
      simp only [firstOf, hfields, hguard]

def starred : FrontmatterBlock := ⟨[("k".toList, .wildcard)], none, [], []⟩

def described : FrontmatterBlock := ⟨[], none, [("d".toList, "x".toList)], []⟩

def describedStar : FrontmatterBlock :=
  ⟨[("k".toList, .wildcard)], none, [], [("k".toList, [("d".toList, "x".toList)])]⟩

theorem withoutNotes_of_described_field :
    ∃ first sections base children,
      Accepted ⟨"a.luaml".toList⟩ "---\nk: *\n---\n---\n@d: x\nk: *\n---\n".toList
        ⟨⟨"a.luaml".toList⟩, none, [firstOf starred [], childOf starred describedStar []]⟩ first
        sections base children ∧
      ((∃ script', parseLuaml ⟨"a.luaml".toList⟩
            (withoutNotes "---\nk: *\n---\n---\n@d: x\nk: *\n---\n".toList) = .ok script' ∧
          SameProgram
            ⟨⟨"a.luaml".toList⟩, none, [firstOf starred [], childOf starred describedStar []]⟩
            script') ↔ ∀ s ∈ sections, HasOther s.1) :=
  withoutNotes_iff rfl

/-- A block of one annotation: without it, its delimiters are lines of the body above. -/
theorem clause_of_annotations_lost :
    ¬∀ (sourcePath : PathBuf) (text : Str) (script : Script),
      parseLuaml sourcePath text = .ok script →
        ∃ script', parseLuaml sourcePath (withoutNotes text) = .ok script' ∧
          SameProgram script script' := by
  intro h
  obtain ⟨script', hparse', hsame⟩ := h ⟨"a.luaml".toList⟩
    "---\nk: *\n---\n---\n@d: x\n---\n".toList
    ⟨⟨"a.luaml".toList⟩, none, [firstOf starred [], childOf starred described []]⟩ rfl
  have hone : parseLuaml ⟨"a.luaml".toList⟩
      (withoutNotes "---\nk: *\n---\n---\n@d: x\n---\n".toList) =
        .ok ⟨⟨"a.luaml".toList⟩, none, [firstOf starred [dashes, dashes]]⟩ := rfl
  obtain rfl := Res.ok.inj (hone.symm.trans hparse')
  exact absurd (congrArg List.length hsame) (by decide)

end Luaml.Parser
