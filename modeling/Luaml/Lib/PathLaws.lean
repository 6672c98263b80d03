import Luaml.Lib.Path

namespace Rust

/-- A component as a path has it: a name is not empty, is neither `.` nor `..`, and has no
separator. -/
def Component.Proper : Component → Prop
  | .normal s => s ≠ [] ∧ s ≠ ['.'] ∧ s ≠ ['.', '.'] ∧ '/' ∉ s
  | _ => True

theorem Component.asOsStr_ne_nil {c : Component} (hc : c.Proper) : c.asOsStr ≠ [] := by
  cases c with
  | normal s => exact hc.1
  | _ => simp [asOsStr]

namespace PathBuf

theorem innerComponents_append (parts parts' : List Str) :
    innerComponents (parts ++ parts') = innerComponents parts ++ innerComponents parts' :=
  List.filterMap_append

theorem innerComponents_mem {parts : List Str} (hparts : ∀ s ∈ parts, '/' ∉ s) :
    ∀ c ∈ innerComponents parts, c.Proper ∧ c ≠ .rootDir ∧ c ≠ .curDir := by
  intro c hc
  obtain ⟨s, hs, hcs⟩ := List.mem_filterMap.mp hc
  split_ifs at hcs with hskip hup
  · cases hcs
    exact ⟨trivial, by simp, by simp⟩
  · cases hcs
    rw [not_or] at hskip
    exact ⟨⟨hskip.1, hskip.2, hup, hparts s hs⟩, by simp, by simp⟩

theorem not_mem_splitOn (s : Str) : ∀ part ∈ s.splitOn '/', '/' ∉ part := by
  induction s with
  | nil => simp
  | cons c s ih =>
    rw [List.splitOn_cons_eq_if_modifyHead]
    cases hsplit : s.splitOn '/' with
    | nil => exact absurd hsplit (List.splitOn_ne_nil '/' s)
    | cons first rest =>
      rw [hsplit, List.forall_mem_cons] at ih
      split_ifs with hc
      · simpa using ih
      · rw [List.modifyHead_cons, List.forall_mem_cons, List.mem_cons, not_or]
        exact ⟨⟨fun heq => hc (beq_iff_eq.mpr heq.symm), ih.1⟩, ih.2⟩

def lead (p : PathBuf) : List Component :=
  if p.text = [] then []
  else
    match (p.text.splitOn '/').head? with
    | some [] => [.rootDir]
    | some ['.'] => [.curDir]
    | _ => []

def inner (s : Str) : List Component := innerComponents (s.splitOn '/')

theorem components_eq (p : PathBuf) : p.components = p.lead ++ inner p.text := by
  by_cases hp : p.text = []
  · rw [components, lead, inner, hp]
    rfl
  rw [components, lead, inner, if_neg hp]
  cases hsplit : p.text.splitOn '/' with
  | nil => exact absurd hsplit (List.splitOn_ne_nil '/' p.text)
  | cons first rest =>
    rw [List.head?_cons]
    split
    · rw [if_neg hp]
      simp_all [innerComponents]
    · simp_all [innerComponents]
    · split <;> simp_all

theorem mem_inner {s : Str} : ∀ c ∈ inner s, c.Proper ∧ c ≠ .rootDir ∧ c ≠ .curDir :=
  innerComponents_mem (not_mem_splitOn s)

theorem join_of_nil {p : PathBuf} (hp : p.text = []) (q : Str) : p.join q = ⟨q⟩ :=
  if_pos (.inr hp)

theorem splitOn_join {p : PathBuf} (hp : p.text ≠ []) {q : Str}
    (hq : Str.startsWith q '/' = false) :
    (p.join q).text ≠ [] ∧
      ((p.join q).text.splitOn '/').head? = (p.text.splitOn '/').head? ∧
        inner (p.join q).text = inner p.text ++ inner q := by
  have hstart : ¬(Str.startsWith q '/' = true ∨ p.text = []) := by simp [hq, hp]
  by_cases hend : Str.endsWith p.text '/' = true
  · obtain ⟨s, hs⟩ := Str.eq_concat_of_endsWith hend
    rw [join, if_neg hstart, if_pos hend, inner, inner, inner, hs, List.append_assoc,
      List.singleton_append, List.splitOn_append_cons_self, List.splitOn_append_cons_self,
      List.splitOn_nil, innerComponents_append, innerComponents_append]
    refine ⟨by simp, ?_, by simp [innerComponents]⟩
    rw [List.head?_append_of_ne_nil _ (List.splitOn_ne_nil '/' s),
      List.head?_append_of_ne_nil _ (List.splitOn_ne_nil '/' s)]
  · rw [join, if_neg hstart, if_neg hend, inner, inner, inner, List.splitOn_append_cons_self,
      innerComponents_append]
    exact ⟨by simp, List.head?_append_of_ne_nil _ (List.splitOn_ne_nil '/' p.text), rfl⟩

theorem components_join {p : PathBuf} (hp : p.text ≠ []) {q : Str}
    (hq : Str.startsWith q '/' = false) : (p.join q).components = p.components ++ inner q := by
  obtain ⟨hne, hhead, hinner⟩ := splitOn_join hp hq
  have hlead : (p.join q).lead = p.lead := by rw [lead, lead, if_neg hne, if_neg hp, hhead]
  rw [components_eq, components_eq p, hlead, hinner, List.append_assoc]

theorem inner_asOsStr {c : Component} (hc : c.Proper) (hroot : c ≠ .rootDir) :
    inner c.asOsStr = [c].filter (· ≠ .curDir) := by
  cases c with
  | rootDir => exact absurd rfl hroot
  | curDir => decide
  | parentDir => decide
  | normal s =>
    obtain ⟨hempty, hdot, hup, hslash⟩ := hc
    rw [Component.asOsStr, inner, List.splitOn_eq_singleton hslash]
    simp [innerComponents, hempty, hdot, hup]

theorem components_asOsStr {c : Component} (hc : c.Proper) :
    (⟨c.asOsStr⟩ : PathBuf).components = [c] := by
  cases c with
  | normal s =>
    obtain ⟨hempty, hdot, hup, hslash⟩ := hc
    rw [components, Component.asOsStr, List.splitOn_eq_singleton hslash]
    simp [innerComponents, hempty, hdot, hup]
  | _ => decide

theorem asOsStr_relative {c : Component} (hc : c.Proper) (hroot : c ≠ .rootDir) :
    Str.startsWith c.asOsStr '/' = false := by
  cases c with
  | rootDir => exact absurd rfl hroot
  | curDir => rfl
  | parentDir => rfl
  | normal s =>
    cases s with
    | nil => rfl
    | cons d s =>
      rw [Component.asOsStr, Str.startsWith_cons, beq_eq_false_iff_ne]
      rintro rfl
      exact hc.2.2.2 List.mem_cons_self

theorem components_extend {p : PathBuf} (hp : p.text ≠ []) {cs : List Component}
    (hcs : ∀ c ∈ cs, c.Proper ∧ c ≠ .rootDir) :
    (p.extend cs).text ≠ [] ∧
      (p.extend cs).components = p.components ++ cs.filter (· ≠ .curDir) := by
  induction cs generalizing p with
  | nil => exact ⟨hp, (List.append_nil _).symm⟩
  | cons c cs ih =>
    obtain ⟨⟨hc, hroot⟩, hcs⟩ := List.forall_mem_cons.mp hcs
    have hrelative := asOsStr_relative hc hroot
    obtain ⟨hne, hcomponents⟩ := ih (splitOn_join hp hrelative).1 hcs
    refine ⟨hne, ?_⟩
    rw [extend, List.foldl_cons, ← extend, hcomponents, components_join hp hrelative,
      inner_asOsStr hc hroot, List.append_assoc, ← List.filter_append, List.singleton_append]

theorem components_extend_nil {c : Component} (hc : c.Proper) {cs : List Component}
    (hcs : ∀ c ∈ cs, c.Proper ∧ c ≠ .rootDir) :
    (extend ⟨[]⟩ (c :: cs)).text ≠ [] ∧
      (extend ⟨[]⟩ (c :: cs)).components = c :: cs.filter (· ≠ .curDir) := by
  have hfirst : (⟨c.asOsStr⟩ : PathBuf).text ≠ [] := Component.asOsStr_ne_nil hc
  have hextend := components_extend hfirst hcs
  rw [components_asOsStr hc, List.singleton_append] at hextend
  rwa [extend, List.foldl_cons, ← extend, join_of_nil rfl]

theorem asOsStr_endsWith {c : Component} (hc : c.Proper) (hroot : c ≠ .rootDir) :
    Str.endsWith c.asOsStr '/' = false := by
  rw [Bool.eq_false_iff]
  intro hend
  obtain ⟨s, hs⟩ := Str.eq_concat_of_endsWith hend
  have hslash : '/' ∉ c.asOsStr := by
    cases c with
    | rootDir => exact absurd rfl hroot
    | normal name => exact hc.2.2.2
    | _ => decide
  rw [hs] at hslash
  exact hslash (by simp)

theorem text_extend {p : PathBuf} (hp : p.text ≠ []) (hend : Str.endsWith p.text '/' = false)
    {cs : List Component} (hcs : ∀ c ∈ cs, c.Proper ∧ c ≠ .rootDir) :
    (p.extend cs).text = Str.join ['/'] (p.text :: cs.map Component.asOsStr) := by
  induction cs generalizing p with
  | nil => exact (Str.join_singleton _ _).symm
  | cons c cs ih =>
    obtain ⟨⟨hc, hroot⟩, hcs⟩ := List.forall_mem_cons.mp hcs
    have htext : (p.join c.asOsStr).text = p.text ++ (['/'] ++ c.asOsStr) := by
      rw [join, if_neg (by simp [asOsStr_relative hc hroot, hp]), if_neg (by simp [hend])]
      rfl
    have hlast : Str.endsWith (p.text ++ (['/'] ++ c.asOsStr)) '/' = false := by
      rw [Str.endsWith, List.getLast?_append_of_ne_nil _ (by simp),
        List.getLast?_append_of_ne_nil _ (Component.asOsStr_ne_nil hc)]
      exact asOsStr_endsWith hc hroot
    rw [extend, List.foldl_cons, ← extend, ih (by rw [htext]; simp [hp]) (by rw [htext, hlast]) hcs,
      htext, Str.join_append_cons, List.map_cons]

theorem text_extend_nil {cs : List Component} (hcs : ∀ c ∈ cs, c.Proper ∧ c ≠ .rootDir) :
    (extend ⟨[]⟩ cs).text = Str.join ['/'] (cs.map Component.asOsStr) := by
  cases cs with
  | nil => rfl
  | cons c cs =>
    obtain ⟨⟨hc, hroot⟩, hcs⟩ := List.forall_mem_cons.mp hcs
    have hfirst : (⟨c.asOsStr⟩ : PathBuf).text ≠ [] := Component.asOsStr_ne_nil hc
    rw [extend, List.foldl_cons, ← extend, join_of_nil rfl,
      text_extend hfirst (asOsStr_endsWith hc hroot) hcs, List.map_cons]

theorem text_extend_root {cs : List Component} (hcs : ∀ c ∈ cs, c.Proper ∧ c ≠ .rootDir) :
    (extend ⟨[]⟩ (.rootDir :: cs)).text = '/' :: Str.join ['/'] (cs.map Component.asOsStr) := by
  rw [extend, List.foldl_cons, ← extend, join_of_nil rfl]
  cases cs with
  | nil => rfl
  | cons c cs =>
    obtain ⟨⟨hc, hroot⟩, hcs⟩ := List.forall_mem_cons.mp hcs
    have htext : ((⟨['/']⟩ : PathBuf).join c.asOsStr) = ⟨'/' :: c.asOsStr⟩ := by
      have hslash : Str.endsWith ['/'] '/' = true := rfl
      rw [join, if_neg (by simp [asOsStr_relative hc hroot])]
      exact if_pos hslash
    have hlast : Str.endsWith ('/' :: c.asOsStr) '/' = false := by
      rw [Str.endsWith, List.getLast?_cons_of_ne_nil (Component.asOsStr_ne_nil hc)]
      exact asOsStr_endsWith hc hroot
    rw [extend, List.foldl_cons, Component.asOsStr, htext, ← extend,
      text_extend (by simp) hlast hcs, List.map_cons]
    exact Str.join_cons_head _ _ _ _

theorem isAbsolute_iff {p : PathBuf} :
    p.isAbsolute = true ↔ p.components.head? = some .rootDir := by
  have hinner : ∀ parts : List Str, (innerComponents parts).head? ≠ some .rootDir := by
    intro parts hhead
    obtain ⟨s, -, hs⟩ := List.mem_filterMap.mp (List.mem_of_mem_head? hhead)
    split_ifs at hs <;> cases hs
  obtain ⟨text⟩ := p
  cases text with
  | nil => decide
  | cons c s =>
    rw [isAbsolute, Str.startsWith_cons, beq_iff_eq, components]
    dsimp only
    rw [List.splitOn_cons_eq_if_modifyHead]
    by_cases hc : c = '/'
    · simp [hc]
    · obtain ⟨first, rest, hsplit⟩ := List.exists_cons_of_ne_nil (List.splitOn_ne_nil '/' s)
      rw [if_neg (by simpa using hc), hsplit, List.modifyHead_cons]
      refine iff_of_false hc ?_
      split
      · simp_all
      · simp
      · exact hinner _

theorem components_proper (p : PathBuf) :
    ∃ cs, (p.components = cs ∨ p.components = .rootDir :: cs ∨ p.components = .curDir :: cs) ∧
      ∀ c ∈ cs, c.Proper ∧ c ≠ .rootDir ∧ c ≠ .curDir := by
  refine ⟨inner p.text, ?_, mem_inner⟩
  rw [components_eq, lead]
  split
  · exact .inl rfl
  · split
    · exact .inr (.inl rfl)
    · exact .inr (.inr rfl)
    · exact .inl rfl

end PathBuf

end Rust
