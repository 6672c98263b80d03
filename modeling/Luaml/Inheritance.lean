import Luaml.PatternMatchLaws
import Luaml.Sections

namespace Luaml.Parser

open Rust Str Res Pattern

variable {base child : List (Str × Pattern)}

def keys (fields : List (Str × Pattern)) : List Str := fields.map Prod.fst

def undeclared (base child : List (Str × Pattern)) : List (Str × Pattern) :=
  Map.without (keys child) base

/-- The fields of the base under a key that the child declares, but for the first of each key. -/
def notReplaced (base child : List (Str × Pattern)) : List (Str × Pattern) :=
  Map.repeats (keys child) base

theorem mergeFields_perm (base child : List (Str × Pattern)) :
    (mergeFields base child).Perm (Map.leftover (keys child) base ++ Map.lasts child) :=
  Map.extend_perm base child

def InheritsOn (event : FieldMap) (base child : List (Str × Pattern)) : Prop :=
  (matchFields (mergeFields base child) event).isSome ↔
    (matchFields child event).isSome ∧ (matchFields (undeclared base child) event).isSome

/-- Where the fields match that both readings ask for, those that only the merged fields have match
if and only if those do that only the blocks have. -/
def RepeatsAgree (event : FieldMap) (base child : List (Str × Pattern)) : Prop :=
  (∀ f ∈ Map.lasts child, FieldMatches event f) → (∀ f ∈ undeclared base child,
    FieldMatches event f) →
      ((∀ f ∈ notReplaced base child, FieldMatches event f) ↔
        ∀ f ∈ Map.shadowed child, FieldMatches event f)

theorem mergeFields_matches (event : FieldMap) :
    (matchFields (mergeFields base child) event).isSome ↔
      (∀ f ∈ undeclared base child, FieldMatches event f) ∧
        (∀ f ∈ notReplaced base child, FieldMatches event f) ∧
          ∀ f ∈ Map.lasts child, FieldMatches event f := by
  simp only [matchFields_isSome, (mergeFields_perm base child).mem_iff, List.mem_append,
    Map.mem_leftover, or_imp, forall_and, undeclared, notReplaced, and_assoc]

theorem child_matches (event : FieldMap) :
    (matchFields child event).isSome ↔
      (∀ f ∈ Map.lasts child, FieldMatches event f) ∧
        ∀ f ∈ Map.shadowed child, FieldMatches event f := by
  simp only [matchFields_isSome, ← (Map.lasts_shadowed_perm child).mem_iff, List.mem_append,
    or_imp, forall_and]

theorem inheritsOn_iff (event : FieldMap) (base child : List (Str × Pattern)) :
    InheritsOn event base child ↔ RepeatsAgree event base child := by
  rw [InheritsOn, RepeatsAgree, mergeFields_matches, child_matches, matchFields_isSome]
  tauto

theorem repeatsAgree_of_nodup (hbase : (keys base).Nodup) (hchild : (keys child).Nodup)
    (event : FieldMap) : RepeatsAgree event base child := by
  intro _ _
  rw [notReplaced, Map.repeats_of_nodup hbase, Map.shadowed_of_nodup hchild]

/-- A child clause matches what its own fields and the inherited ones match exactly when repeated
keys make no difference. -/
theorem child_inherits_iff {sourcePath : PathBuf} {text : Str} {script : Script}
    (h : parseLuaml sourcePath text = .ok script) :
    ∃ first sections base children,
      Accepted sourcePath text script first sections base children ∧
      ∀ (i : Nat) clause, script.clauses[i + 1]? = some clause →
        ∃ child, children[i]? = some child ∧
          ∀ event, ((matchFields clause.policy.fields event).isSome ↔
              (matchFields child.fields event).isSome ∧
                (matchFields (undeclared base.fields child.fields) event).isSome) ↔
            RepeatsAgree event base.fields child.fields := by
  obtain ⟨first, sections, base, children, haccepted⟩ := parseLuaml_eq_ok.mp h
  refine ⟨first, sections, base, children, haccepted, ?_⟩
  intro i clause hclause
  obtain ⟨s, child, -, hchild, rfl⟩ := haccepted.child_of_clause hclause
  exact ⟨child, hchild, fun event => inheritsOn_iff event base.fields child.fields⟩

def starK : FrontmatterBlock := ⟨[("k".toList, .wildcard)], none, [], []⟩

def onceK : FrontmatterBlock := ⟨[("k".toList, .boolLiteral false)], none, [], []⟩

theorem child_inherits_of_one_override :
    ∃ first sections base children,
      Accepted ⟨"a.luaml".toList⟩ "---\nk: *\n---\n---\nk: false\n---\n".toList
        ⟨⟨"a.luaml".toList⟩, none, [firstOf starK [], childOf starK onceK []]⟩ first sections base
        children ∧
      ∀ (i : Nat) clause, [firstOf starK [], childOf starK onceK []][i + 1]? = some clause →
        ∃ child, children[i]? = some child ∧
          ∀ event, ((matchFields clause.policy.fields event).isSome ↔
              (matchFields child.fields event).isSome ∧
                (matchFields (undeclared base.fields child.fields) event).isSome) ↔
            RepeatsAgree event base.fields child.fields :=
  @child_inherits_iff _ _ ⟨⟨"a.luaml".toList⟩, none, _⟩ rfl

def twiceK : FrontmatterBlock :=
  ⟨[("k".toList, .variable "x".toList), ("k".toList, .boolLiteral true)], none, [], []⟩

theorem twiceK_accepted :
    Accepted ⟨"a.luaml".toList⟩ "---\nk: $x\nk: true\n---\n---\nk: false\n---\n".toList
      ⟨⟨"a.luaml".toList⟩, none, [firstOf twiceK [], childOf twiceK onceK []]⟩
      (["k: $x".toList, "k: true".toList], []) [(["k: false".toList], [])] twiceK [onceK] where
  reads :=
    have hsections : Sections (dashes :: ["k: false".toList] ++ [dashes]) [] _ :=
      .block (by decide) (by decide) .nil
    ⟨["k: $x".toList, "k: true".toList], _, rfl, by decide, rfl, hsections⟩
  parsesBase := rfl
  parsesChildren := .cons rfl .nil
  sourcePath_eq := rfl
  clauses_eq := rfl

/-- The child replaces the first field of the base and inherits the second, which takes no value
that the child takes. -/
theorem repeated_key_inherited :
    ¬∀ (sourcePath : PathBuf) (text : Str) (script : Script) (first : List Str × List Str)
      (sections : List (List Str × List Str)) (base : FrontmatterBlock)
      (children : List FrontmatterBlock),
        Accepted sourcePath text script first sections base children →
          ∀ (i : Nat) clause child, script.clauses[i + 1]? = some clause →
            children[i]? = some child → ∀ event,
              ((matchFields clause.policy.fields event).isSome ↔
                (matchFields child.fields event).isSome ∧
                  (matchFields (undeclared base.fields child.fields) event).isSome) := by
  intro h
  have hmatch := h _ _ _ _ _ _ _ twiceK_accepted 0 _ _ rfl rfl [("k".toList, .bool false)]
  exact absurd hmatch (by decide +kernel)

theorem checkUnseen_eq_ok {all seen vars : List Str} :
    checkUnseen all seen vars = .ok () ↔ vars.Nodup ∧ ∀ v ∈ vars, v ∉ seen := by
  induction vars generalizing seen with
  | nil => simp [checkUnseen]
  | cons v vars ih =>
    rw [checkUnseen]
    split_ifs with hseen
    · simp [hseen]
    · simp only [ih, List.mem_cons, not_or, List.nodup_cons, forall_eq_or_imp, hseen,
        not_false_eq_true, true_and]
      constructor
      · rintro ⟨hvars, hnew⟩
        exact ⟨⟨fun hv => (hnew v hv).1 rfl, hvars⟩, fun w hw => (hnew w hw).2⟩
      · rintro ⟨⟨hv, hvars⟩, hnew⟩
        refine ⟨hvars, fun w hw => ⟨?_, hnew w hw⟩⟩
        rintro rfl
        exact hv hw

theorem checkDuplicateVariables_eq_ok {fields : List (Str × Pattern)} :
    checkDuplicateVariables fields = .ok () ↔ (collectFieldVariables fields).Nodup := by
  simp [checkDuplicateVariables, checkUnseen_eq_ok]

theorem collectFieldVariables_eq (fields : List (Str × Pattern)) :
    collectFieldVariables fields = fields.flatMap fun f => collectVariables f.2 := by
  induction fields with
  | nil => rfl
  | cons f fields ih => rw [collectFieldVariables, ih, List.flatMap_cons]

theorem collectFieldVariables_perm {fields fields' : List (Str × Pattern)}
    (h : fields.Perm fields') :
    (collectFieldVariables fields).Perm (collectFieldVariables fields') := by
  rw [collectFieldVariables_eq, collectFieldVariables_eq]
  exact h.flatMap_right _

/-- Every clause passes the check for duplicate variables exactly when no variable is bound twice
in the base block, nor in what a child block keeps of it and the last field of each of its keys. -/
theorem clauses_bind_once_iff {sourcePath : PathBuf} {text : Str} {script : Script}
    (h : parseLuaml sourcePath text = .ok script) :
    ∃ first sections base children,
      Accepted sourcePath text script first sections base children ∧
      ((∀ clause ∈ script.clauses, checkDuplicateVariables clause.policy.fields = .ok ()) ↔
        (collectFieldVariables base.fields).Nodup ∧
          ∀ child ∈ children, (collectFieldVariables
            (Map.leftover (keys child.fields) base.fields ++ Map.lasts child.fields)).Nodup) := by
  obtain ⟨first, sections, base, children, haccepted⟩ := parseLuaml_eq_ok.mp h
  refine ⟨first, sections, base, children, haccepted, ?_⟩
  have hmerged : ∀ child : FrontmatterBlock,
      (collectFieldVariables (mergeFields base.fields child.fields)).Nodup ↔
        (collectFieldVariables
          (Map.leftover (keys child.fields) base.fields ++ Map.lasts child.fields)).Nodup :=
    fun child => (collectFieldVariables_perm (mergeFields_perm _ _)).nodup_iff
  simp only [checkDuplicateVariables_eq_ok]
  rw [haccepted.forall_clause (P := fun fields => (collectFieldVariables fields).Nodup)]
  simp only [hmerged]

def pageBase : FrontmatterBlock :=
  ⟨[("a".toList, .variable "x".toList), ("b".toList, .variable "y".toList)], none, [], []⟩

def pageChild : FrontmatterBlock :=
  ⟨[("b".toList, .wildcard), ("c".toList, .variable "y".toList)], none, [], []⟩

def pageClauses : List Clause :=
  [firstOf pageBase ["return x".toList], childOf pageBase pageChild ["return y".toList]]

theorem clauses_bind_once_of_child :
    ∃ first sections base children,
      Accepted ⟨"a.luaml".toList⟩
        "---\na: $x\nb: $y\n---\nreturn x\n---\nb: _\nc: $y\n---\nreturn y\n".toList
        ⟨⟨"a.luaml".toList⟩, none, pageClauses⟩ first sections base children ∧
      ((∀ clause ∈ pageClauses, checkDuplicateVariables clause.policy.fields = .ok ()) ↔
        (collectFieldVariables base.fields).Nodup ∧
          ∀ child ∈ children, (collectFieldVariables
            (Map.leftover (keys child.fields) base.fields ++ Map.lasts child.fields)).Nodup) :=
  clauses_bind_once_iff rfl

def twice : FrontmatterBlock :=
  ⟨[("a".toList, .variable "x".toList), ("b".toList, .variable "x".toList)], none, [], []⟩

/-- Two fields of one block that bind the same variable. -/
theorem variable_bound_twice :
    ¬∀ (sourcePath : PathBuf) (text : Str) (script : Script),
      parseLuaml sourcePath text = .ok script →
        ∀ clause ∈ script.clauses, checkDuplicateVariables clause.policy.fields = .ok () := by
  intro h
  have hcheck := h ⟨"a.luaml".toList⟩ "---\na: $x\nb: $x\n---\n".toList
    ⟨⟨"a.luaml".toList⟩, none, [firstOf twice []]⟩ rfl _ (List.mem_cons_self ..)
  exact absurd (checkDuplicateVariables_eq_ok.mp hcheck) (by decide)

end Luaml.Parser
