import Luaml.GuardPrint
import Luaml.Pattern

namespace Luaml.Guard

open Rust Str Res Pattern

/-- The guard that is the name alone is whether what the name is bound to is true. -/
def Usable (x : Str) : Prop :=
  ∀ bindings, evaluateGuard x bindings = .ok (truthy (Map.get bindings x))

def isNameChar (c : Char) : Bool := Char.isAlphanumeric c || c == '_'

theorem isNameChar_of_mem {x : Str} (hx : isIdentifier x) {c : Char} (hc : c ∈ x) :
    isNameChar c := by
  cases x with
  | nil => simp at hc
  | cons first rest =>
    obtain ⟨hfirst, hrest⟩ := Bool.and_eq_true_iff.mp hx
    rcases List.mem_cons.mp hc with rfl | hc
    · rw [isNameChar, Char.isAlphanumeric]
      rcases Bool.or_eq_true_iff.mp hfirst with h | h <;> simp [h]
    · exact List.all_eq_true.mp hrest c hc

theorem isDigit_eq_false {c : Char} (h : Char.isAlphabetic c || c == '_') :
    isDigit c = false := by
  have hranges : Char.alphabeticRanges.all fun r => r.2 < 48 || 57 < r.1 := by decide +kernel
  rw [← Bool.not_eq_true]
  intro hdigit
  rcases Bool.or_eq_true_iff.mp h with halpha | hunder
  · obtain ⟨⟨lo, hi⟩, hmem, hin⟩ := List.any_eq_true.mp halpha
    have hout := List.all_eq_true.mp hranges _ hmem
    simp only [isDigit, Bool.and_eq_true, Bool.or_eq_true, decide_eq_true_eq] at hdigit hin hout
    omega
  · obtain rfl := beq_iff_eq.mp hunder
    exact absurd hdigit (by decide)

theorem isWordChar_first {first : Char} {rest : Str} (hx : isIdentifier (first :: rest))
    (hword : isWordChar first) : isAsciiAlphabetic first || first == '_' := by
  have hdigit := isDigit_eq_false (Bool.and_eq_true_iff.mp hx).1
  rwa [isWordChar, hdigit, Bool.or_false] at hword

theorem not_mem_marks_of_isNameChar {c : Char} (h : isNameChar c) : c ∉ '-' :: marks := by
  have hnone : ('-' :: marks).all fun d => !isNameChar d := by decide +kernel
  intro hc
  have hnot := List.all_eq_true.mp hnone c hc
  rw [h] at hnot
  exact Bool.false_ne_true hnot

theorem readToken_foreign {c : Char} (h : isNameChar c) (hword : isWordChar c = false) (s : Str) :
    ∃ e, readToken c s = .err e := by
  obtain ⟨hminus, hmarks⟩ := not_or.mp (mt List.mem_cons.mpr (not_mem_marks_of_isNameChar h))
  simp only [isWordChar, Bool.or_eq_false_iff] at hword
  obtain ⟨⟨halpha, hdigit⟩, hunder⟩ := hword
  rw [readToken, readOperator_eq_none hmarks]
  simp only [not_isQuote hmarks, hdigit, beq_eq_false_iff_ne.mpr hminus, halpha, hunder,
    Bool.false_and, Bool.or_false, Bool.false_eq_true, if_false]
  exact ⟨_, rfl⟩

theorem tokenize_foreign {c : Char} (h : isNameChar c) (hword : isWordChar c = false) (s : Str) :
    ∃ e, tokenize (c :: s) = .err e := by
  obtain ⟨-, hmarks⟩ := not_or.mp (mt List.mem_cons.mpr (not_mem_marks_of_isNameChar h))
  obtain ⟨e, he⟩ := readToken_foreign h hword s
  rw [tokenize_cons, not_isSpace hmarks, he]
  exact ⟨e, rfl⟩

theorem exists_dropWhile {p : Char → Bool} {s : Str} (h : s.all p = false) :
    ∃ c t, s.dropWhile p = c :: t ∧ p c = false ∧ c ∈ s := by
  induction s with
  | nil => simp at h
  | cons d s ih =>
    cases hd : p d with
    | true =>
      obtain ⟨c, t, hdrop, hc, hmem⟩ := ih (by simpa [hd] using h)
      exact ⟨c, t, by simp [hd, hdrop], hc, List.mem_cons_of_mem _ hmem⟩
    | false => exact ⟨d, s, by simp [hd], hd, List.mem_cons_self⟩

theorem tokenize_identifier {x : Str} (hx : isIdentifier x) (hword : x.all isWordChar = false) :
    ∃ e, tokenize x = .err e := by
  cases x with
  | nil => simp at hword
  | cons first rest =>
    cases hfirst : isWordChar first with
    | false => exact tokenize_foreign (isNameChar_of_mem hx List.mem_cons_self) hfirst rest
    | true =>
      have hstart := isWordChar_first hx hfirst
      obtain ⟨d, t, hdrop, hd, hmem⟩ := exists_dropWhile (by simpa [hfirst] using hword)
      obtain ⟨e, he⟩ := tokenize_foreign
        (isNameChar_of_mem hx (List.mem_cons_of_mem _ hmem)) hd t
      rw [tokenize_cons, not_isSpace (first_not_mem_marks hstart), readToken_word hstart, hdrop]
      exact ⟨e, by simp [he]⟩

/-- A name that can be captured is usable in a guard if and only if it is ASCII. -/
theorem usable_iff {x : Str} (hx : isIdentifier x) (hfree : x ∉ reserved) :
    Usable x ↔ x.all isWordChar := by
  constructor
  · intro h
    rw [← Bool.not_eq_false]
    intro hword
    obtain ⟨e, he⟩ := tokenize_identifier hx hword
    have hguard := h []
    rw [evaluateGuard, he] at hguard
    cases hguard
  · intro hword bindings
    cases x with
    | nil => simp [isIdentifier] at hx
    | cons first rest =>
      obtain ⟨hfirst, hrest⟩ := Bool.and_eq_true_iff.mp hword
      let name : Name := ⟨first, rest, isWordChar_first hx hfirst, hrest, hfree⟩
      have hprint : (Formula.atom (.var name)).print = first :: rest := by
        simp [Formula.print, Formula.lexemes, Lexeme.text, Atom.text, Name.text, name, join]
      have hguard := evaluateGuard_print (.atom (.var name)) bindings
      rw [hprint] at hguard
      exact hguard

theorem usable_iff_n : Usable "n".toList ↔ "n".toList.all isWordChar :=
  usable_iff (by decide +kernel) (by decide)

/-- `$é` is a variable, and `é` is no guard. -/
theorem accent_not_usable : ¬∀ x : Str, isIdentifier x → x ∉ reserved → Usable x := by
  intro h
  have hguard := h "é".toList (by decide +kernel) (by decide) []
  exact absurd hguard (by decide +kernel)

end Luaml.Guard
