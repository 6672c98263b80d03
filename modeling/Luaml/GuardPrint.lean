import Luaml.Conjunction

namespace Luaml.Guard

open Rust Str Res

def reserved : List Str :=
  ["and".toList, "or".toList, "not".toList, "true".toList, "false".toList, "nil".toList]

structure Name where
  first : Char
  rest : Str
  first_word : isAsciiAlphabetic first || first == '_'
  rest_word : rest.all isWordChar
  free : first :: rest ∉ reserved

def Name.text (x : Name) : Str := x.first :: x.rest

inductive Quote
  | double | single

def Quote.char : Quote → Char
  | .double => '"'
  | .single => '\''

structure Quoted where
  quote : Quote
  text : Str
  unquoted : quote.char ∉ text

inductive Atom
  | bool (b : Bool)
  | nil
  | string (s : Quoted)
  | number (n : Int)
  | var (x : Name)

inductive Comparison
  | eq | tilde | bang | lt | gt | lte | gte

inductive Formula
  | atom (a : Atom)
  | not (t : Formula)
  | compare (left : Formula) (op : Comparison) (right : Formula)
  | and (left right : Formula)
  | or (left right : Formula)

def Comparison.op : Comparison → CmpOp
  | .eq => .eq
  | .tilde | .bang => .neq
  | .lt => .lt
  | .gt => .gt
  | .lte => .lte
  | .gte => .gte

def Atom.toExpr : Atom → Expr
  | .bool b => .boolLit b
  | .nil => .nil
  | .string s => .stringLit s.text
  | .number n => .numberLit (F64.ofInt n)
  | .var x => .var x.text

namespace Formula

def toExpr : Formula → Expr
  | .atom a => a.toExpr
  | .not t => .not t.toExpr
  | .compare left op right => .compare left.toExpr op.op right.toExpr
  | .and left right => .and left.toExpr right.toExpr
  | .or left right => .or left.toExpr right.toExpr

def level : Formula → Nat
  | .or _ _ => 0
  | .and _ _ => 1
  | .not _ => 2
  | .compare _ _ _ => 3
  | .atom _ => 4

end Formula

inductive Lexeme
  | atom (a : Atom)
  | compare (op : Comparison)
  | not | and | or
  | lParen | rParen

def Atom.text : Atom → Str
  | .bool true => "true".toList
  | .bool false => "false".toList
  | .nil => "nil".toList
  | .string s => s.quote.char :: s.text ++ [s.quote.char]
  | .number n => intText n
  | .var x => x.text

def Comparison.text : Comparison → Str
  | .eq => "==".toList
  | .tilde => "~=".toList
  | .bang => "!=".toList
  | .lt => "<".toList
  | .gt => ">".toList
  | .lte => "<=".toList
  | .gte => ">=".toList

def Lexeme.text : Lexeme → Str
  | .atom a => a.text
  | .compare op => op.text
  | .not => "not".toList
  | .and => "and".toList
  | .or => "or".toList
  | .lParen => "(".toList
  | .rParen => ")".toList

namespace Formula

/-- The lexemes of a formula where an operator of the level may stand without parentheses. -/
def within (level : Nat) (t : Formula) (ls : List Lexeme) : List Lexeme :=
  if t.level < level then .lParen :: ls ++ [.rParen] else ls

/-- `and` and `or` associate to the left.  A comparison takes atoms: comparisons do not chain. -/
def lexemes : Formula → List Lexeme
  | .atom a => [.atom a]
  | .not t => .not :: within 2 t t.lexemes
  | .compare left op right =>
    within 4 left left.lexemes ++ .compare op :: within 4 right right.lexemes
  | .and left right => within 1 left left.lexemes ++ .and :: within 2 right right.lexemes
  | .or left right => within 0 left left.lexemes ++ .or :: within 1 right right.lexemes

def print (t : Formula) : Str := join [' '] (t.lexemes.map Lexeme.text)

example :
    (Formula.and (.not (.or (.atom (.bool true)) (.atom (.bool false))))
      (.compare (.atom .nil) .tilde (.atom (.number (-5))))).print =
        "not ( true or false ) and nil ~= -5".toList := by
  decide

end Formula

def Atom.token : Atom → Token
  | .bool b => .boolLit b
  | .nil => .nil
  | .string s => .stringLit s.text
  | .number n => .numberLit (F64.ofInt n)
  | .var x => .ident x.text

def Comparison.token : Comparison → Token
  | .eq => .eq
  | .tilde | .bang => .neq
  | .lt => .lt
  | .gt => .gt
  | .lte => .lte
  | .gte => .gte

def Lexeme.token : Lexeme → Token
  | .atom a => a.token
  | .compare op => op.token
  | .not => .not
  | .and => .and
  | .or => .or
  | .lParen => .lParen
  | .rParen => .rParen

theorem tokenize_of_read {c : Char} {s : Str} {token : Token} (hspace : isSpace c = false)
    (h : readToken c s = .ok (token, [])) : tokenize (c :: s) = .ok [token] := by
  rw [tokenize_cons, hspace, if_neg Bool.false_ne_true, h]
  rfl

def marks : Str := "()=~!<>\"' \t\r\n".toList

theorem not_mem_marks {c : Char} (h : isWordChar c || c == '-') : c ∉ marks := by
  have hnone : marks.all fun d => !(isWordChar d || d == '-') := by decide
  intro hc
  have hnot := List.all_eq_true.mp hnone c hc
  rw [h] at hnot
  exact Bool.false_ne_true hnot

theorem readOperator_eq_none {c : Char} (h : c ∉ marks) (s : Str) : readOperator c s = none := by
  unfold readOperator
  split <;> first
    | rfl
    | exact absurd (by decide) h

theorem not_isSpace {c : Char} (h : c ∉ marks) : isSpace c = false := by
  rw [← Bool.not_eq_true]
  intro hspace
  simp only [isSpace, Bool.or_eq_true, beq_iff_eq] at hspace
  rcases hspace with ((rfl | rfl) | rfl) | rfl <;> exact absurd (by decide) h

theorem not_isQuote {c : Char} (h : c ∉ marks) : (c == '"' || c == '\'') = false := by
  rw [← Bool.not_eq_true]
  intro hquote
  simp only [Bool.or_eq_true, beq_iff_eq] at hquote
  rcases hquote with rfl | rfl <;> exact absurd (by decide) h

theorem ofWord_of_not_mem {word : Str} (h : word ∉ reserved) : ofWord word = .ident word := by
  simp only [reserved, List.mem_cons, List.not_mem_nil, or_false, not_or] at h
  simp only [ofWord, h, if_false]

theorem not_isDigit {c : Char} (h : isAsciiAlphabetic c || c == '_') : isDigit c = false := by
  rw [← Bool.not_eq_true]
  intro hdigit
  simp only [isAsciiAlphabetic, isDigit, Bool.or_eq_true, Bool.and_eq_true, decide_eq_true_eq,
    beq_iff_eq] at h hdigit
  rcases h with h | rfl
  · omega
  · exact absurd hdigit (by decide)

theorem not_isMinus {c : Char} (h : isAsciiAlphabetic c || c == '_') : (c == '-') = false := by
  rw [← Bool.not_eq_true]
  intro hminus
  rw [beq_iff_eq.mp hminus] at h
  exact absurd h (by decide)

theorem first_not_mem_marks {c : Char} (h : isAsciiAlphabetic c || c == '_') : c ∉ marks := by
  apply not_mem_marks
  simp only [isWordChar, Bool.or_eq_true, beq_iff_eq] at h ⊢
  rcases h with h | h
  · exact .inl (.inl (.inl h))
  · exact .inl (.inr h)

theorem readToken_word {c : Char} (h : isAsciiAlphabetic c || c == '_') (s : Str) :
    readToken c s = .ok (ofWord (c :: s.takeWhile isWordChar), s.dropWhile isWordChar) := by
  have hmarks := first_not_mem_marks h
  have hnumber : (isDigit c || (c == '-' && s.head?.any isDigit)) = false := by
    rw [not_isDigit h, not_isMinus h]
    rfl
  rw [readToken, readOperator_eq_none hmarks]
  simp only [not_isQuote hmarks, Bool.false_eq_true, if_false, hnumber, h, if_true]

theorem tokenize_name (x : Name) : tokenize x.text = .ok [.ident x.text] := by
  have hall := List.all_eq_true.mp x.rest_word
  apply tokenize_of_read (not_isSpace (first_not_mem_marks x.first_word))
  rw [readToken_word x.first_word, List.takeWhile_eq_self_iff.mpr hall,
    List.dropWhile_eq_nil_iff.mpr hall, ofWord_of_not_mem x.free]
  rfl

theorem tokenize_number {c : Char} {s : Str} {x : F64}
    (hc : isDigit c || (c == '-' && s.head?.any isDigit)) (hs : s.all isNumberChar)
    (hx : F64.parse (c :: s) = some x) : tokenize (c :: s) = .ok [.numberLit x] := by
  have hmarks : c ∉ marks := by
    apply not_mem_marks
    simp only [isWordChar, Bool.or_eq_true, Bool.and_eq_true] at hc ⊢
    rcases hc with h | ⟨h, -⟩
    · exact .inl (.inl (.inr h))
    · exact .inr h
  have hall := List.all_eq_true.mp hs
  apply tokenize_of_read (not_isSpace hmarks)
  rw [readToken, readOperator_eq_none hmarks]
  simp only [not_isQuote hmarks, Bool.false_eq_true, if_false, hc, if_true, readNumber,
    List.takeWhile_eq_self_iff.mpr hall, List.dropWhile_eq_nil_iff.mpr hall, hx]

theorem tokenize_intText (n : Int) : tokenize (intText n) = .ok [.numberLit (F64.ofInt n)] := by
  have hparse := F64.parse_intText n
  have hdigits : ∀ c ∈ Nat.toDigits 10 n.natAbs, isDigit c := fun _ => isDigit_of_mem_toDigits
  have hnumber : ∀ c ∈ Nat.toDigits 10 n.natAbs, isNumberChar c :=
    fun c hc => Bool.or_eq_true_iff.mpr (.inl (hdigits c hc))
  obtain ⟨d, ds, hds⟩ := List.exists_cons_of_ne_nil (Nat.toDigits_ne_nil (n := n.natAbs) (b := 10))
  rw [hds] at hdigits hnumber
  unfold intText at hparse ⊢
  rw [hds] at hparse ⊢
  obtain ⟨hd, -⟩ := List.forall_mem_cons.mp hdigits
  split_ifs at hparse ⊢ with hn
  · exact tokenize_number (by simp [hd]) (List.all_eq_true.mpr hnumber) hparse
  · exact tokenize_number (by simp [hd])
      (List.all_eq_true.mpr (List.forall_mem_cons.mp hnumber).2) hparse

theorem tokenize_quoted (s : Quoted) :
    tokenize (s.quote.char :: s.text ++ [s.quote.char]) = .ok [.stringLit s.text] := by
  have hquote : (s.quote.char == '"' || s.quote.char == '\'') = true := by
    cases s.quote <;> rfl
  have hop : readOperator s.quote.char (s.text ++ [s.quote.char]) = none := by
    cases s.quote <;> rfl
  have hspace : isSpace s.quote.char = false := by
    cases s.quote <;> rfl
  rw [List.cons_append]
  apply tokenize_of_read hspace
  rw [readToken, hop]
  simp only [hquote, if_true, readString, splitOnce_of_not_mem s.unquoted]

theorem tokenize_text (l : Lexeme) : tokenize l.text = .ok [l.token] := by
  cases l with
  | atom a =>
    cases a with
    | bool b => cases b <;> rfl
    | nil => rfl
    | string s => exact tokenize_quoted s
    | number n => exact tokenize_intText n
    | var x => exact tokenize_name x
  | compare op => cases op <;> rfl
  | not => rfl
  | and => rfl
  | or => rfl
  | lParen => rfl
  | rParen => rfl

theorem tokenize_join (ls : List Lexeme) :
    tokenize (join [' '] (ls.map Lexeme.text)) = .ok (ls.map Lexeme.token) := by
  induction ls with
  | nil => rfl
  | cons l ls ih =>
    cases ls with
    | nil => simp [tokenize_text]
    | cons l' ls =>
      simp only [List.map_cons, join_cons_cons, List.append_assoc, List.singleton_append] at ih ⊢
      rw [tokenize_append (tokenize_text l), ih]
      rfl

namespace Formula

theorem eq_atom_of_level {t : Formula} (h : ¬t.level < 4) : ∃ a, t = .atom a := by
  cases t with
  | atom a => exact ⟨a, rfl⟩
  | _ => simp [level] at h

theorem eq_compare_of_level {t : Formula} (h : t.level = 3) :
    ∃ left op right, t = .compare left op right := by
  cases t with
  | compare left op right => exact ⟨left, op, right, rfl⟩
  | _ => simp [level] at h

theorem eq_and_of_level {t : Formula} (h : t.level = 1) : ∃ left right, t = .and left right := by
  cases t with
  | and left right => exact ⟨left, right, rfl⟩
  | _ => simp [level] at h

theorem eq_or_of_level {t : Formula} (h : t.level = 0) : ∃ left right, t = .or left right := by
  cases t with
  | or left right => exact ⟨left, right, rfl⟩
  | _ => simp [level] at h

def tokensAt (level : Nat) (t : Formula) : List Token :=
  (within level t t.lexemes).map Lexeme.token

theorem tokensAt_of_lt {level : Nat} {t : Formula} (h : t.level < level) :
    tokensAt level t = .lParen :: tokensAt 0 t ++ [.rParen] := by
  simp [tokensAt, within, h, Lexeme.token]

theorem tokensAt_of_le {level : Nat} {t : Formula} (h : level ≤ t.level) :
    tokensAt level t = tokensAt 0 t := by
  simp [tokensAt, within, Nat.not_lt.mpr h]

theorem tokensAt_succ {level : Nat} {t : Formula} (h : t.level ≠ level) :
    tokensAt level t = tokensAt (level + 1) t := by
  rcases Nat.lt_or_gt_of_ne h with hlt | hgt
  · rw [tokensAt_of_lt hlt, tokensAt_of_lt (Nat.lt_succ_of_lt hlt)]
  · rw [tokensAt_of_le (Nat.le_of_lt hgt), tokensAt_of_le (Nat.succ_le_of_lt hgt)]

theorem tokensAt_not (t : Formula) : tokensAt 2 (.not t) = .not :: tokensAt 2 t := rfl

theorem tokensAt_compare (left : Formula) (op : Comparison) (right : Formula) :
    tokensAt 3 (.compare left op right) = tokensAt 4 left ++ op.token :: tokensAt 4 right := by
  simp [tokensAt, within, lexemes, level, Lexeme.token]

theorem tokensAt_and (left right : Formula) :
    tokensAt 1 (.and left right) = tokensAt 1 left ++ .and :: tokensAt 2 right := by
  simp [tokensAt, within, lexemes, level, Lexeme.token]

theorem tokensAt_or (left right : Formula) :
    tokensAt 0 (.or left right) = tokensAt 0 left ++ .or :: tokensAt 1 right := by
  simp [tokensAt, within, lexemes, level, Lexeme.token]

theorem tokensAt_four (t : Formula) : ∃ token ts, tokensAt 4 t = token :: ts ∧ token ≠ .not := by
  by_cases h : t.level < 4
  · exact ⟨.lParen, _, tokensAt_of_lt h, by simp⟩
  · obtain ⟨a, rfl⟩ := eq_atom_of_level h
    exact ⟨a.token, [], rfl, by cases a <;> simp [Atom.token]⟩

theorem tokensAt_three (t : Formula) : ∃ token ts, tokensAt 3 t = token :: ts ∧ token ≠ .not := by
  by_cases h : t.level = 3
  · obtain ⟨left, op, right, rfl⟩ := eq_compare_of_level h
    obtain ⟨token, ts, hts, hne⟩ := tokensAt_four left
    exact ⟨token, _, by rw [tokensAt_compare, hts]; rfl, hne⟩
  · rw [tokensAt_succ h]
    exact tokensAt_four t

theorem tokensAt_ne_nil (level : Nat) (t : Formula) : tokensAt level t ≠ [] := by
  have h : t.lexemes ≠ [] := by
    cases t <;> simp [lexemes]
  unfold tokensAt within
  split_ifs <;> simp [h]

end Formula

open Formula

/-- The parser reads every formula that is printed at the level in at most `k` tokens. -/
def ReadsAt (follows : Token → Prop) (p : Parser) (k level : Nat) : Prop :=
  ∀ (t : Formula) (rest : List Token), (tokensAt level t).length ≤ k →
    (∀ token ∈ rest.head?, follows token) → p (tokensAt level t ++ rest) = .ok (t.toExpr, rest)

section

variable {expr : Parser} {k : Nat} (h : ReadsAt AfterOr expr k 0)
include h

theorem parsePrimary_readsAt : ReadsAt (fun _ => True) (parsePrimary expr) (k + 1) 4 := by
  intro t rest hlen _
  by_cases hlevel : t.level < 4
  · rw [tokensAt_of_lt hlevel] at hlen ⊢
    simp only [List.length_append, List.length_cons, List.length_nil] at hlen
    have hafter : ∀ token ∈ (Token.rParen :: rest).head?, AfterOr token := by
      simp [AfterOr, AfterAnd, AfterCompare, cmpOp]
    have hinner := h t (.rParen :: rest) (by omega) hafter
    simp [parsePrimary, hinner]
  · obtain ⟨a, rfl⟩ := eq_atom_of_level hlevel
    cases a <;> rfl

theorem parseCompare_compare (left : Formula) (op : Comparison) (right : Formula)
    (rest : List Token) (hlen : (tokensAt 3 (.compare left op right)).length ≤ k + 1) :
    parseCompare expr (tokensAt 3 (.compare left op right) ++ rest) =
      .ok ((Formula.compare left op right).toExpr, rest) := by
  rw [tokensAt_compare] at hlen ⊢
  simp only [List.length_append, List.length_cons] at hlen
  have hprimary := parsePrimary_readsAt h
  have hleft := hprimary left (op.token :: (tokensAt 4 right ++ rest)) (by omega) (by simp)
  have hright := hprimary right rest (by omega) (by simp)
  have hop : cmpOp op.token = some op.op := by cases op <;> rfl
  simp [parseCompare, hleft, hright, hop, toExpr]

theorem parseCompare_readsAt : ReadsAt AfterCompare (parseCompare expr) (k + 1) 3 := by
  intro t rest hlen hfollows
  by_cases hlevel : t.level = 3
  · obtain ⟨left, op, right, rfl⟩ := eq_compare_of_level hlevel
    exact parseCompare_compare h left op right rest hlen
  · rw [tokensAt_succ hlevel] at hlen ⊢
    have hnone : rest.head?.bind cmpOp = none := Option.bind_eq_none_iff.mpr hfollows
    simp [parseCompare, parsePrimary_readsAt h t rest hlen (by simp), hnone]

theorem parseNot_readsAt : ReadsAt AfterCompare (parseNot expr) (k + 1) 2 := by
  intro t rest hlen hfollows
  have hcompare : ∀ t : Formula, t.level ≠ 2 → (tokensAt 2 t).length ≤ k + 1 →
      parseNot expr (tokensAt 2 t ++ rest) = .ok (t.toExpr, rest) := by
    intro t hlevel hlen
    rw [tokensAt_succ hlevel] at hlen ⊢
    obtain ⟨token, ts, hts, hne⟩ := tokensAt_three t
    rw [parseNot_of_ne (by simpa [hts] using hne)]
    exact parseCompare_readsAt h t rest hlen hfollows
  induction t with
  | not t ih =>
    rw [tokensAt_not] at hlen ⊢
    have hinner := ih (Nat.le_of_succ_le hlen)
    simp [parseNot, hinner, toExpr]
  | atom a => exact hcompare _ (by simp [level]) hlen
  | compare left op right => exact hcompare _ (by simp [level]) hlen
  | and left right => exact hcompare _ (by simp [level]) hlen
  | or left right => exact hcompare _ (by simp [level]) hlen

end

theorem leftAssoc_end {operand : Parser} {op : Token} {make : Expr → Expr → Expr} {left : Expr}
    {ts : List Token} (h : ts.head? ≠ some op) (n : Nat) :
    leftAssoc operand op make n left ts = .ok (left, ts) := by
  cases n <;> simp [leftAssoc, h]

section

variable {follows : Token → Prop} {operand : Parser} {op : Token} {make : Expr → Expr → Expr}
  {mk : Formula → Formula → Formula} {k lv : Nat}
  (hop : follows op)
  (htokens : ∀ left right,
    tokensAt lv (mk left right) = tokensAt lv left ++ op :: tokensAt (lv + 1) right)
  (hexpr : ∀ left right, (mk left right).toExpr = make left.toExpr right.toExpr)
  (hlevel : ∀ t : Formula, t.level = lv → ∃ left right, t = mk left right)
  (hoperand : ReadsAt follows operand k (lv + 1))
include hop htokens hexpr hlevel hoperand

theorem leftAssoc_reads (n : Nat) (t : Formula) (rest : List Token)
    (hlen : (tokensAt lv t).length ≤ k) (hn : (tokensAt lv t).length ≤ n + 1)
    (hfollows : ∀ token ∈ rest.head?, follows token) :
    ∃ m, n + 1 ≤ m + (tokensAt lv t).length ∧
      (operand (tokensAt lv t ++ rest) >>= fun (left, ts) => leftAssoc operand op make n left ts) =
        leftAssoc operand op make m t.toExpr rest := by
  induction hl : (tokensAt lv t).length using Nat.strong_induction_on generalizing t rest with
  | h l ih =>
    subst hl
    by_cases hlv : t.level = lv
    · obtain ⟨left, right, rfl⟩ := hlevel t hlv
      rw [htokens] at hlen hn ih ⊢
      rw [List.length_append, List.length_cons] at hlen hn ih ⊢
      obtain ⟨m, hm, hleft⟩ := ih _ (by omega) left (op :: tokensAt (lv + 1) right ++ rest)
        (by omega) (by omega) (by simpa using hop) rfl
      obtain ⟨m, rfl⟩ : ∃ k, m = k + 1 := ⟨m - 1, by omega⟩
      refine ⟨m, by omega, ?_⟩
      rw [List.append_assoc, hleft, leftAssoc, List.cons_append, List.head?_cons, if_pos rfl,
        List.tail_cons, hoperand right rest (by omega) hfollows, ok_bind, hexpr]
    · rw [tokensAt_succ hlv] at hlen hn ⊢
      have hpos := List.length_pos_iff.mpr (tokensAt_ne_nil (lv + 1) t)
      refine ⟨n, by omega, ?_⟩
      rw [hoperand t rest hlen hfollows]
      rfl

theorem leftAssoc_readsAt {n : Nat} (hn : k ≤ n + 1) :
    ReadsAt (fun token => follows token ∧ token ≠ op)
      (fun ts => operand ts >>= fun (left, ts) => leftAssoc operand op make n left ts) k lv := by
  intro t rest hlen hfollows
  obtain ⟨m, -, hm⟩ := leftAssoc_reads hop htokens hexpr hlevel hoperand n t rest hlen (by omega)
    fun token htoken => (hfollows token htoken).1
  have hend : rest.head? ≠ some op := fun hhead => (hfollows op hhead).2 rfl
  exact hm.trans (leftAssoc_end hend m)

end

theorem parseAnd_readsAt {expr : Parser} {k : Nat} (h : ReadsAt AfterOr expr k 0) :
    ReadsAt AfterAnd (parseAnd expr k) (k + 1) 1 := by
  have hand : AfterCompare .and := rfl
  exact leftAssoc_readsAt hand tokensAt_and (fun _ _ => rfl) (fun _ => eq_and_of_level)
    (parseNot_readsAt h) (Nat.le_refl _)

theorem parseOr_readsAt {expr : Parser} {k : Nat} (h : ReadsAt AfterOr expr k 0) :
    ReadsAt AfterOr (parseOr expr k) (k + 1) 0 := by
  have hor : AfterAnd .or := ⟨rfl, by simp⟩
  exact leftAssoc_readsAt hor tokensAt_or (fun _ _ => rfl) (fun _ => eq_or_of_level)
    (parseAnd_readsAt h) (Nat.le_refl _)

theorem parseExprWithin_readsAt (n : Nat) : ReadsAt AfterOr (parseExprWithin n) n 0 := by
  induction n with
  | zero =>
    intro t rest hlen _
    exact absurd (List.length_eq_zero_iff.mp (Nat.le_zero.mp hlen)) (tokensAt_ne_nil 0 t)
  | succ n ih => exact parseOr_readsAt ih

theorem tokenize_print (t : Formula) : tokenize t.print = .ok (tokensAt 0 t) :=
  tokenize_join t.lexemes

theorem parseExpr_tokensAt (t : Formula) : parseExpr (tokensAt 0 t) = .ok (t.toExpr, []) := by
  have hread := parseExprWithin_readsAt ((tokensAt 0 t).length + 1) t [] (Nat.le_succ _) (by simp)
  rwa [List.append_nil] at hread

/-- A formula that is printed is read back, to its last token. -/
theorem parseExpr_print (t : Formula) :
    ∃ ts, tokenize t.print = .ok ts ∧ parseExpr ts = .ok (t.toExpr, []) :=
  ⟨tokensAt 0 t, tokenize_print t, parseExpr_tokensAt t⟩

theorem parseExpr_compare_compare (left right : Formula) (op op' : Comparison) (ts : List Token) :
    parseExpr (tokensAt 3 (.compare left op right) ++ op'.token :: ts) =
      .ok ((Formula.compare left op right).toExpr, op'.token :: ts) := by
  obtain ⟨token, ts', hts, hne⟩ := tokensAt_three (.compare left op right)
  have hand : (op'.token :: ts).head? ≠ some .and := by cases op' <;> simp [Comparison.token]
  have hor : (op'.token :: ts).head? ≠ some .or := by cases op' <;> simp [Comparison.token]
  have hlen : (tokensAt 3 (.compare left op right)).length ≤
      (tokensAt 3 (.compare left op right) ++ op'.token :: ts).length + 1 := by
    rw [List.length_append]
    omega
  have hcompare := parseCompare_compare (parseExprWithin_readsAt _) left op right
    (op'.token :: ts) hlen
  rw [parseExpr, parseExprWithin, parseOr, parseAnd, parseNot_of_ne (by simpa [hts] using hne),
    hcompare, ok_bind]
  dsimp only
  rw [leftAssoc_end hand, ok_bind]
  exact leftAssoc_end hor _

theorem evaluateGuard_print (t : Formula) (bindings : FieldBindings) :
    evaluateGuard t.print bindings = evalBool bindings t.toExpr := by
  rw [evaluateGuard, tokenize_print, ok_bind, parseExpr_tokensAt, ok_bind]

end Luaml.Guard
