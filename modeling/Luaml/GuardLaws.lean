import Luaml.Guard

namespace Luaml.Guard

open Rust Str Res

theorem readOperator_suffix {c : Char} {s rest : Str} {token : Token}
    (h : readOperator c s = some (token, rest)) : rest <:+ s := by
  unfold readOperator at h
  split at h <;> cases h
  all_goals first
    | exact List.suffix_refl _
    | exact List.tail_suffix _

theorem returns_readToken (c : Char) (s : Str) : (readToken c s).Returns := by
  unfold readToken
  split
  · exact returns_ok _
  · split_ifs
    · unfold readString
      split <;> simp
    · simp only [readNumber]
      split <;> simp
    · exact returns_ok _
    · exact returns_fail _ _ _

theorem readToken_suffix {c : Char} {s rest : Str} {token : Token}
    (h : readToken c s = .ok (token, rest)) : rest <:+ s := by
  unfold readToken at h
  split at h
  · next hop => exact readOperator_suffix (hop.trans (congrArg some (Res.ok.inj h)))
  · split_ifs at h
    · unfold readString at h
      split at h
      · next text rest' hs =>
        obtain ⟨-, rfl⟩ := Prod.mk.inj (Res.ok.inj h)
        exact ⟨text ++ [c], by simp [(splitOnce_eq_some hs).1]⟩
      · simp at h
    · simp only [readNumber] at h
      split at h
      · obtain ⟨-, rfl⟩ := Prod.mk.inj (Res.ok.inj h)
        exact List.dropWhile_suffix _
      · simp at h
    · obtain ⟨-, rfl⟩ := Prod.mk.inj (Res.ok.inj h)
      exact List.dropWhile_suffix _
    · simp at h

theorem tokensWithin_eq {n m : Nat} {s : Str} (hn : s.length ≤ n) (hm : s.length ≤ m) :
    tokensWithin n s = tokensWithin m s := by
  induction n generalizing m s with
  | zero =>
    obtain rfl := List.length_eq_zero_iff.mp (Nat.le_zero.mp hn)
    rw [tokensWithin, tokensWithin]
  | succ n ih =>
    cases s with
    | nil => rw [tokensWithin, tokensWithin]
    | cons c s =>
      simp only [List.length_cons] at hn hm
      obtain ⟨m, rfl⟩ : ∃ k, m = k + 1 := ⟨m - 1, by omega⟩
      rw [tokensWithin, tokensWithin, ih (m := m) (s := s) (by omega) (by omega)]
      refine if_congr Iff.rfl rfl ?_
      cases hread : readToken c s with
      | err e => rfl
      | panic c => rfl
      | ok r =>
        obtain ⟨token, rest⟩ := r
        have hlen := (readToken_suffix hread).length_le
        simp only [ok_bind, ih (show rest.length ≤ n by omega) (show rest.length ≤ m by omega)]

theorem tokenize_cons (c : Char) (s : Str) :
    tokenize (c :: s) =
      if isSpace c then tokenize s
      else readToken c s >>= fun (token, rest) =>
        tokenize rest >>= fun tokens => .ok (token :: tokens) := by
  rw [tokenize, List.length_cons, tokensWithin]
  refine if_congr Iff.rfl rfl ?_
  cases hread : readToken c s with
  | err e => rfl
  | panic c => rfl
  | ok r =>
    obtain ⟨token, rest⟩ := r
    have hlen := (readToken_suffix hread).length_le
    simp only [ok_bind, tokenize, tokensWithin_eq hlen (Nat.le_refl _)]

theorem returns_tokenize (s : Str) : (tokenize s).Returns := by
  cases s with
  | nil => exact returns_ok _
  | cons c s =>
    rw [tokenize_cons]
    split_ifs
    · exact returns_tokenize s
    · rw [returns_bind]
      refine ⟨returns_readToken c s, fun ⟨token, rest⟩ hread => ?_⟩
      have := (readToken_suffix hread).length_le
      exact returns_bind.mpr ⟨returns_tokenize rest, fun _ _ => returns_ok _⟩
termination_by s.length

theorem takeWhile_space {p : Char → Bool} (hp : p ' ' = false) (s t : Str) :
    (s ++ ' ' :: t).takeWhile p = s.takeWhile p := by
  induction s with
  | nil => simp [hp]
  | cons d s ih =>
    rw [List.cons_append, List.takeWhile_cons, List.takeWhile_cons, ih]

theorem dropWhile_space {p : Char → Bool} (hp : p ' ' = false) (s t : Str) :
    (s ++ ' ' :: t).dropWhile p = s.dropWhile p ++ ' ' :: t := by
  induction s with
  | nil => simp [hp]
  | cons d s ih =>
    rw [List.cons_append, List.dropWhile_cons, List.dropWhile_cons, ih]
    split_ifs <;> rfl

theorem readOperator_append (c : Char) (s t : Str) :
    readOperator c (s ++ ' ' :: t) =
      (readOperator c s).map fun (token, rest) => (token, rest ++ ' ' :: t) := by
  have hstart : startsWith (s ++ ' ' :: t) '=' = startsWith s '=' := by cases s <;> rfl
  have htail : startsWith s '=' = true → (s ++ ' ' :: t).tail = s.tail ++ ' ' :: t := by
    intro h
    obtain ⟨u, rfl⟩ := eq_cons_of_startsWith h
    rfl
  unfold readOperator
  rw [hstart]
  split <;> first
    | rfl
    | rw [htail ‹_›]; rfl

theorem readToken_append {c : Char} {s rest : Str} {token : Token}
    (h : readToken c s = .ok (token, rest)) (t : Str) :
    readToken c (s ++ ' ' :: t) = .ok (token, rest ++ ' ' :: t) := by
  have hdigit : (s ++ ' ' :: t).head?.any isDigit = s.head?.any isDigit := by cases s <;> rfl
  unfold readToken at h ⊢
  rw [readOperator_append, hdigit]
  cases hop : readOperator c s with
  | some read =>
    rw [hop] at h
    obtain rfl := Res.ok.inj h
    rfl
  | none =>
    rw [hop] at h
    simp only [Option.map_none]
    split_ifs at h ⊢ with hquote hnum hword
    · unfold readString at h ⊢
      cases hs : splitOnce c s with
      | none => simp [hs] at h
      | some pq =>
        simp only [hs] at h
        obtain ⟨rfl, rfl⟩ := Prod.mk.inj (Res.ok.inj h)
        rw [splitOnce_append hs]
    · simp only [readNumber, takeWhile_space (p := isNumberChar) rfl,
        dropWhile_space (p := isNumberChar) rfl] at h ⊢
      split at h
      · obtain ⟨rfl, rfl⟩ := Prod.mk.inj (Res.ok.inj h)
        rfl
      · simp at h
    · obtain ⟨rfl, rfl⟩ := Prod.mk.inj (Res.ok.inj h)
      rw [takeWhile_space (p := isWordChar) rfl, dropWhile_space (p := isWordChar) rfl]
    · simp at h

theorem tokenize_append {s : Str} {ts : List Token} (h : tokenize s = .ok ts) (t : Str) :
    tokenize (s ++ ' ' :: t) = tokenize t >>= fun us => .ok (ts ++ us) := by
  induction hn : s.length using Nat.strong_induction_on generalizing s ts with
  | h n ih =>
    subst hn
    cases s with
    | nil =>
      obtain rfl := Res.ok.inj h
      have hspace : isSpace ' ' = true := rfl
      rw [List.nil_append, tokenize_cons, if_pos hspace]
      cases tokenize t <;> rfl
    | cons c s =>
      rw [tokenize_cons] at h
      rw [List.cons_append, tokenize_cons]
      split_ifs at h ⊢ with hspace
      · exact ih s.length (Nat.lt_succ_self _) h rfl
      · obtain ⟨⟨token, rest⟩, hread, hrest⟩ := bind_eq_ok.mp h
        obtain ⟨us, hus, hts⟩ := bind_eq_ok.mp hrest
        obtain rfl := Res.ok.inj hts
        have hlen := (readToken_suffix hread).length_le
        simp only [readToken_append hread, ok_bind, ih rest.length (Nat.lt_succ_of_le hlen) hus rfl]
        cases tokenize t <;> rfl

def Total (n : Nat) {α : Type} (p : List Token → Res GuardError (α × List Token)) : Prop :=
  ∀ ts, ts.length < n → (p ts).Returns ∧ ∀ x r, p ts = .ok (x, r) → r.length < ts.length

theorem parsePrimary_total {n : Nat} {expr : Parser} (h : Total n expr) :
    Total (n + 1) (parsePrimary expr) := by
  intro ts hts
  unfold parsePrimary
  split
  case h_6 ts =>
    simp only [List.length_cons] at hts
    obtain ⟨hret, hlen⟩ := h ts (by omega)
    rw [returns_bind]
    refine ⟨⟨hret, fun r _ => ?_⟩, fun x r hx => ?_⟩
    · dsimp only
      split <;> simp
    · obtain ⟨⟨inner, r'⟩, hinner, hclose⟩ := bind_eq_ok.mp hx
      have := hlen _ _ hinner
      dsimp only at hclose
      split at hclose
      · obtain ⟨-, rfl⟩ := Prod.mk.inj (Res.ok.inj hclose)
        simp only [List.length_cons] at this ⊢
        omega
      · simp at hclose
  case h_7 => simp
  case h_8 => simp
  all_goals simp only [returns_ok, Res.ok.injEq, Prod.mk.injEq, true_and]
  all_goals
    rintro x r ⟨-, rfl⟩
    exact Nat.lt_succ_self _

theorem parseCompare_total {n : Nat} {expr : Parser} (h : Total n expr) :
    Total (n + 1) (parseCompare expr) := by
  intro ts hts
  obtain ⟨hret, hlen⟩ := parsePrimary_total h ts hts
  unfold parseCompare
  rw [returns_bind]
  refine ⟨⟨hret, fun ⟨left, r⟩ hleft => ?_⟩, fun x r hx => ?_⟩
  · have := hlen _ _ hleft
    dsimp only
    split
    · rw [returns_bind]
      refine ⟨(parsePrimary_total h r.tail ?_).1, fun _ _ => returns_ok _⟩
      simp only [List.length_tail]
      omega
    · exact returns_ok _
  · obtain ⟨⟨left, r₁⟩, hleft, hrest⟩ := bind_eq_ok.mp hx
    have := hlen _ _ hleft
    dsimp only at hrest
    split at hrest
    · obtain ⟨⟨right, r₂⟩, hright, hr⟩ := bind_eq_ok.mp hrest
      obtain ⟨-, rfl⟩ := Prod.mk.inj (Res.ok.inj hr)
      have htail : r₁.tail.length < n + 1 := by
        simp only [List.length_tail]
        omega
      have : r₂.length < r₁.tail.length := (parsePrimary_total h r₁.tail htail).2 _ _ hright
      simp only [List.length_tail] at this ⊢
      omega
    · obtain ⟨-, rfl⟩ := Prod.mk.inj (Res.ok.inj hrest)
      exact this

theorem parseNot_total {n : Nat} {expr : Parser} (h : Total n expr) :
    Total (n + 1) (parseNot expr) := by
  intro ts hts
  induction ts with
  | nil => exact parseCompare_total h [] hts
  | cons t ts ih =>
    by_cases ht : t = .not
    · subst ht
      simp only [List.length_cons] at hts
      obtain ⟨hret, hlen⟩ := ih (by omega)
      rw [parseNot, returns_bind]
      refine ⟨⟨hret, fun _ _ => returns_ok _⟩, fun x r hx => ?_⟩
      obtain ⟨⟨inner, r'⟩, hinner, hr⟩ := bind_eq_ok.mp hx
      obtain ⟨-, rfl⟩ := Prod.mk.inj (Res.ok.inj hr)
      have := hlen _ _ hinner
      simp only [List.length_cons]
      omega
    · have hcompare : parseNot expr (t :: ts) = parseCompare expr (t :: ts) := by
        rw [parseNot]
        rintro ts' heq
        exact ht (List.cons.inj heq).1
      rw [hcompare]
      exact parseCompare_total h (t :: ts) hts

theorem leftAssoc_total {n m : Nat} {operand : Parser} (h : Total n operand) (op : Token)
    (make : Expr → Expr → Expr) (left : Expr) {ts : List Token} (hm : ts.length ≤ m)
    (hn : ts.length ≤ n) :
    (leftAssoc operand op make m left ts).Returns ∧
      ∀ x r, leftAssoc operand op make m left ts = .ok (x, r) → r.length ≤ ts.length := by
  induction m generalizing left ts with
  | zero =>
    obtain rfl := List.length_eq_zero_iff.mp (Nat.le_zero.mp hm)
    simp [leftAssoc]
  | succ m ih =>
    rw [leftAssoc]
    split_ifs with hop
    · obtain ⟨ts, rfl⟩ := List.head?_eq_some_iff.mp hop
      simp only [List.length_cons] at hm hn
      obtain ⟨hret, hlen⟩ := h ts (by omega)
      rw [List.tail_cons, returns_bind]
      refine ⟨⟨hret, fun ⟨right, r⟩ hright => ?_⟩, fun x r hx => ?_⟩
      · have := hlen _ _ hright
        exact (ih _ (show r.length ≤ m by omega) (by omega)).1
      · obtain ⟨⟨right, r'⟩, hright, hr⟩ := bind_eq_ok.mp hx
        have := hlen _ _ hright
        have := (ih _ (show r'.length ≤ m by omega) (by omega)).2 _ _ hr
        simp only [List.length_cons]
        omega
    · simp

theorem parseAnd_total {n : Nat} {expr : Parser} (h : Total n expr) :
    Total (n + 1) (parseAnd expr n) := by
  intro ts hts
  obtain ⟨hret, hlen⟩ := parseNot_total h ts hts
  unfold parseAnd
  rw [returns_bind]
  refine ⟨⟨hret, fun ⟨left, r⟩ hleft => ?_⟩, fun x r hx => ?_⟩
  · have := hlen _ _ hleft
    exact (leftAssoc_total (parseNot_total h) _ _ left (by omega) (by omega)).1
  · obtain ⟨⟨left, r'⟩, hleft, hr⟩ := bind_eq_ok.mp hx
    have := hlen _ _ hleft
    have := (leftAssoc_total (parseNot_total h) .and .and left
      (show r'.length ≤ n by omega) (by omega)).2 _ _ hr
    omega

theorem parseOr_total {n : Nat} {expr : Parser} (h : Total n expr) :
    Total (n + 1) (parseOr expr n) := by
  intro ts hts
  obtain ⟨hret, hlen⟩ := parseAnd_total h ts hts
  unfold parseOr
  rw [returns_bind]
  refine ⟨⟨hret, fun ⟨left, r⟩ hleft => ?_⟩, fun x r hx => ?_⟩
  · have := hlen _ _ hleft
    exact (leftAssoc_total (parseAnd_total h) _ _ left (by omega) (by omega)).1
  · obtain ⟨⟨left, r'⟩, hleft, hr⟩ := bind_eq_ok.mp hx
    have := hlen _ _ hleft
    have := (leftAssoc_total (parseAnd_total h) .or .or left
      (show r'.length ≤ n by omega) (by omega)).2 _ _ hr
    omega

theorem parseExprWithin_total (n : Nat) : Total n (parseExprWithin n) := by
  induction n with
  | zero => exact fun ts hts => absurd hts (Nat.not_lt_zero _)
  | succ n ih => exact parseOr_total ih

theorem returns_resolveValue (bindings : FieldBindings) (e : Expr) :
    (resolveValue bindings e).Returns := by
  cases e <;> simp only [resolveValue, returns_ok, returns_fail]
  split <;> simp

theorem returns_evalBool (bindings : FieldBindings) (e : Expr) :
    (evalBool bindings e).Returns := by
  induction e with
  | boolLit b => exact returns_ok _
  | numberLit n => exact returns_ok _
  | stringLit s => exact returns_ok _
  | nil => exact returns_ok _
  | var name => exact returns_ok _
  | not e ih =>
    rw [evalBool, returns_bind]
    exact ⟨ih, fun _ _ => returns_ok _⟩
  | compare left op right =>
    rw [evalBool, evalCompare, returns_bind]
    refine ⟨returns_resolveValue _ _, fun lv _ => ?_⟩
    rw [returns_bind]
    refine ⟨returns_resolveValue _ _, fun rv _ => ?_⟩
    cases op <;> exact returns_ok _
  | and left right ihl ihr =>
    rw [evalBool, returns_bind]
    refine ⟨ihl, fun b _ => ?_⟩
    split_ifs
    · exact ihr
    · exact returns_ok _
  | or left right ihl ihr =>
    rw [evalBool, returns_bind]
    refine ⟨ihl, fun b _ => ?_⟩
    split_ifs
    · exact returns_ok _
    · exact ihr

theorem returns_evaluateGuard (expr : Str) (bindings : FieldBindings) :
    (evaluateGuard expr bindings).Returns := by
  rw [evaluateGuard, returns_bind]
  refine ⟨returns_tokenize expr, fun ts _ => ?_⟩
  rw [returns_bind]
  refine ⟨(parseExprWithin_total _ ts (Nat.lt_succ_self _)).1, fun r _ => ?_⟩
  dsimp only
  split
  · exact returns_fail _ _ _
  · exact returns_evalBool _ _

end Luaml.Guard
