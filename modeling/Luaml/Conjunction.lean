import Luaml.GuardLaws
import Luaml.Frontmatter
import Mathlib.Data.List.Forall2

namespace Luaml.Guard

open Rust Str Res

/-- `p'` reads what `p` reads, also in front of more tokens, if those start with one that may
follow. -/
def Extends {α : Type} (follows : Token → Prop)
    (p p' : List Token → Res GuardError (α × List Token)) :
    Prop :=
  ∀ ts x r s, p ts = .ok (x, r) → (r = [] → ∀ t ∈ s.head?, follows t) →
    p' (ts ++ s) = .ok (x, r ++ s)

theorem Extends.read {α : Type} {follows : Token → Prop}
    {p p' : List Token → Res GuardError (α × List Token)} (h : Extends follows p p')
    {ts r : List Token} {x : α} (hp : p ts = .ok (x, r)) : p' ts = .ok (x, r) := by
  simpa using h ts x r [] hp (by simp)

theorem head?_append_of_ends {follows : Token → Prop} {r s : List Token} {op : Token}
    (hend : r = [] → ∀ t ∈ s.head?, follows t) (hop : ¬follows op) :
    (r ++ s).head? = some op ↔ r.head? = some op := by
  cases r with
  | nil =>
    simp only [List.nil_append, List.head?_nil, reduceCtorEq, iff_false]
    exact fun h => hop (hend rfl op h)
  | cons t r => simp

def AfterCompare (t : Token) : Prop := cmpOp t = none

def AfterAnd (t : Token) : Prop := AfterCompare t ∧ t ≠ .and

def AfterOr (t : Token) : Prop := AfterAnd t ∧ t ≠ .or

theorem parsePrimary_extends {expr expr' : Parser} (h : Extends AfterOr expr expr') :
    Extends (fun _ => True) (parsePrimary expr) (parsePrimary expr') := by
  intro ts x r s hts _
  unfold parsePrimary at hts
  split at hts
  case h_6 ts =>
    obtain ⟨⟨inner, r'⟩, hinner, hclose⟩ := bind_eq_ok.mp hts
    dsimp only at hclose
    split at hclose
    · next r'' =>
      obtain ⟨rfl, rfl⟩ := Prod.mk.inj (Res.ok.inj hclose)
      have := h ts inner (.rParen :: r'') s hinner (by simp)
      simp only [List.cons_append, parsePrimary, this, ok_bind]
    · simp at hclose
  case h_7 => simp at hts
  case h_8 => simp at hts
  all_goals
    obtain ⟨rfl, rfl⟩ := Prod.mk.inj (Res.ok.inj hts)
    rfl

theorem parseCompare_extends {expr expr' : Parser} (h : Extends AfterOr expr expr') :
    Extends AfterCompare (parseCompare expr) (parseCompare expr') := by
  intro ts x r s hts hend
  obtain ⟨⟨left, r₁⟩, hleft, hrest⟩ := bind_eq_ok.mp hts
  have hleft' := parsePrimary_extends h ts left r₁ s hleft (by simp)
  simp only [parseCompare, hleft', ok_bind]
  cases r₁ with
  | nil =>
    obtain ⟨rfl, rfl⟩ := Prod.mk.inj (Res.ok.inj hrest)
    have hnone : (([] : List Token) ++ s).head?.bind cmpOp = none := by
      simp only [List.nil_append, Option.bind_eq_none_iff]
      exact fun t ht => hend rfl t ht
    rw [hnone]
  | cons t r₁ =>
    simp only [List.cons_append, List.head?_cons, Option.bind_some, List.tail_cons] at hrest ⊢
    cases hop : cmpOp t with
    | none =>
      rw [hop] at hrest
      obtain ⟨rfl, rfl⟩ := Prod.mk.inj (Res.ok.inj hrest)
      rfl
    | some op =>
      rw [hop] at hrest
      obtain ⟨⟨right, r₂⟩, hright, hr⟩ := bind_eq_ok.mp hrest
      obtain ⟨rfl, rfl⟩ := Prod.mk.inj (Res.ok.inj hr)
      have hright' := parsePrimary_extends h r₁ right r₂ s hright (by simp)
      simp only [hright', ok_bind]

theorem parseNot_of_ne {expr : Parser} {ts : List Token} (h : ts.head? ≠ some .not) :
    parseNot expr ts = parseCompare expr ts := by
  unfold parseNot
  split
  · simp at h
  · rfl

theorem parseNot_extends {expr expr' : Parser} (h : Extends AfterOr expr expr') :
    Extends AfterCompare (parseNot expr) (parseNot expr') := by
  intro ts
  induction ts with
  | nil =>
    intro x r s hts _
    rw [parseNot_of_ne (by simp)] at hts
    obtain ⟨_, hnil, -⟩ := bind_eq_ok.mp hts
    simp [parsePrimary] at hnil
  | cons t ts ih =>
    intro x r s hts hend
    by_cases ht : t = .not
    · subst ht
      rw [parseNot] at hts
      obtain ⟨⟨inner, r'⟩, hinner, hr⟩ := bind_eq_ok.mp hts
      obtain ⟨rfl, rfl⟩ := Prod.mk.inj (Res.ok.inj hr)
      simp only [List.cons_append, parseNot, ih inner r' s hinner hend, ok_bind]
    · rw [parseNot_of_ne (by simpa using ht)] at hts
      rw [parseNot_of_ne (by simpa using ht)]
      exact parseCompare_extends h _ _ _ _ hts hend

def chain {α : Type} (operand : List Token → Res GuardError (α × List Token)) (op : Token) :
    Nat → List Token → Res GuardError (List α × List Token)
  | 0, ts => operand ts >>= fun (x, ts) =>
    if ts.head? = some op then .panic .recursion else .ok ([x], ts)
  | n + 1, ts => operand ts >>= fun (x, ts) =>
    if ts.head? = some op then
      chain operand op n ts.tail >>= fun (xs, ts) => .ok (x :: xs, ts)
    else .ok ([x], ts)

variable {α β : Type} {operand operand' : List Token → Res GuardError (α × List Token)} {op : Token}

theorem chain_cases {n : Nat} {ts r : List Token} {xs : List α}
    (h : chain operand op n ts = .ok (xs, r)) :
    ∃ x r₁, operand ts = .ok (x, r₁) ∧
      (r₁.head? ≠ some op ∧ xs = [x] ∧ r = r₁ ∨
        ∃ m r₂ ys, n = m + 1 ∧ r₁ = op :: r₂ ∧ chain operand op m r₂ = .ok (ys, r) ∧
          xs = x :: ys) := by
  cases n with
  | zero =>
    obtain ⟨⟨x, r₁⟩, hx, hr⟩ := bind_eq_ok.mp h
    dsimp only at hr
    split_ifs at hr with hop
    obtain ⟨rfl, rfl⟩ := Prod.mk.inj (Res.ok.inj hr)
    exact ⟨x, r₁, hx, .inl ⟨hop, rfl, rfl⟩⟩
  | succ n =>
    obtain ⟨⟨x, r₁⟩, hx, hr⟩ := bind_eq_ok.mp h
    dsimp only at hr
    split_ifs at hr with hop
    · obtain ⟨r₂, rfl⟩ := List.head?_eq_some_iff.mp hop
      obtain ⟨⟨ys, r'⟩, hys, hr⟩ := bind_eq_ok.mp hr
      obtain ⟨rfl, rfl⟩ := Prod.mk.inj (Res.ok.inj hr)
      exact ⟨x, op :: r₂, hx, .inr ⟨n, r₂, ys, rfl, rfl, hys, rfl⟩⟩
    · obtain ⟨rfl, rfl⟩ := Prod.mk.inj (Res.ok.inj hr)
      exact ⟨x, r₁, hx, .inl ⟨hop, rfl, rfl⟩⟩

theorem chain_last {n : Nat} {ts r : List Token} {x : α} (hx : operand ts = .ok (x, r))
    (hr : r.head? ≠ some op) : chain operand op n ts = .ok ([x], r) := by
  cases n <;> simp [chain, hx, hr]

theorem chain_more {n : Nat} {ts r r' : List Token} {x : α} {xs : List α}
    (hx : operand ts = .ok (x, op :: r)) (hxs : chain operand op n r = .ok (xs, r')) :
    chain operand op (n + 1) ts = .ok (x :: xs, r') := by
  simp [chain, hx, hxs]

theorem chain_ne_nil {n : Nat} {ts r : List Token} {xs : List α}
    (h : chain operand op n ts = .ok (xs, r)) : xs ≠ [] := by
  obtain ⟨x, r₁, -, ⟨-, rfl, -⟩ | ⟨m, r₂, ys, -, -, -, rfl⟩⟩ := chain_cases h <;> simp

theorem chain_extends {follows : Token → Prop} {n m : Nat} (op : Token)
    (h : Extends follows operand operand') (hnm : n ≤ m) :
    Extends (fun t => follows t ∧ t ≠ op) (chain operand op n) (chain operand' op m) := by
  intro ts xs r s hts hend
  induction n generalizing m ts xs with
  | zero =>
    obtain ⟨x, r₁, hx, ⟨hr, rfl, rfl⟩ | ⟨m', r₂, ys, hn, -⟩⟩ := chain_cases hts
    · refine chain_last (h ts x r s hx fun he t ht => (hend he t ht).1) ?_
      rwa [Ne, head?_append_of_ends hend (by simp)]
    · simp at hn
  | succ n ih =>
    obtain ⟨x, r₁, hx, ⟨hr, rfl, rfl⟩ | ⟨m', r₂, ys, hn, rfl, hys, rfl⟩⟩ := chain_cases hts
    · refine chain_last (h ts x r s hx fun he t ht => (hend he t ht).1) ?_
      rwa [Ne, head?_append_of_ends hend (by simp)]
    · obtain rfl := Nat.succ.inj hn
      obtain ⟨m, rfl⟩ : ∃ k, m = k + 1 := ⟨m - 1, by omega⟩
      exact chain_more (h ts x (op :: r₂) s hx (by simp)) (ih (by omega) r₂ ys hys)

theorem chain_append {follows : Token → Prop} {n n' m : Nat} {ts us r : List Token} {xs ys : List α}
    (h : Extends follows operand operand') (hop : follows op)
    {operand₂ : List Token → Res GuardError (α × List Token)}
    (h₂ : Extends follows operand₂ operand')
    (hxs : chain operand op n ts = .ok (xs, [])) (hys : chain operand₂ op n' us = .ok (ys, r))
    (hm : n + n' + 1 ≤ m) : chain operand' op m (ts ++ op :: us) = .ok (xs ++ ys, r) := by
  obtain ⟨m, rfl⟩ : ∃ k, m = k + 1 := ⟨m - 1, by omega⟩
  induction n generalizing m ts xs with
  | zero =>
    obtain ⟨x, r₁, hx, ⟨hr, rfl, rfl⟩ | ⟨m', r₂, ys, hn, -⟩⟩ := chain_cases hxs
    · have := h ts x [] (op :: us) hx (by simpa using hop)
      exact chain_more this ((chain_extends op h₂ (by omega)).read hys)
    · simp at hn
  | succ n ih =>
    obtain ⟨x, r₁, hx, ⟨hr, rfl, rfl⟩ | ⟨m', r₂, ys', hn, rfl, hys', rfl⟩⟩ := chain_cases hxs
    · have := h ts x [] (op :: us) hx (by simpa using hop)
      exact chain_more this ((chain_extends op h₂ (by omega)).read hys)
    · obtain rfl := Nat.succ.inj hn
      obtain ⟨m, rfl⟩ : ∃ k, m = k + 1 := ⟨m - 1, by omega⟩
      exact chain_more (h ts x (op :: r₂) (op :: us) hx (by simp)) (ih hys' _ (by omega))

def joined (make : Expr → Expr → Expr) (none : Expr) : List Expr → Expr
  | [] => none
  | e :: es => es.foldl make e

def conj (es : List Expr) : Expr := joined .and (.boolLit true) es

def disj (ess : List (List Expr)) : Expr := joined .or (.boolLit false) (ess.map conj)

def terms (expr : Parser) (n : Nat) : List Token → Res GuardError (List Expr × List Token) :=
  chain (parseNot expr) .and n

def arms (expr : Parser) (n : Nat) : List Token → Res GuardError (List (List Expr) × List Token) :=
  chain (terms expr n) .or n

theorem leftAssoc_eq {make : Expr → Expr → Expr} {f : α → Expr} {p : Parser}
    (hp : ∀ ts, p ts = operand ts >>= fun (x, r) => .ok (f x, r)) (n : Nat) (left : Expr)
    (ts : List Token) :
    leftAssoc p op make n left ts =
      if ts.head? = some op then
        match n with
        | 0 => .panic .recursion
        | n + 1 =>
          chain operand op n ts.tail >>= fun (xs, r) => .ok ((xs.map f).foldl make left, r)
      else .ok (left, ts) := by
  induction n generalizing left ts with
  | zero => rfl
  | succ n ih =>
    rw [leftAssoc]
    refine if_congr Iff.rfl ?_ rfl
    rw [hp]
    cases hx : operand ts.tail with
    | err e => cases n <;> simp [chain, hx]
    | panic c => cases n <;> simp [chain, hx]
    | ok xr =>
      obtain ⟨x, r⟩ := xr
      simp only [ok_bind, ih]
      cases n with
      | zero =>
        simp only [chain, hx, ok_bind]
        split_ifs <;> rfl
      | succ n =>
        simp only [chain, hx, ok_bind]
        split_ifs
        · cases chain operand op n r.tail <;> rfl
        · rfl

theorem chain_loop (op : Token) {make : Expr → Expr → Expr} {f : α → Expr} {p : Parser}
    (hp : ∀ ts, p ts = operand ts >>= fun (x, r) => .ok (f x, r)) (none : Expr) (n : Nat)
    (ts : List Token) :
    (p ts >>= fun (left, r) => leftAssoc p op make n left r) =
      chain operand op n ts >>= fun (xs, r) => .ok (joined make none (xs.map f), r) := by
  rw [hp]
  cases hx : operand ts with
  | err e => cases n <;> simp [chain, hx]
  | panic c => cases n <;> simp [chain, hx]
  | ok xr =>
    obtain ⟨x, r⟩ := xr
    simp only [ok_bind, leftAssoc_eq hp]
    cases n with
    | zero =>
      simp only [chain, hx, ok_bind]
      split_ifs <;> rfl
    | succ n =>
      simp only [chain, hx, ok_bind]
      split_ifs
      · cases chain operand op n r.tail <;> rfl
      · rfl

theorem parseAnd_eq (expr : Parser) (n : Nat) (ts : List Token) :
    parseAnd expr n ts = terms expr n ts >>= fun (es, r) => .ok (conj es, r) := by
  have hp : ∀ ts, parseNot expr ts = parseNot expr ts >>= fun (e, r) => .ok (id e, r) := by
    intro ts
    cases parseNot expr ts <;> rfl
  refine (chain_loop .and hp (.boolLit true) n ts).trans ?_
  simp only [List.map_id, terms, conj]

theorem parseOr_eq (expr : Parser) (n : Nat) (ts : List Token) :
    parseOr expr n ts = arms expr n ts >>= fun (ess, r) => .ok (disj ess, r) :=
  chain_loop .or (parseAnd_eq expr n) (.boolLit false) n ts

theorem evalBool_joined {bindings : FieldBindings} {make : Expr → Expr → Expr}
    {scan : List Expr → Res GuardError Bool} (stop : Bool)
    (hmake : ∀ e e', evalBool bindings (make e e') =
      evalBool bindings e >>= fun b => if b = stop then .ok stop else evalBool bindings e')
    (hnil : scan [] = .ok !stop)
    (hcons : ∀ e es, scan (e :: es) =
      evalBool bindings e >>= fun b => if b = stop then .ok stop else scan es) (es : List Expr) :
    evalBool bindings (joined make (.boolLit !stop) es) = scan es := by
  have tail : ∀ e es, evalBool bindings (List.foldl make e es) = scan (e :: es) := by
    intro e es
    induction es generalizing e with
    | nil =>
      rw [List.foldl_nil, hcons, hnil]
      cases evalBool bindings e with
      | ok b => cases b <;> cases stop <;> rfl
      | err e => rfl
      | panic c => rfl
    | cons e' es ih =>
      rw [List.foldl_cons, ih, hcons, hcons, hcons, hmake]
      cases evalBool bindings e with
      | ok b => cases b <;> cases stop <;> rfl
      | err e => rfl
      | panic c => rfl
  cases es with
  | nil => rw [joined, hnil, evalBool]
  | cons e es => exact tail e es

theorem evalBool_joined_and (bindings : FieldBindings) (es : List Expr) :
    evalBool bindings (joined .and (.boolLit true) es) = all (evalBool bindings) es := by
  apply evalBool_joined false
  · intro e e'
    apply congrArg (evalBool bindings e >>= ·)
    funext b
    cases b <;> rfl
  · rfl
  · intro e es
    apply congrArg (evalBool bindings e >>= ·)
    funext b
    cases b <;> rfl

theorem evalBool_joined_or (bindings : FieldBindings) (es : List Expr) :
    evalBool bindings (joined .or (.boolLit false) es) = any (evalBool bindings) es := by
  apply evalBool_joined true
  · intro e e'
    simp [evalBool]
  · rfl
  · intro e es
    simp [any]

def evalAll (bindings : FieldBindings) (es : List Expr) : Res GuardError Bool :=
  all (evalBool bindings) es

theorem evalBool_disj (bindings : FieldBindings) (ess : List (List Expr)) :
    evalBool bindings (disj ess) = any (evalAll bindings) ess := by
  rw [disj, evalBool_joined_or]
  induction ess with
  | nil => rfl
  | cons es ess ih =>
    rw [List.map_cons, any, any, ih, conj, evalBool_joined_and, evalAll]

def armsOf (expr : Str) : Res GuardError (List (List Expr)) := do
  let tokens ← tokenize expr
  let (ess, rest) ← arms (parseExprWithin tokens.length) tokens.length tokens
  match rest with
  | token :: _ => fail "unexpected token after expression: " [] token
  | [] => .ok ess

theorem evaluateGuard_eq (expr : Str) (bindings : FieldBindings) :
    evaluateGuard expr bindings = armsOf expr >>= any (evalAll bindings) := by
  rw [evaluateGuard, armsOf]
  cases tokenize expr with
  | err e => rfl
  | panic c => rfl
  | ok tokens =>
    simp only [ok_bind, parseExpr, parseExprWithin, parseOr_eq]
    cases arms (parseExprWithin tokens.length) tokens.length tokens with
    | err e => rfl
    | panic c => rfl
    | ok r =>
      obtain ⟨ess, rest⟩ := r
      cases rest with
      | nil => exact evalBool_disj bindings ess
      | cons token rest => rfl

theorem parseExprWithin_extends {n m : Nat} (h : n ≤ m) :
    Extends AfterOr (parseExprWithin n) (parseExprWithin m) := by
  induction n generalizing m with
  | zero =>
    intro ts x r s hts
    simp [parseExprWithin] at hts
  | succ n ih =>
    obtain ⟨m, rfl⟩ : ∃ k, m = k + 1 := ⟨m - 1, by omega⟩
    have hnm : n ≤ m := by omega
    intro ts x r s hts hend
    rw [parseExprWithin, parseOr_eq] at hts ⊢
    obtain ⟨⟨ess, r'⟩, hess, hr⟩ := bind_eq_ok.mp hts
    obtain ⟨rfl, rfl⟩ := Prod.mk.inj (Res.ok.inj hr)
    have hterms := chain_extends .and (parseNot_extends (ih hnm)) hnm
    have harms := chain_extends .or hterms hnm
    rw [arms, terms, harms ts ess r' s hess hend]
    rfl

def glue : List (List Expr) → List (List Expr) → List (List Expr)
  | [], fss => fss
  | [es], fs :: fss => (es ++ fs) :: fss
  | [es], [] => [es]
  | es :: es' :: ess, fss => es :: glue (es' :: ess) fss

theorem glue_cons {ess : List (List Expr)} (h : ess ≠ []) (es : List Expr)
    (fss : List (List Expr)) : glue (es :: ess) fss = es :: glue ess fss := by
  cases ess with
  | nil => exact absurd rfl h
  | cons es' ess => rfl

theorem arms_append {n n' m : Nat} {ts us : List Token} {ess fss : List (List Expr)}
    (hess : arms (parseExprWithin n) n ts = .ok (ess, []))
    (hfss : arms (parseExprWithin n') n' us = .ok (fss, [])) (hm : n + n' + 1 ≤ m) :
    arms (parseExprWithin m) m (ts ++ .and :: us) = .ok (glue ess fss, []) := by
  have hand : AfterCompare .and := rfl
  have hnot := parseNot_extends (parseExprWithin_extends (n := n) (m := m) (by omega))
  have hnot' := parseNot_extends (parseExprWithin_extends (n := n') (m := m) (by omega))
  have hterms := chain_extends .and hnot (n := n) (m := m) (by omega)
  have hterms' := chain_extends .and hnot' (n := n') (m := m) (by omega)
  have meet : ∀ l ts es, n' ≤ l → terms (parseExprWithin n) n ts = .ok (es, []) →
      chain (terms (parseExprWithin m) m) .or l (ts ++ .and :: us) = .ok (glue [es] fss, []) := by
    intro l ts es hl hes
    obtain ⟨fs, r₁, hfs, hcases⟩ := chain_cases hfss
    have hrun := chain_append hnot hand hnot' hes hfs hm
    obtain ⟨hr, rfl, rfl⟩ | ⟨k, r₂, ys, rfl, rfl, hys, rfl⟩ := hcases
    · exact chain_last hrun hr
    · obtain ⟨l, rfl⟩ : ∃ j, l = j + 1 := ⟨l - 1, by omega⟩
      exact chain_more hrun ((chain_extends .or hterms' (by omega)).read hys)
  -- the induction is on the `or`s of the first guard, whose last run meets the second guard
  have loop : ∀ k l ts ess, k + n' ≤ l →
      chain (terms (parseExprWithin n) n) .or k ts = .ok (ess, []) →
      chain (terms (parseExprWithin m) m) .or l (ts ++ .and :: us) = .ok (glue ess fss, []) := by
    intro k
    induction k with
    | zero =>
      intro l ts ess hl hess
      obtain ⟨es, r₁, hes, ⟨-, rfl, rfl⟩ | ⟨k', r₂, ys, hk, -⟩⟩ := chain_cases hess
      · exact meet l ts es (by omega) hes
      · simp at hk
    | succ k ih =>
      intro l ts ess hl hess
      obtain ⟨es, r₁, hes, ⟨-, rfl, rfl⟩ | ⟨k', r₂, ys, hk, rfl, hys, rfl⟩⟩ := chain_cases hess
      · exact meet l ts es (by omega) hes
      · obtain rfl := Nat.succ.inj hk
        obtain ⟨l, rfl⟩ : ∃ j, l = j + 1 := ⟨l - 1, by omega⟩
        rw [glue_cons (chain_ne_nil hys)]
        exact chain_more (hterms ts es (.or :: r₂) _ hes (by simp)) (ih l r₂ ys (by omega) hys)
  exact loop n m ts ess (by omega) hess

theorem glue_nil (ess : List (List Expr)) : glue ess [] = ess := by
  induction ess with
  | nil => rfl
  | cons es ess ih =>
    cases ess with
    | nil => rfl
    | cons es' ess => rw [glue, ih]

/-- The runs of the lines' terms between neighbouring top-level `or`s of the lines joined by
`and`. -/
def stretches (arms : List (List (List Expr))) : List (List Expr) := arms.foldr glue []

theorem armsOf_eq_ok {expr : Str} {ess : List (List Expr)} :
    armsOf expr = .ok ess ↔ ∃ tokens, tokenize expr = .ok tokens ∧
      arms (parseExprWithin tokens.length) tokens.length tokens = .ok (ess, []) := by
  constructor
  · intro h
    obtain ⟨tokens, htokens, h⟩ := bind_eq_ok.mp h
    obtain ⟨⟨ess', rest⟩, harms, h⟩ := bind_eq_ok.mp h
    cases rest with
    | nil =>
      obtain rfl := Res.ok.inj h
      exact ⟨tokens, htokens, harms⟩
    | cons token rest => simp at h
  · rintro ⟨tokens, htokens, harms⟩
    simp only [armsOf, htokens, ok_bind, harms]

theorem armsOf_and {g g' : Str} {ess fss : List (List Expr)} (hg : armsOf g = .ok ess)
    (hg' : armsOf g' = .ok fss) : armsOf (g ++ " and ".toList ++ g') = .ok (glue ess fss) := by
  obtain ⟨ts, hts, harms⟩ := armsOf_eq_ok.mp hg
  obtain ⟨us, hus, harms'⟩ := armsOf_eq_ok.mp hg'
  have htokens : tokenize (g ++ " and ".toList ++ g') = .ok (ts ++ .and :: us) := by
    have hand : tokenize ("and".toList ++ ' ' :: g') = .ok (.and :: us) := by
      have hword : tokenize "and".toList = .ok [.and] := rfl
      rw [tokenize_append hword, hus]
      rfl
    have hsplit : g ++ " and ".toList ++ g' = g ++ ' ' :: ("and".toList ++ ' ' :: g') := by
      simp
    rw [hsplit, tokenize_append hts, hand]
    rfl
  refine armsOf_eq_ok.mpr ⟨_, htokens, arms_append harms harms' ?_⟩
  simp only [List.length_append, List.length_cons]
  omega

theorem armsOf_join {gs : List Str} {arms : List (List (List Expr))} (hne : gs ≠ [])
    (h : collect armsOf gs = .ok arms) :
    armsOf (join " and ".toList gs) = .ok (stretches arms) := by
  induction gs generalizing arms with
  | nil => exact absurd rfl hne
  | cons g gs ih =>
    rw [collect_cons] at h
    obtain ⟨ess, hg, h⟩ := bind_eq_ok.mp h
    obtain ⟨arms', hgs, h⟩ := bind_eq_ok.mp h
    obtain rfl := Res.ok.inj h
    cases gs with
    | nil =>
      obtain rfl := Res.ok.inj hgs
      rw [join_singleton, hg, stretches, List.foldr_cons, List.foldr_nil, glue_nil]
    | cons g' gs =>
      rw [join_cons_cons]
      exact armsOf_and hg (ih (by simp) hgs)

theorem any_glue_eq_true {bindings : FieldBindings} {ess fss : List (List Expr)}
    (hess : any (evalAll bindings) ess = .ok true) (hfss : any (evalAll bindings) fss = .ok true) :
    any (evalAll bindings) (glue ess fss) = .ok true := by
  induction ess with
  | nil => exact hfss
  | cons es ess ih =>
    rw [any_eq_true_cons] at hess
    cases ess with
    | nil =>
      simp only [any_nil, Res.ok.injEq, Bool.false_eq_true, and_false, or_false] at hess
      cases fss with
      | nil => simp at hfss
      | cons fs fss =>
        have hrun : evalAll bindings (es ++ fs) = evalAll bindings fs := by
          simp only [evalAll] at hess ⊢
          rw [all_append, hess]
          rfl
        rw [glue, any_eq_true_cons, hrun]
        exact any_eq_true_cons.mp hfss
    | cons es' ess =>
      rw [glue, any_eq_true_cons]
      rcases hess with hes | ⟨hes, hess⟩
      · exact .inl hes
      · exact .inr ⟨hes, ih hess⟩

theorem any_stretches_eq_true {bindings : FieldBindings} {arms : List (List (List Expr))}
    (hne : arms ≠ []) (h : ∀ ess ∈ arms, any (evalAll bindings) ess = .ok true) :
    any (evalAll bindings) (stretches arms) = .ok true := by
  induction arms with
  | nil => exact absurd rfl hne
  | cons ess arms ih =>
    obtain ⟨hess, harms⟩ := List.forall_mem_cons.mp h
    cases arms with
    | nil => rwa [stretches, List.foldr_cons, List.foldr_nil, glue_nil]
    | cons fss arms => exact any_glue_eq_true hess (ih (by simp) harms)

theorem collect_armsOf {bindings : FieldBindings} {gs : List Str} {bs : List Bool}
    (h : List.Forall₂ (fun g b => evaluateGuard g bindings = .ok b) gs bs) :
    ∃ arms, collect armsOf gs = .ok arms ∧
      List.Forall₂ (fun ess b => any (evalAll bindings) ess = .ok b) arms bs := by
  induction h with
  | nil => exact ⟨[], rfl, .nil⟩
  | @cons g b gs bs hg _ ih =>
    obtain ⟨arms, hgs, harms⟩ := ih
    rw [evaluateGuard_eq] at hg
    obtain ⟨ess, hess, hb⟩ := bind_eq_ok.mp hg
    exact ⟨ess :: arms, by rw [collect_cons, hess, hgs]; rfl, .cons hb harms⟩

theorem any_eq_true_of_all {bindings : FieldBindings} {arms : List (List (List Expr))}
    {bs : List Bool} (h : List.Forall₂ (fun ess b => any (evalAll bindings) ess = .ok b) arms bs)
    (hall : bs.all id = true) : ∀ ess ∈ arms, any (evalAll bindings) ess = .ok true := by
  induction h with
  | nil => simp
  | @cons ess b arms bs hess _ ih =>
    obtain ⟨rfl, hbs⟩ : b = true ∧ bs.all id = true := by simpa using hall
    exact List.forall_mem_cons.mpr ⟨hess, ih hbs⟩

def guardLines (lines : List Str) : List Str :=
  lines.filterMap fun line =>
    match Parser.readLine line with
    | .ok (.guard expr) => some expr
    | _ => none

theorem guards_of_read {isChild : Bool} {st st' : Parser.Frontmatter} {lines : List Str}
    (h : st.read isChild lines = .ok st') : st'.guards = st.guards ++ guardLines lines := by
  induction lines generalizing st with
  | nil =>
    obtain rfl := Res.ok.inj h
    simp [guardLines]
  | cons line lines ih =>
    obtain ⟨form, hform, h⟩ := bind_eq_ok.mp h
    obtain ⟨st₁, hst₁, h⟩ := bind_eq_ok.mp h
    rw [ih h]
    cases form with
    | blank =>
      obtain rfl := Res.ok.inj hst₁
      simp [guardLines, hform]
    | note key value =>
      obtain rfl := Res.ok.inj hst₁
      simp [guardLines, hform]
    | guard expr =>
      obtain rfl := Res.ok.inj hst₁
      simp [guardLines, hform]
    | field key value =>
      obtain ⟨pattern, -, hst₁⟩ := bind_eq_ok.mp hst₁
      obtain rfl := Res.ok.inj hst₁
      have hflush : (st.flush isChild key).guards = st.guards := by
        unfold Parser.Frontmatter.flush
        split_ifs <;> rfl
      simp [guardLines, hform, hflush]

theorem guard_of_parseFrontmatterBlock {lines : List Str} {isChild : Bool}
    {block : Parser.FrontmatterBlock} (h : Parser.parseFrontmatterBlock lines isChild = .ok block) :
    block.guard =
      if (guardLines lines).isEmpty then none
      else some (join " and ".toList (guardLines lines)) := by
  obtain ⟨st, hst, rfl⟩ := Parser.parseFrontmatterBlock_eq_ok.mp h
  have hguards : st.guards = guardLines lines := guards_of_read hst
  rw [Parser.Frontmatter.finish, hguards]

def evalClauseGuard (guard : Option Str) (bindings : FieldBindings) : Res GuardError Bool :=
  match guard with
  | some expr => evaluateGuard expr bindings
  | none => .ok true

/-- The guard of a block is the conjunction of its guard lines exactly when all of them hold or
each stretch between neighbouring top-level `or`s is false. -/
theorem evalClauseGuard_iff {lines : List Str} {isChild : Bool} {block : Parser.FrontmatterBlock}
    {bindings : FieldBindings} {bs : List Bool}
    (hblock : Parser.parseFrontmatterBlock lines isChild = .ok block)
    (heach : List.Forall₂ (fun g b => evaluateGuard g bindings = .ok b) (guardLines lines) bs) :
    evalClauseGuard block.guard bindings = .ok (bs.all id) ↔
      bs.all id = true ∨
        ∃ arms, collect armsOf (guardLines lines) = .ok arms ∧
          ∀ es ∈ stretches arms, evalAll bindings es = .ok false := by
  obtain ⟨arms, harms, heval⟩ := collect_armsOf heach
  rw [guard_of_parseFrontmatterBlock hblock]
  by_cases hne : guardLines lines = []
  · rw [hne, List.forall₂_nil_left_iff] at heach
    simp [hne, heach, evalClauseGuard]
  · have hjoin : evalClauseGuard (some (join " and ".toList (guardLines lines))) bindings =
        any (evalAll bindings) (stretches arms) := by
      rw [evalClauseGuard, evaluateGuard_eq, armsOf_join hne harms, ok_bind]
    have htrue : bs.all id = true → any (evalAll bindings) (stretches arms) = .ok true := by
      refine fun hall => any_stretches_eq_true ?_ (any_eq_true_of_all heval hall)
      rintro rfl
      rw [List.forall₂_nil_left_iff.mp heval, List.forall₂_nil_right_iff] at heach
      exact hne heach
    have hlines : (guardLines lines).isEmpty = false := by simpa using hne
    rw [hlines, if_neg Bool.false_ne_true, hjoin]
    cases hall : bs.all id with
    | true => simp [htrue hall]
    | false => simp [any_eq_false, harms]

theorem evalClauseGuard_false_lines :
    ∃ block, Parser.parseFrontmatterBlock ["? a or b".toList, "? c".toList] false = .ok block ∧
      evalClauseGuard block.guard [] = .ok ([false, false].all id) := by
  have hblock : Parser.parseFrontmatterBlock ["? a or b".toList, "? c".toList] false =
      .ok ⟨[], some "a or b and c".toList, [], []⟩ := rfl
  refine ⟨_, hblock, (evalClauseGuard_iff hblock ?_).mpr ?_⟩
  · have hlines : guardLines ["? a or b".toList, "? c".toList] =
        ["a or b".toList, "c".toList] := by decide +kernel
    rw [hlines]
    exact .cons (by decide +kernel) (.cons (by decide +kernel) .nil)
  · exact .inr ⟨[[[.var ['a']], [.var ['b']]], [[.var ['c']]]], by decide +kernel,
      by decide +kernel⟩

/-- `? a or b` and `? c` become `a or b and c`, which holds where `c` does not. -/
theorem evalClauseGuard_or_line :
    ¬∀ (lines : List Str) (isChild : Bool) (block : Parser.FrontmatterBlock)
      (bindings : FieldBindings) (bs : List Bool),
      Parser.parseFrontmatterBlock lines isChild = .ok block →
      List.Forall₂ (fun g b => evaluateGuard g bindings = .ok b) (guardLines lines) bs →
      evalClauseGuard block.guard bindings = .ok (bs.all id) := by
  intro h
  have hlines : guardLines ["? a or b".toList, "? c".toList] =
      ["a or b".toList, "c".toList] := by decide +kernel
  have hfalse := h ["? a or b".toList, "? c".toList] false
    ⟨[], some "a or b and c".toList, [], []⟩ [("a".toList, .bool true)] [true, false] rfl
    (by rw [hlines]; exact .cons (by decide +kernel) (.cons (by decide +kernel) .nil))
  revert hfalse
  decide +kernel

end Luaml.Guard
