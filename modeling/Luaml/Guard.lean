import Luaml.Types

namespace Luaml.Guard

open Rust Str

inductive Token
  | ident (name : Str)
  | stringLit (text : Str)
  | numberLit (n : F64)
  | boolLit (b : Bool)
  | eq | neq | lt | gt | lte | gte
  | and | or | not | nil
  | lParen | rParen
  deriving DecidableEq

structure GuardError where
  text : Str
  token : Option Token
  deriving DecidableEq

def fail {α : Type} (text : String) (more : Str) (token : Option Token) : Res GuardError α :=
  .err ⟨text.toList ++ more, token⟩

@[simp] theorem returns_fail {α : Type} (text : String) (more : Str) (token : Option Token) :
    (fail text more token : Res GuardError α).Returns := Res.returns_err _

@[simp] theorem fail_ne_ok {α : Type} (text : String) (more : Str) (token : Option Token) (a : α) :
    fail text more token ≠ .ok a := by simp [fail]

def isAsciiAlphabetic (c : Char) : Bool :=
  (65 ≤ c.toNat && c.toNat ≤ 90) || (97 ≤ c.toNat && c.toNat ≤ 122)

def isNumberChar (c : Char) : Bool := isDigit c || c == '.'

def isWordChar (c : Char) : Bool := isAsciiAlphabetic c || isDigit c || c == '_'

def ofWord (word : Str) : Token :=
  if word = "and".toList then .and
  else if word = "or".toList then .or
  else if word = "not".toList then .not
  else if word = "true".toList then .boolLit true
  else if word = "false".toList then .boolLit false
  else if word = "nil".toList then .nil
  else .ident word

def readOperator (c : Char) (s : Str) : Option (Token × Str) :=
  match c, startsWith s '=' with
  | '(', _ => some (.lParen, s)
  | ')', _ => some (.rParen, s)
  | '=', true => some (.eq, s.tail)
  | '~', true => some (.neq, s.tail)
  | '!', true => some (.neq, s.tail)
  | '<', true => some (.lte, s.tail)
  | '>', true => some (.gte, s.tail)
  | '<', false => some (.lt, s)
  | '>', false => some (.gt, s)
  | _, _ => none

def readString (quote : Char) (s : Str) : Res GuardError (Token × Str) :=
  match splitOnce quote s with
  | some (text, rest) => .ok (.stringLit text, rest)
  | none => fail "unterminated string literal in guard expression" [] none

def readNumber (c : Char) (s : Str) : Res GuardError (Token × Str) :=
  let number := c :: s.takeWhile isNumberChar
  match F64.parse number with
  | some n => .ok (.numberLit n, s.dropWhile isNumberChar)
  | none => fail "invalid number in guard expression: " number none

/-- One round of the loop of `tokenize`, at a character `c` that is not white space and that `s`
follows. -/
def readToken (c : Char) (s : Str) : Res GuardError (Token × Str) :=
  match readOperator c s with
  | some read => .ok read
  | none =>
    if c == '"' || c == '\'' then readString c s
    else if isDigit c || (c == '-' && s.head?.any isDigit) then readNumber c s
    else if isAsciiAlphabetic c || c == '_' then
      .ok (ofWord (c :: s.takeWhile isWordChar), s.dropWhile isWordChar)
    else fail "unexpected character in guard expression: '" [c, '\''] none

def isSpace (c : Char) : Bool := c == ' ' || c == '\t' || c == '\r' || c == '\n'

/-- The loop of `tokenize`, for so many rounds. -/
def tokensWithin : Nat → Str → Res GuardError (List Token)
  | _, [] => .ok []
  | 0, _ :: _ => .panic .recursion
  | n + 1, c :: s =>
    if isSpace c then tokensWithin n s
    else do
      let (token, rest) ← readToken c s
      let tokens ← tokensWithin n rest
      .ok (token :: tokens)

def tokenize (input : Str) : Res GuardError (List Token) := tokensWithin input.length input

inductive CmpOp
  | eq | neq | lt | gt | lte | gte
  deriving DecidableEq

inductive Expr
  | boolLit (b : Bool)
  | numberLit (n : F64)
  | stringLit (text : Str)
  | nil
  | var (name : Str)
  | not (e : Expr)
  | compare (left : Expr) (op : CmpOp) (right : Expr)
  | and (left right : Expr)
  | or (left right : Expr)
  deriving DecidableEq

abbrev Parser := List Token → Res GuardError (Expr × List Token)

def cmpOp : Token → Option CmpOp
  | .eq => some .eq
  | .neq => some .neq
  | .lt => some .lt
  | .gt => some .gt
  | .lte => some .lte
  | .gte => some .gte
  | _ => none

def parsePrimary (expr : Parser) : Parser
  | .boolLit b :: ts => .ok (.boolLit b, ts)
  | .numberLit n :: ts => .ok (.numberLit n, ts)
  | .stringLit s :: ts => .ok (.stringLit s, ts)
  | .nil :: ts => .ok (.nil, ts)
  | .ident name :: ts => .ok (.var name, ts)
  | .lParen :: ts => do
    let (inner, ts) ← expr ts
    match ts with
    | .rParen :: ts => .ok (inner, ts)
    | _ => fail "expected closing ')' in guard expression" [] none
  | token :: _ => fail "unexpected token in guard expression: " [] token
  | [] => fail "unexpected end of guard expression" [] none

def parseCompare (expr : Parser) : Parser := fun ts => do
  let (left, ts) ← parsePrimary expr ts
  match ts.head?.bind cmpOp with
  | some op => do
    let (right, ts) ← parsePrimary expr ts.tail
    .ok (.compare left op right, ts)
  | none => .ok (left, ts)

def parseNot (expr : Parser) : Parser
  | .not :: ts => do
    let (inner, ts) ← parseNot expr ts
    .ok (.not inner, ts)
  | ts => parseCompare expr ts

/-- The loop of `parse_or` and of `parse_and`, for so many rounds: while the next token is `op`,
the operand after it joins what stands on the left. -/
def leftAssoc (operand : Parser) (op : Token) (make : Expr → Expr → Expr) : Nat → Expr → Parser
  | 0, left, ts => if ts.head? = some op then .panic .recursion else .ok (left, ts)
  | n + 1, left, ts =>
    if ts.head? = some op then do
      let (right, ts) ← operand ts.tail
      leftAssoc operand op make n (make left right) ts
    else .ok (left, ts)

def parseAnd (expr : Parser) (n : Nat) : Parser := fun ts => do
  let (left, ts) ← parseNot expr ts
  leftAssoc (parseNot expr) .and .and n left ts

def parseOr (expr : Parser) (n : Nat) : Parser := fun ts => do
  let (left, ts) ← parseAnd expr n ts
  leftAssoc (parseAnd expr n) .or .or n left ts

/-- `parse_expr` with a bound on the depth of the recursion and the rounds of each loop. -/
def parseExprWithin : Nat → Parser
  | 0 => fun _ => .panic .recursion
  | n + 1 => parseOr (parseExprWithin n) n

def parseExpr : Parser := fun ts => parseExprWithin (ts.length + 1) ts

inductive GuardValue
  | bool (b : Bool)
  | float (f : F64)
  | string (text : Str)
  | null
  deriving DecidableEq

namespace GuardValue

def ofFieldValue : FieldValue → GuardValue
  | .bool b => .bool b
  | .number n => .float (F64.ofInt n.toInt)
  | .float f => .float f
  | .string s => .string s
  | .enum s => .string s
  | .null => .null
  | .list _ | .map _ => .null

def asF64 : GuardValue → Option F64
  | .float f => some f
  | .string s => F64.parse s
  | _ => none

def asStr : GuardValue → Option Str
  | .string s => some s
  | _ => none

end GuardValue

def resolveValue (bindings : FieldBindings) : Expr → Res GuardError GuardValue
  | .boolLit b => .ok (.bool b)
  | .numberLit n => .ok (.float n)
  | .stringLit s => .ok (.string s)
  | .nil => .ok .null
  | .var name =>
    match Map.get bindings name with
    | some v => .ok (.ofFieldValue v)
    | none => .ok .null
  | _ => fail "complex expression in comparison position" [] none

def parsesTo (s : Str) (n : F64) : Bool := (F64.parse s).any fun m => m.eq n

def guardEq : GuardValue → GuardValue → Bool
  | .null, .null => true
  | .bool a, .bool b => a == b
  | .float a, .float b => a.eq b
  | .string a, .string b => a == b
  | .float n, .string s => parsesTo s n
  | .string s, .float n => parsesTo s n
  | _, _ => false

def guardCmp (a b : GuardValue) : Option Ordering :=
  match a.asF64, b.asF64 with
  | some x, some y => x.partialCmp y
  | _, _ =>
    match a.asStr, b.asStr with
    | some s, some t => some (Str.cmp s t)
    | _, _ => none

def evalCompare (left : Expr) (op : CmpOp) (right : Expr) (bindings : FieldBindings) :
    Res GuardError Bool := do
  let lv ← resolveValue bindings left
  let rv ← resolveValue bindings right
  match op with
  | .eq => .ok (guardEq lv rv)
  | .neq => .ok (!guardEq lv rv)
  | .lt => .ok ((guardCmp lv rv).any (· == .lt))
  | .gt => .ok ((guardCmp lv rv).any (· == .gt))
  | .lte => .ok ((guardCmp lv rv).any (· != .gt))
  | .gte => .ok ((guardCmp lv rv).any (· != .lt))

def truthy : Option FieldValue → Bool
  | some (.bool b) => b
  | some (.number n) => n != 0
  | some (.float f) => !f.eq F64.zero
  | some (.string s) => !s.isEmpty
  | some (.enum _) => true
  | some .null | none => false
  | some (.list _) | some (.map _) => true

def evalBool (bindings : FieldBindings) : Expr → Res GuardError Bool
  | .boolLit b => .ok b
  | .numberLit n => .ok (!n.eq F64.zero)
  | .stringLit s => .ok (!s.isEmpty)
  | .nil => .ok false
  | .var name => .ok (truthy (Map.get bindings name))
  | .not inner => do
    let b ← evalBool bindings inner
    .ok (!b)
  | .and left right => do
    let b ← evalBool bindings left
    if b then evalBool bindings right else .ok false
  | .or left right => do
    let b ← evalBool bindings left
    if b then .ok true else evalBool bindings right
  | .compare left op right => evalCompare left op right bindings

def evaluateGuard (expr : Str) (bindings : FieldBindings) : Res GuardError Bool := do
  let tokens ← tokenize expr
  let (ast, rest) ← parseExpr tokens
  match rest with
  | token :: _ => fail "unexpected token after expression: " [] token
  | [] => evalBool bindings ast

end Luaml.Guard
