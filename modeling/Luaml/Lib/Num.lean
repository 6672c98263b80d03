import Luaml.Lib.Text
import Mathlib.Algebra.Ring.Int.Defs
import Mathlib.Algebra.Ring.Nat
import Mathlib.Data.Nat.Log

namespace Rust

def isDigit (c : Char) : Bool := 48 ≤ c.toNat && c.toNat ≤ 57

def natOfDigits (s : Str) : Nat := s.foldl (fun n c => 10 * n + (c.toNat - 48)) 0

def splitSign : Str → Bool × Str
  | '-' :: s => (true, s)
  | '+' :: s => (false, s)
  | s => (false, s)

def parseI64 (s : Str) : Option Int64 :=
  let (neg, ds) := splitSign s
  if ds = [] || !ds.all isDigit then none
  else
    let n : Int := if neg then -(natOfDigits ds) else natOfDigits ds
    if -2 ^ 63 ≤ n ∧ n < 2 ^ 63 then some (Int64.ofInt n) else none

def intText (n : Int) : Str :=
  if n < 0 then '-' :: Nat.toDigits 10 n.natAbs else Nat.toDigits 10 n.natAbs

theorem natOfDigits_toDigits (n : Nat) : natOfDigits (Nat.toDigits 10 n) = n :=
  Nat.ofDigitChars_eq_foldl.symm.trans Nat.ofDigitChars_ten_toDigits

theorem isDigit_of_mem_toDigits {n : Nat} {c : Char} (h : c ∈ Nat.toDigits 10 n) : isDigit c := by
  have hdigit := Nat.isDigit_of_mem_toDigits (by omega) (by omega) h
  simp only [Char.isDigit, Bool.and_eq_true, decide_eq_true_eq] at hdigit
  simp only [isDigit, Bool.and_eq_true, decide_eq_true_eq]
  exact ⟨UInt32.le_iff_toNat_le.mp hdigit.1, UInt32.le_iff_toNat_le.mp hdigit.2⟩

theorem toDigits_all_isDigit (n : Nat) : (Nat.toDigits 10 n).all isDigit :=
  List.all_eq_true.mpr fun _ hc => isDigit_of_mem_toDigits hc

theorem splitSign_of_isDigit {s : Str} (h : s.all isDigit) : splitSign s = (false, s) := by
  unfold splitSign
  split
  · simp [isDigit] at h
  · simp [isDigit] at h
  · rfl

theorem splitSign_intText (n : Int) :
    splitSign (intText n) = (decide (n < 0), Nat.toDigits 10 n.natAbs) := by
  unfold intText
  split_ifs with hn
  · simp [splitSign, hn]
  · rw [splitSign_of_isDigit (toDigits_all_isDigit _), decide_eq_false hn]

theorem parseI64_intText {n : Int} (h : -2 ^ 63 ≤ n ∧ n < 2 ^ 63) :
    parseI64 (intText n) = some (Int64.ofInt n) := by
  have hn : (if n < 0 then -(n.natAbs : Int) else n.natAbs) = n := by
    split_ifs <;> omega
  simp only [parseI64, splitSign_intText, Nat.toDigits_ne_nil, decide_false, Bool.false_or,
    toDigits_all_isDigit, Bool.not_true, Bool.false_eq_true, if_false, natOfDigits_toDigits,
    decide_eq_true_eq, hn, if_pos h]

def InI32 (n : Int) : Prop := -2 ^ 31 ≤ n ∧ n < 2 ^ 31

instance (n : Int) : Decidable (InI32 n) := inferInstanceAs (Decidable (_ ∧ _))

def checkedI32 {ε : Type} (n : Int) : Res ε Int := if InI32 n then .ok n else .panic .overflow

theorem returns_checkedI32 {ε : Type} {n : Int} :
    (checkedI32 n : Res ε Int).Returns ↔ InI32 n := by
  unfold checkedI32
  split_ifs with h <;> simp [h]

theorem checkedI32_eq_ok {ε : Type} {n m : Int} :
    (checkedI32 n : Res ε Int) = .ok m ↔ InI32 n ∧ n = m := by
  unfold checkedI32
  split_ifs with h <;> simp [h]

theorem checkedI32_bind {ε α : Type} (n : Int) (f : Int → Res ε α) :
    checkedI32 n >>= f = (checkedI32 n : Res ε Int) >>= fun _ => f n := by
  unfold checkedI32
  split_ifs <;> rfl

/-- `a + b` on `u32` -/
def checkedAdd {ε : Type} (a b : UInt32) : Res ε UInt32 :=
  if a.toNat + b.toNat < 2 ^ 32 then .ok (a + b) else .panic .overflow

/-- `a - b` on `u32` -/
def checkedSub {ε : Type} (a b : UInt32) : Res ε UInt32 :=
  if b ≤ a then .ok (a - b) else .panic .overflow

theorem toNat_succ {a m : UInt32} (h : a < m) : (a + 1).toNat = a.toNat + 1 := by
  have hlt := UInt32.lt_iff_toNat_lt.mp h
  have hm := m.toNat_lt
  simp [UInt32.toNat_add]
  omega

theorem checkedAdd_one {ε : Type} {a m : UInt32} (h : a < m) :
    (checkedAdd a 1 : Res ε UInt32) = .ok (a + 1) := by
  have hlt := UInt32.lt_iff_toNat_lt.mp h
  have hm := m.toNat_lt
  apply if_pos
  simp
  omega

theorem toNat_pred {a : UInt32} (h : a ≠ 0) : (a - 1).toNat + 1 = a.toNat := by
  have hle : 1 ≤ a := by grind
  have hone := UInt32.le_iff_toNat_le.mp hle
  rw [UInt32.toNat_sub_of_le _ _ hle]
  simp at hone ⊢
  omega

theorem checkedSub_one {ε : Type} {a : UInt32} (h : a ≠ 0) :
    (checkedSub a 1 : Res ε UInt32) = .ok (a - 1) := by
  apply if_pos
  grind

structure F64 where
  bits : UInt64
  deriving DecidableEq, Repr

namespace F64

def signBit (x : F64) : Bool := decide (2 ^ 63 ≤ x.bits.toNat)

def mag (x : F64) : Nat := x.bits.toNat % 2 ^ 63

def infMag : Nat := 0x7ff0000000000000

def isNan (x : F64) : Bool := decide (infMag < x.mag)

def key (x : F64) : Int := if x.signBit then -x.mag else x.mag

def ofMag (neg : Bool) (m : Nat) : F64 := ⟨UInt64.ofNat (if neg then 2 ^ 63 + m else m)⟩

def eq (a b : F64) : Bool := !a.isNan && !b.isNan && a.key == b.key

def partialCmp (a b : F64) : Option Ordering :=
  if a.isNan || b.isNan then none else some (compare a.key b.key)

theorem partialCmp_eq_lt {a b : F64} :
    a.partialCmp b = some .lt ↔ a.isNan = false ∧ b.isNan = false ∧ a.key < b.key := by
  cases ha : a.isNan <;> cases hb : b.isNan <;> simp [partialCmp, ha, hb, Int.compare_eq_lt]

theorem partialCmp_trans {a b c : F64} (h : a.partialCmp b = some .lt)
    (h' : b.partialCmp c = some .lt) : a.partialCmp c = some .lt := by
  rw [partialCmp_eq_lt] at h h' ⊢
  exact ⟨h.1, h'.2.1, h.2.2.trans h'.2.2⟩

def zero : F64 := ofMag false 0

def roundHalfEven (num den : Nat) : Nat :=
  let q := num / den
  let r := num % den
  if 2 * r < den then q else if den < 2 * r then q + 1 else q + q % 2

def scaled (num den : Nat) (e : Int) : Nat :=
  if 0 ≤ e then roundHalfEven num (den * 2 ^ e.toNat) else roundHalfEven (num * 2 ^ (-e).toNat) den

def leadingExponent (num den : Nat) : Int :=
  let d : Int := (Nat.log 2 num : Int) - Nat.log 2 den
  let below := if 0 ≤ d then num < den * 2 ^ d.toNat else num * 2 ^ (-d).toNat < den
  if below then d - 1 else d

/-- The value nearest to `± num / den`, ties to the even significand. -/
def ofRatio (neg : Bool) (num den : Nat) : F64 :=
  if num = 0 then ofMag neg 0
  else
    let e := max (-1074) (leadingExponent num den - 52)
    ofMag neg (min infMag ((e + 1074).toNat * 2 ^ 52 + scaled num den e))

def ofInt (n : Int) : F64 := ofRatio (decide (n < 0)) n.natAbs 1

def isFinite (x : F64) : Bool := decide (x.mag < infMag)

def mantissa (x : F64) : Nat :=
  if x.mag < 2 ^ 52 then x.mag else 2 ^ 52 + x.mag % 2 ^ 52

def scale (x : F64) : Int := max 1 (x.mag / 2 ^ 52 : Nat) - 1075

def isWhole (x : F64) : Bool :=
  decide (0 ≤ x.scale ∨ x.mantissa % 2 ^ (-x.scale).toNat = 0)

def trunc (x : F64) : Int :=
  let whole : Nat :=
    if 0 ≤ x.scale then x.mantissa * 2 ^ x.scale.toNat else x.mantissa / 2 ^ (-x.scale).toNat
  if x.signBit then -whole else whole

def ge (a b : F64) : Bool := (a.partialCmp b).any Ordering.isGE

/-- `x as i64` -/
def toI64 (x : F64) : Int64 :=
  if x.isNan then 0 else Int64.ofInt (max (-2 ^ 63) (min (2 ^ 63 - 1) x.trunc))

theorem trunc_nonneg {x : F64} (h : x.signBit = false) : 0 ≤ x.trunc := by
  rw [trunc, h, if_neg Bool.false_ne_true]
  exact Int.natCast_nonneg _

theorem signBit_of_ge_one {x : F64} (h : x.ge (ofInt 1)) : x.signBit = false := by
  by_contra hneg
  rw [Bool.not_eq_false] at hneg
  have hkey : x.key ≤ 0 := by
    rw [key, hneg, if_pos rfl]
    omega
  have hone : (ofInt 1).key = 0x3ff0000000000000 := by decide
  rw [ge, partialCmp, hone] at h
  split at h
  · cases h
  · rw [Option.any_some, Int.isGE_compare] at h
    omega

theorem toI64_of_ge {x : F64} (h : x.isNan = false) (hge : 2 ^ 63 ≤ x.trunc) :
    x.toI64 = Int64.maxValue := by
  rw [toI64, h, if_neg Bool.false_ne_true, min_eq_left (by omega), max_eq_right (by omega)]
  rfl

example : (ofInt 3).trunc = 3 ∧ (ofRatio true 7 2).trunc = -3 := by decide

def parseExponent (s : Str) : Option Int :=
  let (neg, ds) := splitSign s
  if ds = [] || !ds.all isDigit then none
  else some (if neg then -(natOfDigits ds) else natOfDigits ds)

def parseNumber (neg : Bool) (s : Str) : Option F64 :=
  let whole := s.takeWhile isDigit
  let (frac, tail) := match s.dropWhile isDigit with
    | '.' :: r => (r.takeWhile isDigit, r.dropWhile isDigit)
    | r => ([], r)
  if whole = [] ∧ frac = [] then none
  else
    let exponent : Option Int := match tail with
      | [] => some 0
      | c :: r => if c = 'e' ∨ c = 'E' then parseExponent r else none
    exponent.map fun exp =>
      let digits := natOfDigits (whole ++ frac)
      let k : Int := exp - frac.length
      if 0 ≤ k then ofRatio neg (digits * 10 ^ k.toNat) 1
      else ofRatio neg digits (10 ^ (-k).toNat)

/-- `str::parse::<f64>` -/
def parse (s : Str) : Option F64 :=
  let (neg, body) := splitSign s
  let word := body.map Char.toLower
  if word = "inf".toList ∨ word = "infinity".toList then some (ofMag neg infMag)
  else if word = "nan".toList then some (ofMag neg (infMag + 2 ^ 51))
  else parseNumber neg body

theorem toLower_of_isDigit {c : Char} (h : isDigit c) : c.toLower = c := by
  simp only [isDigit, Bool.and_eq_true, decide_eq_true_eq] at h
  unfold Char.toLower
  rw [dif_neg]
  rintro ⟨hupper, -⟩
  have hge : 65 ≤ c.toNat := UInt32.le_iff_toNat_le.mp hupper
  omega

theorem parseNumber_of_isDigit (neg : Bool) {s : Str} (h : s.all isDigit) (hne : s ≠ []) :
    parseNumber neg s = some (ofRatio neg (natOfDigits s) 1) := by
  have htake : s.takeWhile isDigit = s := List.takeWhile_eq_self_iff.mpr (List.all_eq_true.mp h)
  have hdrop : s.dropWhile isDigit = [] := List.dropWhile_eq_nil_iff.mpr (List.all_eq_true.mp h)
  simp [parseNumber, htake, hdrop, hne]

theorem parse_intText (n : Int) : parse (intText n) = some (ofInt n) := by
  have hdigits := toDigits_all_isDigit n.natAbs
  have hword : (Nat.toDigits 10 n.natAbs).map Char.toLower = Nat.toDigits 10 n.natAbs :=
    (List.map_congr_left fun c hc => toLower_of_isDigit (isDigit_of_mem_toDigits hc)).trans
      (List.map_id _)
  have hne : ∀ word : Str, word.all isDigit = false → Nat.toDigits 10 n.natAbs ≠ word := by
    rintro word hnot rfl
    simp [hdigits] at hnot
  simp only [parse, splitSign_intText, hword, hne "inf".toList rfl, hne "infinity".toList rfl,
    hne "nan".toList rfl, or_self, if_false, parseNumber_of_isDigit _ hdigits Nat.toDigits_ne_nil,
    natOfDigits_toDigits, ofInt]

end F64

end Rust
