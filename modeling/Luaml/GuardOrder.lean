import Luaml.GuardPrint
import Luaml.Lib.Rounding
import Luaml.PatternMatch

namespace Luaml.Guard

open Rust Str Res

def comparing (x : Name) (op : Comparison) (y : Name) : Str :=
  (Formula.compare (.atom (.var x)) op (.atom (.var y))).print

def Holds (bindings : FieldBindings) (x : Name) (op : Comparison) (y : Name) : Prop :=
  evaluateGuard (comparing x op y) bindings = .ok true

instance (bindings : FieldBindings) (x : Name) (op : Comparison) (y : Name) :
    Decidable (Holds bindings x op y) :=
  inferInstanceAs (Decidable (_ = _))

def compareValues (v : GuardValue) (op : CmpOp) (w : GuardValue) : Bool :=
  match op with
  | .eq => guardEq v w
  | .neq => !guardEq v w
  | .lt => (guardCmp v w).any (· == .lt)
  | .gt => (guardCmp v w).any (· == .gt)
  | .lte => (guardCmp v w).any (· != .gt)
  | .gte => (guardCmp v w).any (· != .lt)

theorem evaluateGuard_comparing {bindings : FieldBindings} {x y : Name} {v w : FieldValue}
    (hx : Map.get bindings x.text = some v) (hy : Map.get bindings y.text = some w)
    (op : Comparison) :
    evaluateGuard (comparing x op y) bindings =
      .ok (compareValues (.ofFieldValue v) op.op (.ofFieldValue w)) := by
  rw [comparing, evaluateGuard_print]
  cases op <;>
    simp [Formula.toExpr, Atom.toExpr, Comparison.op, evalBool, evalCompare, resolveValue, hx, hy,
      compareValues]

/-- The name is bound to a `String` or an `Enum` of the text. -/
def TextBound (bindings : FieldBindings) (x : Name) (s : Str) : Prop :=
  Map.get bindings x.text = some (.string s) ∨ Map.get bindings x.text = some (.enum s)

def textCmp (s t : Str) : Option Ordering :=
  match F64.parse s, F64.parse t with
  | some a, some b => a.partialCmp b
  | _, _ => some (Str.cmp s t)

theorem guardCmp_string (s t : Str) : guardCmp (.string s) (.string t) = textCmp s t := by
  rw [guardCmp, textCmp, GuardValue.asF64, GuardValue.asF64]
  cases F64.parse s <;> cases F64.parse t <;> rfl

section

variable {bindings : FieldBindings} {x y : Name} {s t : Str} (hx : TextBound bindings x s)
  (hy : TextBound bindings y t)
include hx hy

theorem holds_iff (op : Comparison) :
    Holds bindings x op y ↔ compareValues (.string s) op.op (.string t) := by
  rcases hx with hx | hx <;> rcases hy with hy | hy <;>
    rw [Holds, evaluateGuard_comparing hx hy, GuardValue.ofFieldValue, GuardValue.ofFieldValue,
      Res.ok.injEq]

theorem holds_eq : Holds bindings x .eq y ↔ s = t := by
  rw [holds_iff hx hy]
  simp [Comparison.op, compareValues, guardEq]

theorem holds_lt : Holds bindings x .lt y ↔ textCmp s t = some .lt := by
  rw [holds_iff hx hy, Comparison.op, compareValues, guardCmp_string]
  cases textCmp s t <;> simp

theorem holds_gt : Holds bindings x .gt y ↔ textCmp s t = some .gt := by
  rw [holds_iff hx hy, Comparison.op, compareValues, guardCmp_string]
  cases textCmp s t <;> simp

theorem holds_lte :
    Holds bindings x .lte y ↔ textCmp s t = some .lt ∨ textCmp s t = some .eq := by
  rw [holds_iff hx hy, Comparison.op, compareValues, guardCmp_string]
  cases textCmp s t with
  | none => simp
  | some o => cases o <;> simp

end

@[mk_iff coherent_def] structure Coherent (bindings : FieldBindings) (x y z : Name) : Prop where
  /-- Exactly one of the three holds. -/
  trichotomous :
    Holds bindings x .lt y ∧ ¬Holds bindings x .eq y ∧ ¬Holds bindings x .gt y ∨
    ¬Holds bindings x .lt y ∧ Holds bindings x .eq y ∧ ¬Holds bindings x .gt y ∨
    ¬Holds bindings x .lt y ∧ ¬Holds bindings x .eq y ∧ Holds bindings x .gt y
  lte_iff : Holds bindings x .lte y ↔ Holds bindings x .lt y ∨ Holds bindings x .eq y
  lt_trans : Holds bindings x .lt y → Holds bindings y .lt z → Holds bindings x .lt z

def Distinguished (s t : Str) : Prop :=
  ∀ a b, F64.parse s = some a → F64.parse t = some b →
    a.isNan = false ∧ b.isNan = false ∧ (a.eq b → s = t)

/-- The comparisons of two texts as numbers do not go against the order of their characters, with
a text between them that is no number. -/
@[mk_iff] structure Aligned (s t u : Str) : Prop where
  first_two : ∀ a b, F64.parse s = some a → F64.parse t = some b → F64.parse u = none →
    a.partialCmp b = some .lt → ¬(Str.cmp t u = .lt ∧ Str.cmp u s = .lt)
  last_two : ∀ b c, F64.parse s = none → F64.parse t = some b → F64.parse u = some c →
    b.partialCmp c = some .lt → ¬(Str.cmp s t = .lt ∧ Str.cmp u s = .lt)
  outer_two : ∀ a c, F64.parse s = some a → F64.parse t = none → F64.parse u = some c →
    Str.cmp s t = .lt → Str.cmp t u = .lt → a.partialCmp c = some .lt

theorem textCmp_of_numbers {s t : Str} {a b : F64} (hs : F64.parse s = some a)
    (ht : F64.parse t = some b) : textCmp s t = a.partialCmp b := by
  rw [textCmp, hs, ht]

theorem textCmp_of_left {s : Str} (hs : F64.parse s = none) (t : Str) :
    textCmp s t = some (Str.cmp s t) := by
  rw [textCmp, hs]

theorem textCmp_of_right (s : Str) {t : Str} (ht : F64.parse t = none) :
    textCmp s t = some (Str.cmp s t) := by
  rw [textCmp, ht]
  cases F64.parse s <;> rfl

theorem compare_texts (s t : Str) :
    Str.cmp s t = .lt ∧ s ≠ t ∨ Str.cmp s t = .eq ∧ s = t ∨ Str.cmp s t = .gt ∧ s ≠ t := by
  have heq : Str.cmp s t = .eq ↔ s = t := Std.LawfulEqCmp.compare_eq_iff_eq
  cases hcmp : Str.cmp s t <;> simp [← heq, hcmp]

theorem textCmp_iff_distinguished (s t : Str) :
    (textCmp s t = some .lt ∧ s ≠ t ∨ textCmp s t = some .eq ∧ s = t ∨
      textCmp s t = some .gt ∧ s ≠ t) ↔ Distinguished s t := by
  cases hs : F64.parse s with
  | none =>
    have htexts := compare_texts s t
    simpa [textCmp_of_left hs, Distinguished, hs] using htexts
  | some a =>
    cases ht : F64.parse t with
    | none =>
      have htexts := compare_texts s t
      simpa [textCmp_of_right s ht, Distinguished, ht] using htexts
    | some b =>
      have hsame : s = t → a = b := by
        rintro rfl
        exact Option.some.inj (hs.symm.trans ht)
      have hiff : Distinguished s t ↔ a.isNan = false ∧ b.isNan = false ∧ (a.eq b → s = t) := by
        simp [Distinguished, hs, ht]
      rw [textCmp_of_numbers hs ht, hiff, F64.partialCmp, F64.eq]
      cases ha : a.isNan <;> cases hb : b.isNan <;> simp only [Bool.or_false, Bool.or_true,
        Bool.false_eq_true, if_false, if_true, reduceCtorEq, false_and, or_false, and_false,
        Bool.true_eq_false]
      rcases Int.lt_trichotomy a.key b.key with hlt | heq | hgt
      · have hne : s ≠ t := fun h => by simp [hsame h] at hlt
        simp [Int.compare_eq_lt.mpr hlt, hne, Int.ne_of_lt hlt]
      · simp [heq]
      · have hne : s ≠ t := fun h => by simp [hsame h] at hgt
        simp [Int.compare_eq_gt.mpr hgt, hne, (Int.ne_of_lt hgt).symm]

theorem trichotomous_iff (o : Option Ordering) (same : Prop) :
    (o = some .lt ∧ ¬same ∧ o ≠ some .gt ∨ o ≠ some .lt ∧ same ∧ o ≠ some .gt ∨
        o ≠ some .lt ∧ ¬same ∧ o = some .gt) ∧
      (o = some .lt ∨ o = some .eq ↔ o = some .lt ∨ same) ↔
    o = some .lt ∧ ¬same ∨ o = some .eq ∧ same ∨ o = some .gt ∧ ¬same := by
  cases o with
  | none => simp
  | some o => cases o <;> by_cases h : same <;> simp [h]

theorem cmp_eq_lt_iff_not {s t : Str} (hne : s ≠ t) : Str.cmp s t = .lt ↔ ¬Str.cmp t s = .lt := by
  have hswap : Str.cmp t s = (Str.cmp s t).swap := Std.OrientedCmp.eq_swap
  rw [hswap]
  rcases compare_texts s t with ⟨h, -⟩ | ⟨-, heq⟩ | ⟨h, -⟩
  · simp [h]
  · exact absurd heq hne
  · simp [h]

theorem textCmp_trans_iff (s t u : Str) :
    (textCmp s t = some .lt → textCmp t u = some .lt → textCmp s u = some .lt) ↔
      Aligned s t u := by
  have htexts : Str.cmp s t = .lt → Str.cmp t u = .lt → Str.cmp s u = .lt := Std.TransCmp.lt_trans
  have hne : F64.parse s ≠ F64.parse u → s ≠ u := fun h heq => h (congrArg F64.parse heq)
  rw [aligned_iff]
  cases hs : F64.parse s with
  | none =>
    cases ht : F64.parse t with
    | none => simpa [textCmp_of_left hs, textCmp_of_left ht] using htexts
    | some b =>
      cases hu : F64.parse u with
      | none => simpa [textCmp_of_left hs, textCmp_of_right t hu] using htexts
      | some c =>
        have hlt := cmp_eq_lt_iff_not (hne (by simp [hs, hu]))
        simpa [textCmp_of_left hs, textCmp_of_numbers ht hu, hlt] using imp.swap
  | some a =>
    cases ht : F64.parse t with
    | none =>
      cases hu : F64.parse u with
      | none =>
        simpa [textCmp_of_right s ht, textCmp_of_left ht, textCmp_of_right s hu] using htexts
      | some c => simp [textCmp_of_right s ht, textCmp_of_left ht, textCmp_of_numbers hs hu]
    | some b =>
      cases hu : F64.parse u with
      | none =>
        have hlt := cmp_eq_lt_iff_not (hne (by simp [hs, hu]))
        simp [textCmp_of_numbers hs ht, textCmp_of_right t hu, textCmp_of_right s hu, hlt]
      | some c =>
        have hnumbers : a.partialCmp b = some .lt → b.partialCmp c = some .lt →
            a.partialCmp c = some .lt := F64.partialCmp_trans
        simpa [textCmp_of_numbers hs ht, textCmp_of_numbers ht hu, textCmp_of_numbers hs hu]
          using hnumbers

/-- Guards order three texts if and only if no two of them are one number, or no number, and the
third does not stand between two numbers that it orders the other way. -/
theorem coherent_iff {bindings : FieldBindings} {x y z : Name} {s t u : Str}
    (hx : TextBound bindings x s) (hy : TextBound bindings y t) (hz : TextBound bindings z u) :
    Coherent bindings x y z ↔ Distinguished s t ∧ Aligned s t u := by
  rw [← textCmp_iff_distinguished, ← trichotomous_iff, ← textCmp_trans_iff, coherent_def,
    holds_lte hx hy, holds_eq hx hy, holds_gt hx hy, holds_lt hx hy, holds_lt hy hz, holds_lt hx hz,
    and_assoc]

def nameA : Name := ⟨'a', [], rfl, rfl, by decide⟩

def nameB : Name := ⟨'b', [], rfl, rfl, by decide⟩

def nameC : Name := ⟨'c', [], rfl, rfl, by decide⟩

example : comparing nameA .lte nameB = "a <= b".toList := by decide

theorem coherent_iff_words :
    Coherent [("a".toList, .string "x".toList), ("b".toList, .enum "1".toList),
        ("c".toList, .string "2".toList)] nameA nameB nameC ↔
      Distinguished "x".toList "1".toList ∧ Aligned "x".toList "1".toList "2".toList :=
  coherent_iff (.inl (by decide +kernel)) (.inr (by decide +kernel)) (.inl (by decide +kernel))

/-- `1` and `1.0` are one number and two texts. -/
theorem one_not_coherent :
    ¬∀ (bindings : FieldBindings) (x y z : Name) (s t u : Str), TextBound bindings x s →
      TextBound bindings y t → TextBound bindings z u → Coherent bindings x y z := by
  intro h
  have hone := (h [("a".toList, .string "1".toList), ("b".toList, .string "1.0".toList)] nameA nameB
    nameB "1".toList "1.0".toList "1.0".toList (.inl (by decide +kernel)) (.inl (by decide +kernel))
    (.inl (by decide +kernel))).trichotomous
  rcases hone with ⟨hlt, -⟩ | ⟨-, heq, -⟩ | ⟨-, -, hgt⟩
  · exact absurd hlt (by decide +kernel)
  · exact absurd heq (by decide +kernel)
  · exact absurd hgt (by decide +kernel)

def Comparison.onInt (n : Int) (op : Comparison) (m : Int) : Bool :=
  match op with
  | .eq => n == m
  | .tilde | .bang => n != m
  | .lt => n < m
  | .gt => m < n
  | .lte => n ≤ m
  | .gte => m ≤ n

/-- The guards compare what `x` and `y` are bound to as the integers `n` and `m`, and their equality
is that of a pattern. -/
def ComparesIntegers (bindings : FieldBindings) (x y : Name) (n m : Int64) : Prop :=
  (∀ op : Comparison,
    evaluateGuard (comparing x op y) bindings = .ok (op.onInt n.toInt m.toInt)) ∧
  (Holds bindings x .eq y ↔ (Pattern.matchFieldValue (.numberLiteral n) (.number m)).isSome)

theorem Comparison.onInt_congr {n m k l : Int} (hlt : n < m ↔ k < l) (hgt : m < n ↔ l < k)
    (op : Comparison) : op.onInt n m = op.onInt k l := by
  have heq : n = m ↔ k = l := by omega
  have hle : n ≤ m ↔ k ≤ l := by omega
  have hge : m ≤ n ↔ l ≤ k := by omega
  cases op <;> rw [Bool.eq_iff_iff] <;> simp [onInt, heq, hlt, hgt, hle, hge]

theorem compareValues_float {a b : F64} (ha : a.isNan = false) (hb : b.isNan = false)
    (op : Comparison) : compareValues (.float a) op.op (.float b) = op.onInt a.key b.key := by
  have hcmp : guardCmp (.float a) (.float b) = some (compare a.key b.key) := by
    simp [guardCmp, GuardValue.asF64, F64.partialCmp, ha, hb]
  rcases Int.lt_trichotomy a.key b.key with hlt | heq | hgt
  · have hne : (a.key == b.key) = false := by simp [Int.ne_of_lt hlt]
    have hnot : ¬b.key < a.key := by omega
    cases op <;>
      simp [Comparison.op, compareValues, guardEq, F64.eq, ha, hb, Comparison.onInt, hcmp,
        Int.compare_eq_lt.mpr hlt, hlt, bne, hne, hnot, hlt.le]
  · cases op <;>
      simp [Comparison.op, compareValues, guardEq, F64.eq, ha, hb, Comparison.onInt, hcmp, heq]
  · have hne : (a.key == b.key) = false := by simp [Int.ne_of_gt hgt]
    have hnot : ¬a.key < b.key := by omega
    cases op <;>
      simp [Comparison.op, compareValues, guardEq, F64.eq, ha, hb, Comparison.onInt, hcmp,
        Int.compare_eq_gt.mpr hgt, hgt, bne, hne, hnot, hgt.le]

section

variable {bindings : FieldBindings} {x y : Name} {n m : Int64}
  (hx : Map.get bindings x.text = some (.number n))
  (hy : Map.get bindings y.text = some (.number m))
include hx hy

theorem evaluateGuard_integers (op : Comparison) :
    evaluateGuard (comparing x op y) bindings =
      .ok (op.onInt (F64.ofInt n.toInt).key (F64.ofInt m.toInt).key) := by
  rw [evaluateGuard_comparing hx hy, GuardValue.ofFieldValue, GuardValue.ofFieldValue,
    compareValues_float (F64.ofInt_isNan _) (F64.ofInt_isNan _)]

theorem comparesIntegers_iff_key :
    ComparesIntegers bindings x y n m ↔
      ((F64.ofInt n.toInt).key = (F64.ofInt m.toInt).key → n = m) := by
  have hpattern : (Pattern.matchFieldValue (.numberLiteral n) (.number m)).isSome ↔ n = m := by
    rw [@eq_comm _ n m]
    simp [Pattern.matchFieldValue]
  rw [ComparesIntegers, hpattern]
  simp only [Holds, evaluateGuard_integers hx hy, Res.ok.injEq]
  constructor
  · rintro ⟨-, heq⟩ hkey
    exact heq.mp (by simp [Comparison.onInt, hkey])
  · intro h
    have hmono := @F64.ofInt_mono n.toInt m.toInt
    have hmono' := @F64.ofInt_mono m.toInt n.toInt
    have hone : n = m ↔ (F64.ofInt n.toInt).key = (F64.ofInt m.toInt).key :=
      ⟨fun heq => by rw [heq], h⟩
    have hint : n.toInt = m.toInt ↔ n = m := Int64.toInt_inj
    rw [hone] at hint
    refine ⟨fun op => Comparison.onInt_congr ?_ ?_ op, ?_⟩
    · omega
    · omega
    · rw [hone]
      simp [Comparison.onInt]

/-- Two integers are compared as they are if and only if they are one or no one double. -/
theorem comparesIntegers_iff :
    ComparesIntegers bindings x y n m ↔
      ((F64.ofInt n.toInt).eq (F64.ofInt m.toInt) → n = m) := by
  rw [comparesIntegers_iff_key hx hy, F64.ofInt_eq_ofInt]

theorem comparesIntegers_of_natAbs_le (hn : n.toInt.natAbs ≤ 2 ^ 53)
    (hm : m.toInt.natAbs ≤ 2 ^ 53) : ComparesIntegers bindings x y n m := by
  rw [comparesIntegers_iff_key hx hy]
  intro hkey
  rcases Int.lt_trichotomy n.toInt m.toInt with hlt | heq | hgt
  · exact absurd hkey (Int.ne_of_lt (F64.ofInt_strictMono hlt hn hm))
  · exact Int64.toInt_inj.mp heq
  · exact absurd hkey (Int.ne_of_gt (F64.ofInt_strictMono hgt hm hn))

end

theorem comparesIntegers_iff_two :
    ComparesIntegers [("a".toList, .number 1), ("b".toList, .number 2)] nameA nameB 1 2 ↔
      ((F64.ofInt (1 : Int64).toInt).eq (F64.ofInt (2 : Int64).toInt) → (1 : Int64) = 2) :=
  comparesIntegers_iff (by decide +kernel) (by decide +kernel)

/-- The first integer that a double cannot hold is taken for the one before it. -/
theorem successor_not_compared :
    ¬∀ (bindings : FieldBindings) (x y : Name) (n m : Int64),
      Map.get bindings x.text = some (.number n) → Map.get bindings y.text = some (.number m) →
        ComparesIntegers bindings x y n m := by
  intro h
  have hlt := (h [("a".toList, .number 9007199254740992), ("b".toList, .number 9007199254740993)]
    nameA nameB 9007199254740992 9007199254740993 (by decide +kernel) (by decide +kernel)).1 .lt
  exact absurd hlt (by decide +kernel)

end Luaml.Guard
