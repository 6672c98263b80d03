import Luaml.Lib.Num

namespace Rust.F64

theorem mag_ofMag (neg : Bool) {m : Nat} (h : m < 2 ^ 63) : (ofMag neg m).mag = m := by
  cases neg <;> simp [mag, ofMag] <;> omega

theorem signBit_ofMag (neg : Bool) {m : Nat} (h : m < 2 ^ 63) : (ofMag neg m).signBit = neg := by
  cases neg <;> simp [signBit, ofMag] <;> omega

theorem key_ofMag (neg : Bool) {m : Nat} (h : m < 2 ^ 63) :
    (ofMag neg m).key = if neg then -(m : Int) else m := by
  rw [key, mag_ofMag neg h, signBit_ofMag neg h]

theorem roundHalfEven_cases (a d : Nat) :
    roundHalfEven a d = a / d ∧ 2 * (a % d) ≤ d ∨
      roundHalfEven a d = a / d + 1 ∧ d ≤ 2 * (a % d) := by
  have heven := Nat.mod_two_eq_zero_or_one (a / d)
  unfold roundHalfEven
  dsimp only
  split_ifs <;> omega

theorem roundHalfEven_mono {a b : Nat} (d : Nat) (h : a ≤ b) :
    roundHalfEven a d ≤ roundHalfEven b d := by
  have hq : a / d ≤ b / d := Nat.div_le_div_right h
  have ha := roundHalfEven_cases a d
  have hb := roundHalfEven_cases b d
  rcases Nat.lt_or_eq_of_le hq with hlt | heq
  · omega
  · have hr : a % d ≤ b % d := by
      have hda := Nat.div_add_mod a d
      have hdb := Nat.div_add_mod b d
      rw [heq] at hda
      omega
    -- in one step of the quotient, only a tie of both could go apart, and it is one tie
    unfold roundHalfEven
    dsimp only
    rw [heq]
    split_ifs <;> omega

def significand (n : Nat) : Nat :=
  if 52 ≤ Nat.log 2 n then roundHalfEven n (2 ^ (Nat.log 2 n - 52))
  else n * 2 ^ (52 - Nat.log 2 n)

def natMag (n : Nat) : Nat :=
  if n = 0 then 0 else (Nat.log 2 n + 1022) * 2 ^ 52 + significand n

theorem leadingExponent_one {n : Nat} (hn : n ≠ 0) : leadingExponent n 1 = Nat.log 2 n := by
  have hle := Nat.pow_log_le_self 2 hn
  simp [leadingExponent, hle]

theorem scaled_one {n : Nat} : scaled n 1 ((Nat.log 2 n : Int) - 52) = significand n := by
  rw [scaled, significand]
  split_ifs with h h' h'
  · have hexp : ((Nat.log 2 n : Int) - 52).toNat = Nat.log 2 n - 52 := by omega
    rw [hexp, Nat.one_mul]
  · omega
  · omega
  · have hexp : (-((Nat.log 2 n : Int) - 52)).toNat = 52 - Nat.log 2 n := by omega
    rw [hexp, roundHalfEven, Nat.div_one, Nat.mod_one]
    simp

theorem ofInt_eq (n : Int) :
    ofInt n = ofMag (decide (n < 0)) (min infMag (natMag n.natAbs)) := by
  rw [ofInt, ofRatio, natMag]
  split_ifs with hn
  · simp
  · have he : max (-1074) ((Nat.log 2 n.natAbs : Int) - 52) = (Nat.log 2 n.natAbs : Int) - 52 := by
      omega
    have hbiased : ((Nat.log 2 n.natAbs : Int) - 52 + 1074).toNat = Nat.log 2 n.natAbs + 1022 := by
      omega
    simp only [leadingExponent_one hn, he, hbiased, scaled_one]

theorem significand_bounds {n : Nat} (hn : n ≠ 0) :
    2 ^ 52 ≤ significand n ∧ significand n ≤ 2 ^ 53 := by
  have hlow := Nat.pow_log_le_self 2 hn
  have hhigh := Nat.lt_pow_succ_log_self (by decide : 1 < 2) n
  rw [significand]
  split_ifs with h
  · obtain ⟨k, hk⟩ := Nat.exists_eq_add_of_le h
    have hpos : 0 < 2 ^ k := Nat.two_pow_pos k
    rw [hk, Nat.add_sub_cancel_left]
    rw [hk, Nat.pow_add] at hlow
    rw [hk, Nat.succ_eq_add_one, Nat.add_right_comm, Nat.pow_add] at hhigh
    have hquotient : 2 ^ 52 ≤ n / 2 ^ k := (Nat.le_div_iff_mul_le hpos).mpr hlow
    have hbelow : n / 2 ^ k < 2 ^ 53 := (Nat.div_lt_iff_lt_mul hpos).mpr hhigh
    have hcases := roundHalfEven_cases n (2 ^ k)
    omega
  · obtain ⟨k, hk⟩ := Nat.exists_eq_add_of_lt (Nat.lt_of_not_le h)
    have hshift : 52 - Nat.log 2 n = k + 1 := by omega
    have htotal : 2 ^ Nat.log 2 n * 2 ^ (k + 1) = 2 ^ 52 := by
      rw [← Nat.pow_add]
      congr 1
      omega
    rw [hshift]
    constructor
    · rw [← htotal]
      exact Nat.mul_le_mul_right _ hlow
    · have hdouble : 2 ^ (Nat.log 2 n + 1) * 2 ^ (k + 1) = 2 ^ 53 := by
        rw [← Nat.pow_add]
        congr 1
        omega
      rw [← hdouble]
      exact Nat.mul_le_mul_right _ (Nat.le_of_lt hhigh)

theorem significand_mono {n m : Nat} (h : n ≤ m) (hlog : Nat.log 2 n = Nat.log 2 m) :
    significand n ≤ significand m := by
  rw [significand, significand, hlog]
  split_ifs
  · exact roundHalfEven_mono _ h
  · exact Nat.mul_le_mul_right _ h

theorem natMag_mono {n m : Nat} (h : n ≤ m) : natMag n ≤ natMag m := by
  rw [natMag, natMag]
  split_ifs with hn hm hm
  · exact Nat.le_refl _
  · exact Nat.zero_le _
  · omega
  · have hsn := significand_bounds hn
    have hsm := significand_bounds hm
    rcases Nat.lt_or_eq_of_le (Nat.log_mono_right h : Nat.log 2 n ≤ Nat.log 2 m) with hlt | heq
    · omega
    · have hle := significand_mono h heq
      omega

theorem log_le_of_lt {n : Nat} (h : n < 2 ^ 53) : Nat.log 2 n ≤ 52 :=
  Nat.lt_succ_iff.mp (Nat.log_lt_of_lt_pow' (by decide) h)

theorem significand_of_lt {n : Nat} (h : n < 2 ^ 53) :
    significand n = n * 2 ^ (52 - Nat.log 2 n) := by
  have hlog := log_le_of_lt h
  rw [significand]
  split_ifs with h52
  · obtain heq : Nat.log 2 n = 52 := Nat.le_antisymm hlog h52
    rw [heq, roundHalfEven]
    simp [Nat.mod_one]
  · rfl

theorem natMag_strictMono {n m : Nat} (h : n < m) (hm : m ≤ 2 ^ 53) : natMag n < natMag m := by
  have hm0 : m ≠ 0 := by omega
  have hn53 : n < 2 ^ 53 := by omega
  have hsm := significand_bounds hm0
  rw [natMag, natMag, if_neg hm0]
  split_ifs with hn
  · omega
  · have hlog := log_le_of_lt hn53
    rcases Nat.lt_or_eq_of_le (Nat.log_mono_right h.le : Nat.log 2 n ≤ Nat.log 2 m) with hlt | heq
    · have hbelow : significand n < 2 ^ 53 := by
        have htotal : 2 ^ (Nat.log 2 n + 1) * 2 ^ (52 - Nat.log 2 n) = 2 ^ 53 := by
          rw [← Nat.pow_add]
          congr 1
          omega
        rw [significand_of_lt hn53, ← htotal]
        exact Nat.mul_lt_mul_of_pos_right (Nat.lt_pow_succ_log_self (by decide) n)
          (Nat.two_pow_pos _)
      omega
    · have hm53 : m < 2 ^ 53 := by
        refine Nat.lt_of_le_of_ne hm ?_
        rintro rfl
        rw [heq, Nat.log_pow (by decide)] at hlog
        omega
      have hlt : significand n < significand m := by
        rw [significand_of_lt hn53, significand_of_lt hm53, heq]
        exact Nat.mul_lt_mul_of_pos_right h (Nat.two_pow_pos _)
      omega

theorem min_infMag_lt (m : Nat) : min infMag m < 2 ^ 63 :=
  Nat.lt_of_le_of_lt (Nat.min_le_left _ _) (by decide)

theorem ofInt_isNan (n : Int) : (ofInt n).isNan = false := by
  rw [ofInt_eq, isNan, mag_ofMag _ (min_infMag_lt _)]
  exact decide_eq_false (Nat.not_lt.mpr (Nat.min_le_left _ _))

theorem ofInt_isFinite {n : Int} (h : n.natAbs < 2 ^ 64) : (ofInt n).isFinite := by
  have hmag : natMag n.natAbs ≤ natMag (2 ^ 64) := natMag_mono (Nat.le_of_lt h)
  have hlog : Nat.log 2 (2 ^ 64) = 64 := Nat.log_pow (by decide) 64
  have htop : natMag (2 ^ 64) < infMag := by
    rw [natMag, significand, hlog]
    decide
  rw [ofInt_eq, isFinite, mag_ofMag _ (min_infMag_lt _)]
  exact decide_eq_true (Nat.lt_of_le_of_lt (Nat.min_le_right _ _) (Nat.lt_of_le_of_lt hmag htop))

theorem ofInt_key (n : Int) :
    (ofInt n).key =
      if n < 0 then -((min infMag (natMag n.natAbs) : Nat) : Int)
      else (min infMag (natMag n.natAbs) : Nat) := by
  rw [ofInt_eq, key_ofMag _ (min_infMag_lt _)]
  simp

theorem ofInt_mono {n m : Int} (h : n ≤ m) : (ofInt n).key ≤ (ofInt m).key := by
  rw [ofInt_key, ofInt_key]
  split_ifs with hn hm hm
  · have hmag : natMag m.natAbs ≤ natMag n.natAbs := natMag_mono (by omega)
    omega
  · omega
  · omega
  · have hmag : natMag n.natAbs ≤ natMag m.natAbs := natMag_mono (by omega)
    omega

theorem ofInt_strictMono {n m : Int} (h : n < m) (hn : n.natAbs ≤ 2 ^ 53)
    (hm : m.natAbs ≤ 2 ^ 53) : (ofInt n).key < (ofInt m).key := by
  have hinf : ∀ k : Nat, k ≤ 2 ^ 53 → natMag k < infMag := by
    intro k hk
    refine Nat.lt_of_le_of_lt (natMag_mono hk) ?_
    have hsig := (significand_bounds (by decide : 2 ^ 53 ≠ 0)).2
    rw [natMag, if_neg (by decide), Nat.log_pow (by decide), infMag]
    omega
  have hninf := hinf _ hn
  have hminf := hinf _ hm
  rw [ofInt_key, ofInt_key]
  split_ifs with hn0 hm0 hm0
  · have hmag : natMag m.natAbs < natMag n.natAbs := natMag_strictMono (by omega) hn
    omega
  · have hmag : natMag 0 < natMag n.natAbs := natMag_strictMono (by omega) hn
    omega
  · omega
  · have hmag : natMag n.natAbs < natMag m.natAbs := natMag_strictMono (by omega) hm
    omega

theorem ofInt_eq_ofInt {n m : Int} : (ofInt n).eq (ofInt m) ↔ (ofInt n).key = (ofInt m).key := by
  simp [eq, ofInt_isNan]

end Rust.F64
