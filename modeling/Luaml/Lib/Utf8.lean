import Luaml.Lib.Text

namespace Rust

namespace Utf8

/-- A sequence that has begun: the bits that have been read, the range that its next byte is in, and
how many bytes there are after that one. -/
structure Begun where
  bits : Nat
  low : Nat
  high : Nat
  more : Nat

def replacement : Char := '\uFFFD'

def first (b : Nat) : Str × Option Begun :=
  if b < 0x80 then ([Char.ofNat b], none)
  else if 0xC2 ≤ b ∧ b ≤ 0xDF then ([], some ⟨b % 32, 0x80, 0xBF, 0⟩)
  else if 0xE0 ≤ b ∧ b ≤ 0xEF then
    ([], some ⟨b % 16, if b = 0xE0 then 0xA0 else 0x80, if b = 0xED then 0x9F else 0xBF, 1⟩)
  else if 0xF0 ≤ b ∧ b ≤ 0xF4 then
    ([], some ⟨b % 8, if b = 0xF0 then 0x90 else 0x80, if b = 0xF4 then 0x8F else 0xBF, 2⟩)
  else ([replacement], none)

def step : Option Begun → Nat → Str × Option Begun
  | none, b => first b
  | some p, b =>
    if p.low ≤ b ∧ b ≤ p.high then
      match p.more with
      | 0 => ([Char.ofNat (p.bits * 64 + b % 64)], none)
      | more + 1 => ([], some ⟨p.bits * 64 + b % 64, 0x80, 0xBF, more⟩)
    else (replacement :: (first b).1, (first b).2)

def lossy : Option Begun → List UInt8 → Str
  | none, [] => []
  | some _, [] => [replacement]
  | p, b :: bytes => (step p b.toNat).1 ++ lossy (step p b.toNat).2 bytes

theorem lossy_cons (p : Option Begun) (b : UInt8) (bytes : List UInt8) :
    lossy p (b :: bytes) = (step p b.toNat).1 ++ lossy (step p b.toNat).2 bytes := by
  cases p <;> rfl

end Utf8

/-- `String::from_utf8_lossy`: each longest beginning of a sequence that does not go on is one
`U+FFFD`. -/
def fromUtf8Lossy (bytes : List UInt8) : Str := Utf8.lossy none bytes

namespace Utf8

theorem toNat_ofNat {n : Nat} (hn : n < 256) : (UInt8.ofNat n).toNat = n := by
  rw [UInt8.toNat_ofNat']
  exact Nat.mod_eq_of_lt hn

theorem lossy_tail {p : Begun} {v : Nat}
    (hv : p.low ≤ v % 0x40 + 0x80 ∧ v % 0x40 + 0x80 ≤ p.high) (bytes : List UInt8) :
    lossy (some p) (UInt8.ofNat (v % 0x40 + 0x80) :: bytes) =
      match p.more with
      | 0 => Char.ofNat (p.bits * 64 + v % 64) :: lossy none bytes
      | more + 1 => lossy (some ⟨p.bits * 64 + v % 64, 0x80, 0xBF, more⟩) bytes := by
  have hb : (UInt8.ofNat (v % 0x40 + 0x80)).toNat = v % 0x40 + 0x80 := toNat_ofNat (by omega)
  have hbits : (v % 0x40 + 0x80) % 64 = v % 64 := by omega
  rw [lossy_cons, hb, step, if_pos hv, hbits]
  cases p.more <;> rfl

theorem tail_range (v : Nat) : 0x80 ≤ v % 0x40 + 0x80 ∧ v % 0x40 + 0x80 ≤ 0xBF := by omega

theorem lossy_encodeChar (c : Char) (bytes : List UInt8) :
    lossy none (String.utf8EncodeChar c ++ bytes) = c :: lossy none bytes := by
  have hc : Char.ofNat c.toNat = c := Char.ofNat_toNat c
  have hvalid : c.toNat < 0xD800 ∨ 0xDFFF < c.toNat ∧ c.toNat < 0x110000 := c.valid
  have htoNat : c.val.toNat = c.toNat := rfl
  rw [String.utf8EncodeChar, htoNat]
  generalize c.toNat = v at hc hvalid
  -- One case for each number of bytes.
  split_ifs with hone htwo hthree
  · have hb : (UInt8.ofNat v).toNat = v := toNat_ofNat (by omega)
    rw [List.singleton_append, lossy_cons, hb, step, first, if_pos (by omega), hc]
    rfl
  · have hb : (UInt8.ofNat (v / 64 % 0x20 + 0xC0)).toNat = v / 64 + 0xC0 := by
      rw [toNat_ofNat (by omega)]
      omega
    have hbits : (v / 64 + 0xC0) % 32 * 64 + v % 64 = v := by omega
    rw [List.cons_append, List.singleton_append, lossy_cons, hb, step, first, if_neg (by omega),
      if_pos (by omega), List.nil_append, lossy_tail (tail_range _)]
    dsimp only
    rw [hbits, hc]
  · have hb : (UInt8.ofNat (v / 4096 % 0x10 + 0xE0)).toNat = v / 4096 + 0xE0 := by
      rw [toNat_ofNat (by omega)]
      omega
    have hbits : ((v / 4096 + 0xE0) % 16 * 64 + v / 64 % 64) * 64 + v % 64 = v := by omega
    rw [List.cons_append, List.cons_append, List.singleton_append, lossy_cons, hb, step, first,
      if_neg (by omega), if_neg (by omega), if_pos (by omega), List.nil_append,
      lossy_tail (by dsimp only; split_ifs <;> omega)]
    dsimp only
    rw [lossy_tail (tail_range _)]
    dsimp only
    rw [hbits, hc]
  · have hb : (UInt8.ofNat (v / 262144 % 0x08 + 0xF0)).toNat = v / 262144 + 0xF0 := by
      rw [toNat_ofNat (by omega)]
      omega
    have hbits : (((v / 262144 + 0xF0) % 8 * 64 + v / 4096 % 64) * 64 + v / 64 % 64) * 64 + v % 64 =
        v := by omega
    rw [List.cons_append, List.cons_append, List.cons_append, List.singleton_append, lossy_cons, hb,
      step, first, if_neg (by omega), if_neg (by omega), if_neg (by omega), if_pos (by omega),
      List.nil_append, lossy_tail (by dsimp only; split_ifs <;> omega)]
    dsimp only
    rw [lossy_tail (tail_range _)]
    dsimp only
    rw [lossy_tail (tail_range _)]
    dsimp only
    rw [hbits, hc]

end Utf8

theorem fromUtf8Lossy_encode (s : Str) : fromUtf8Lossy (s.flatMap String.utf8EncodeChar) = s := by
  rw [fromUtf8Lossy]
  induction s with
  | nil => rfl
  | cons c s ih => rw [List.flatMap_cons, Utf8.lossy_encodeChar, ih]

example : fromUtf8Lossy [0x61, 0xF0, 0x9F, 0x98, 0x62, 0xED, 0xA0] =
    ['a', '\uFFFD', 'b', '\uFFFD', '\uFFFD'] := by decide

end Rust
