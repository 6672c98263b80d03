import Luaml.Lua
import Luaml.Lib.Utf8

/-! `src/stdlib/url.rs`: components with their bytes percent-encoded. -/

namespace Luaml

open Rust Lua

namespace Url

def isAlphanumeric (b : UInt8) : Bool :=
  (48 ≤ b && b ≤ 57) || (65 ≤ b && b ≤ 90) || (97 ≤ b && b ≤ 122)

def upperHex (n : Nat) : Char := Char.ofNat (if n < 10 then 48 + n else 55 + n)

def encodeByte (c : UInt8) : Str :=
  if isAlphanumeric c then [Char.ofNat c.toNat]
  else ['%', upperHex (c.toNat / 16), upperHex (c.toNat % 16)]

def encodeComponent (s : Str) : Str := (utf8 s).flatMap encodeByte

def toDigit (b : UInt8) : Option Nat :=
  if 48 ≤ b ∧ b ≤ 57 then some (b.toNat - 48)
  else if 65 ≤ b ∧ b ≤ 70 then some (b.toNat - 55)
  else if 97 ≤ b ∧ b ≤ 102 then some (b.toNat - 87)
  else none

def decodeRound {ε : Type} (bytes : List UInt8) (i : Nat) : Res ε (UInt8 × Nat) := do
  let b ← getList bytes i
  if b = 37 ∧ i + 2 < bytes.length then
    let hi ← getList bytes (i + 1)
    let lo ← getList bytes (i + 2)
    match toDigit hi, toDigit lo with
    | some h, some l => pure (UInt8.ofNat (h * 16 + l), 2)
    | _, _ => pure (b, 0)
  else pure (b, 0)

def decodeLoop {ε : Type} (bytes : List UInt8) (i : Nat) (out : List UInt8) :
    Res ε (List UInt8) :=
  if i < bytes.length then
    decodeRound bytes i >>= fun r => decodeLoop bytes (i + 1 + r.2) (out ++ [r.1])
  else pure out
termination_by bytes.length - i

def decodeComponent {ε : Type} (s : Str) : Res ε Str := do
  let out ← decodeLoop (utf8 s) 0 []
  pure (fromUtf8Lossy out)

def triplet (b hi lo : UInt8) : Option UInt8 :=
  if b = 37 then
    (toDigit hi).bind fun h => (toDigit lo).map fun l => UInt8.ofNat (h * 16 + l)
  else none

def decoded : List UInt8 → List UInt8
  | b :: hi :: lo :: bytes =>
    match triplet b hi lo with
    | some c => c :: decoded bytes
    | none => b :: decoded (hi :: lo :: bytes)
  | b :: bytes => b :: decoded bytes
  | [] => []

theorem decoded_cons {b : UInt8} {bytes : List UInt8} (hb : b ≠ 37 ∨ bytes.length < 2) :
    decoded (b :: bytes) = b :: decoded bytes := by
  cases bytes with
  | nil => rfl
  | cons hi bytes =>
    cases bytes with
    | nil => rfl
    | cons lo bytes =>
      have hne : b ≠ 37 := hb.resolve_right (by simp)
      rw [decoded, triplet, if_neg hne]

theorem decodeRound_ok {ε : Type} {bytes : List UInt8} {i : Nat} (hi : i < bytes.length) :
    ∃ b n, (decodeRound bytes i : Res ε _) = .ok (b, n) ∧
      decoded (bytes.drop i) = b :: decoded (bytes.drop (i + 1 + n)) := by
  have hdrop := List.drop_eq_getElem_cons hi
  rw [decodeRound, getList_ok hi, Res.ok_bind, hdrop]
  by_cases hpercent : bytes[i] = 37 ∧ i + 2 < bytes.length
  · obtain ⟨hb, hlook⟩ := hpercent
    have hnext := List.drop_eq_getElem_cons (Nat.lt_of_succ_lt hlook)
    have hlast := List.drop_eq_getElem_cons hlook
    rw [if_pos ⟨hb, hlook⟩, getList_ok (Nat.lt_of_succ_lt hlook), Res.ok_bind, getList_ok hlook,
      Res.ok_bind, hnext, hlast, decoded, triplet, if_pos hb]
    have hstay : decoded (bytes[i + 1] :: bytes[i + 2] :: bytes.drop (i + 3)) =
        decoded (bytes.drop (i + 1)) := by rw [hnext, hlast]
    cases hh : toDigit bytes[i + 1] with
    | none => exact ⟨_, 0, rfl, congrArg _ hstay⟩
    | some h =>
      cases hl : toDigit bytes[i + 2] with
      | none => exact ⟨_, 0, rfl, congrArg _ hstay⟩
      | some l => exact ⟨_, 2, rfl, rfl⟩
  · refine ⟨bytes[i], 0, if_neg hpercent, decoded_cons ?_⟩
    rw [not_and_or] at hpercent
    refine hpercent.imp id fun hlook => ?_
    rw [List.length_drop]
    omega

theorem decodeLoop_eq {ε : Type} (bytes : List UInt8) (i : Nat) (out : List UInt8) :
    (decodeLoop bytes i out : Res ε _) = .ok (out ++ decoded (bytes.drop i)) := by
  induction hleft : bytes.length - i using Nat.strong_induction_on generalizing i out with
  | h left ih =>
    rw [decodeLoop]
    by_cases hi : i < bytes.length
    · obtain ⟨b, n, hround, hdecoded⟩ := decodeRound_ok (ε := ε) hi
      rw [if_pos hi, hround, Res.ok_bind, ih (bytes.length - (i + 1 + n)) (by omega) _ _ rfl,
        hdecoded, List.append_assoc, List.singleton_append]
    · rw [if_neg hi, List.drop_eq_nil_of_le (Nat.not_lt.mp hi), decoded, List.append_nil]
      rfl

theorem decodeComponent_eq {ε : Type} (s : Str) :
    (decodeComponent s : Res ε Str) = .ok (fromUtf8Lossy (decoded (utf8 s))) := by
  rw [decodeComponent, decodeLoop_eq, Res.ok_bind, List.nil_append, List.drop_zero]
  rfl

inductive Encoded : Str → Prop
  | nil : Encoded []
  | plain {c : Char} {s : Str} : c.isAlphanum = true → Encoded s → Encoded (c :: s)
  | triplet {h l : Char} {s : Str} :
    (h.isDigit ∨ 'A' ≤ h ∧ h ≤ 'F') → (l.isDigit ∨ 'A' ≤ l ∧ l ≤ 'F') → Encoded s →
      Encoded ('%' :: h :: l :: s)

theorem forall_byte {P : UInt8 → Prop} (hall : ∀ n < 256, P (UInt8.ofNat n)) (b : UInt8) : P b := by
  have hb := hall b.toNat b.toNat_lt
  rwa [UInt8.ofNat_toNat] at hb

theorem upperHex_digit {n : Nat} (hn : n < 16) :
    ((upperHex n).isDigit ∨ 'A' ≤ upperHex n ∧ upperHex n ≤ 'F') ∧
      ∃ b, utf8 [upperHex n] = [b] ∧ toDigit b = some n := by
  have hall : ∀ n < 16, ((upperHex n).isDigit ∨ 'A' ≤ upperHex n ∧ upperHex n ≤ 'F') ∧
      utf8 [upperHex n] = [UInt8.ofNat (upperHex n).toNat] ∧
        toDigit (UInt8.ofNat (upperHex n).toNat) = some n := by decide
  exact (hall n hn).imp_right fun hdigit => ⟨_, hdigit⟩

theorem alphanumeric {b : UInt8} (hb : isAlphanumeric b = true) :
    (Char.ofNat b.toNat).isAlphanum = true ∧ utf8 [Char.ofNat b.toNat] = [b] ∧ b ≠ 37 := by
  revert hb
  refine forall_byte (P := fun b => isAlphanumeric b = true →
    (Char.ofNat b.toNat).isAlphanum = true ∧ utf8 [Char.ofNat b.toNat] = [b] ∧ b ≠ 37) ?_ b
  decide +kernel

theorem utf8_append (s t : Str) : utf8 (s ++ t) = utf8 s ++ utf8 t := List.flatMap_append

theorem encodeByte_spec (b : UInt8) :
    (∀ s, Encoded s → Encoded (encodeByte b ++ s)) ∧
      ∀ bytes, decoded (utf8 (encodeByte b) ++ bytes) = b :: decoded bytes := by
  rw [encodeByte]
  split_ifs with hplain
  · obtain ⟨halphanum, hutf8, hne⟩ := alphanumeric hplain
    refine ⟨fun s hs => .plain halphanum hs, fun bytes => ?_⟩
    rw [hutf8, List.singleton_append, decoded_cons (.inl hne)]
  · have hb := b.toNat_lt
    obtain ⟨hhi, h, hh, hdigit⟩ := upperHex_digit (n := b.toNat / 16) (by omega)
    obtain ⟨hlo, l, hl, hdigit'⟩ := upperHex_digit (n := b.toNat % 16) (by omega)
    refine ⟨fun s hs => .triplet hhi hlo hs, fun bytes => ?_⟩
    have hutf8 : utf8 ['%', upperHex (b.toNat / 16), upperHex (b.toNat % 16)] = [37, h, l] := by
      rw [← List.singleton_append, utf8_append, ← List.singleton_append (l := [_]), utf8_append,
        hh, hl]
      rfl
    have hvalue : UInt8.ofNat (b.toNat / 16 * 16 + b.toNat % 16) = b := by
      rw [Nat.div_add_mod', UInt8.ofNat_toNat]
    rw [hutf8, List.cons_append, List.cons_append, List.singleton_append, decoded, triplet,
      if_pos rfl, hdigit, hdigit']
    exact congrArg (· :: decoded bytes) hvalue

theorem encoded_flatMap (bytes : List UInt8) :
    Encoded (bytes.flatMap encodeByte) ∧ decoded (utf8 (bytes.flatMap encodeByte)) = bytes := by
  induction bytes with
  | nil => exact ⟨.nil, rfl⟩
  | cons b bytes ih =>
    obtain ⟨hencoded, hdecoded⟩ := encodeByte_spec b
    rw [List.flatMap_cons, utf8_append, hdecoded, ih.2]
    exact ⟨hencoded _ ih.1, rfl⟩

/-- `url.encode` writes letters, digits and triplets, and `url.decode` reads the text back. -/
theorem decode_encode {ε : Type} (s : Str) :
    Encoded (encodeComponent s) ∧ (decodeComponent (encodeComponent s) : Res ε Str) = .ok s := by
  obtain ⟨hencoded, hdecoded⟩ := encoded_flatMap (utf8 s)
  refine ⟨hencoded, ?_⟩
  rw [decodeComponent_eq, encodeComponent, hdecoded, utf8, fromUtf8Lossy_encode]

end Url

end Luaml
