import Argon2Rust.CheckedArithmetic
import Argon2Rust.DecoderSafety
import Argon2Rust.EncodeString

set_option autoImplicit false

namespace Argon2Rust.DecimalFields
open Parameters Numeral Cursor Encoding Decoding Blake2Stream Programs CheckedArithmetic
open Capacity (addUsize fits)
open EncodeString (Puts put)

/-- The digit loop from index `i` down: the index must not wrap, the store must hit the buffer. -/
def fillDigits : ℕ → UInt32 → Vector UInt8 10 → Option (ℕ × Vector UInt8 10)
  | 0, _, _ => none
  | i + 1, n, buf =>
    if h : i < 10 then do
      let digit ← add8 48 (n % 10).toUInt8
      let buf := buf.set i digit
      let n := n / 10
      if n = 0 then some (i, buf) else fillDigits i n buf
    else none

def putU32 (value : UInt32) : Puts Unit := do
  let (i, buf) ← Program.access (fillDigits 10 value (Vector.replicate 10 0))
  let digits ← Program.access (sliceFrom buf.toList i)
  put digits

def decimalLoop (w : PointerWidth) : List UInt8 → UInt64 → ℕ → Option (Option (UInt64 × ℕ))
  | [], acc, i => some (some (acc, i))
  | c :: src, acc, i =>
    if isAsciiDigit c = false then some (some (acc, i))
    else do
      let digit ← sub8 c 48
      let digit := digit.toUInt64
      if acc > 0xFFFFFFFFFFFFFFFF / 10 then some none
      else do
        let acc ← mul64 acc 10
        let room ← sub64 0xFFFFFFFFFFFFFFFF acc
        if digit > room then some none
        else do
          let acc ← add64 acc digit
          let i ← addUsize w i 1
          decimalLoop w src acc i

/-- `decode_decimal`, which has no value where an operation overflows or `src[0]` is missing. -/
def decodeDecimal (w : PointerWidth) (src : List UInt8) : Option (Option (UInt64 × ℕ)) := do
  match ← decimalLoop w src 0 0 with
  | none => some none
  | some (acc, i) =>
    if i = 0 then some none
    else do
      let first ← src[0]?
      if first = 48 ∧ i ≠ 1 then some none else some (some (acc, i))

section Digits

theorem drop_set (i : ℕ) (h : i < 10) (digit : UInt8) (buf : Vector UInt8 10) :
    (buf.set i digit).toList.drop i = digit :: buf.toList.drop (i + 1) := by
  have hlen : (buf.toList.set i digit).length = 10 := by
    rw [List.length_set, Vector.length_toList]
  rw [Vector.toList_set, List.drop_eq_getElem_cons (by omega), List.getElem_set_self,
    List.drop_set_of_lt (Nat.lt_succ_self i)]

theorem digit_fits (n : UInt32) : add8 48 (n % 10).toUInt8 = some (digitByte (n.toNat % 10)) := by
  have hmod : (n % 10).toUInt8.toNat = n.toNat % 10 := by
    rw [UInt32.toNat_toUInt8, UInt32.toNat_mod]
    simp only [UInt32.reduceToNat]
    omega
  rw [add8_eq, Writer.digit_eq]
  rw [hmod]
  change 48 + _ < 2 ^ 8
  omega

theorem fillDigits_succ (i : ℕ) (hi : i < 10) (n : UInt32) (buf : Vector UInt8 10) :
    fillDigits (i + 1) n buf =
      let buf := buf.set i (digitByte (n.toNat % 10))
      if n.toNat < 10 then some (i, buf) else fillDigits i (n / 10) buf := by
  have hdiv : (n / 10).toNat = n.toNat / 10 := UInt32.toNat_div n 10
  have hzero : n / 10 = 0 ↔ n.toNat < 10 := by
    rw [← UInt32.toNat_inj, hdiv, UInt32.toNat_zero]
    omega
  rw [fillDigits, dif_pos hi, digit_fits, Option.bind_eq_bind, Option.bind_some]
  simp only [hzero]

/-- What lies in the buffer from the final index on is the numeral, in front of what was there. -/
theorem fillDigits_eq (i : ℕ) (hi : i < 10) (n : UInt32) (buf : Vector UInt8 10)
    (h : n.toNat < 10 ^ (i + 1)) :
    ∃ j filled, fillDigits (i + 1) n buf = some (j, filled) ∧ j < 10 ∧
      filled.toList.drop j = decimal n.toNat ++ buf.toList.drop (i + 1) := by
  induction i generalizing n buf with
  | zero =>
    have hlt : n.toNat < 10 := h
    rw [fillDigits_succ 0 hi, if_pos hlt]
    refine ⟨_, _, rfl, hi, ?_⟩
    rw [drop_set, Nat.mod_eq_of_lt hlt, decimal_of_lt n.toNat hlt]
    rfl
  | succ i ih =>
    rw [fillDigits_succ (i + 1) hi]
    dsimp only
    by_cases hlt : n.toNat < 10
    · rw [if_pos hlt]
      refine ⟨_, _, rfl, hi, ?_⟩
      rw [drop_set, Nat.mod_eq_of_lt hlt, decimal_of_lt n.toNat hlt]
      rfl
    · have hdiv : (n / 10).toNat = n.toNat / 10 := UInt32.toNat_div n 10
      rw [if_neg hlt]
      obtain ⟨j, filled, hfill, hj, hdrop⟩ := ih (by omega) (n / 10)
        (buf.set (i + 1) (digitByte (n.toNat % 10))) (by rw [hdiv]; omega)
      refine ⟨j, filled, hfill, hj, ?_⟩
      rw [hdrop, hdiv, drop_set, decimal_of_ge n.toNat (by omega), List.append_assoc]
      rfl

theorem putU32_eq (value : UInt32) : putU32 value = put (decimal value.toNat) := by
  have hv := value.toNat_lt
  obtain ⟨j, filled, hfill, hj, hdrop⟩ :=
    fillDigits_eq 9 (by decide) value (Vector.replicate 10 0) (by omega)
  have hslice : sliceFrom filled.toList j = some (decimal value.toNat) := by
    have hnil : (Vector.replicate 10 (0 : UInt8)).toList.drop (9 + 1) = [] := rfl
    rw [hnil, List.append_nil] at hdrop
    rw [← hdrop]
    exact if_pos (by rw [Vector.length_toList]; omega)
  funext o
  unfold putU32
  rw [hfill, Program.access_some_bind]
  dsimp only
  rw [hslice, Program.access_some_bind]

theorem putU32_eq_encoder (value : UInt32) : putU32 value = EncodeString.putU32 value :=
  (putU32_eq value).trans (EncodeString.putU32_eq value).symm

end Digits

section Accumulation

variable (w : PointerWidth)

/-- The guards stand in front of every operation that could overflow. -/
theorem decimalLoop_eq (src : List UInt8) (acc : UInt64) (i : ℕ)
    (hlen : i + src.length < 2 ^ w.bits) :
    decimalLoop w src acc i = some (Decoding.decimalLoop src acc i) := by
  induction src generalizing acc i with
  | nil => rfl
  | cons c src ih =>
    rw [List.length_cons] at hlen
    rw [decimalLoop, Decoding.decimalLoop]
    by_cases hc : isAsciiDigit c = true
    · have hsub : sub8 c 48 = some (c - 48) := sub8_eq ((digit_iff c).mp hc).1
      rw [if_neg (by simp [hc]), if_neg (by simp [hc])]
      rw [bind_of_some hsub]
      dsimp only
      by_cases hover : acc > 0xFFFFFFFFFFFFFFFF / 10
      · rw [if_pos hover, if_pos hover]
      · have hten := mt (quotient_guard acc).mpr hover
        have hmul : mul64 acc 10 = some (acc * 10) := mul64_eq (by
          change acc.toNat * 10 < 2 ^ 64
          omega)
        have hroom : sub64 0xFFFFFFFFFFFFFFFF (acc * 10) = some (0xFFFFFFFFFFFFFFFF - acc * 10) :=
          sub64_eq (Nat.le_of_lt_succ (acc * 10).toNat_lt)
        rw [if_neg hover, if_neg hover]
        rw [bind_of_some hmul, bind_of_some hroom]
        by_cases hdig : (c - 48).toUInt64 > 0xFFFFFFFFFFFFFFFF - acc * 10
        · rw [if_pos hdig, if_pos hdig]
        · have hlast := mt (difference_guard _ _).mpr hdig
          have hnext : addUsize w i 1 = some (i + 1) := if_pos (by omega)
          rw [if_neg hdig, if_neg hdig, bind_of_some (add64_eq (not_le.mp hlast)), bind_of_some hnext]
          exact ih _ _ (by omega)
    · rw [if_pos (by simpa using hc), if_pos (by simpa using hc)]

theorem decodeDecimal_eq (src : List UInt8) (hlen : src.length < 2 ^ w.bits) :
    decodeDecimal w src = some (Decoding.decodeDecimal src) := by
  unfold decodeDecimal
  rw [decimalLoop_eq w src 0 0 (by omega), Option.bind_eq_bind, Option.bind_some]
  exact DecoderSafety.decodeDecimal_eq src

end Accumulation

section Fields

/-- The digit run in front of `src` is one that a `u64` field may be written as. -/
structure Field (src : List UInt8) (n k : ℕ) : Prop where
  run : (src.takeWhile isAsciiDigit).length = k
  nonempty : 1 ≤ k
  minimal : (src.takeWhile isAsciiDigit).head? = some 48 → k = 1
  denotes : value 10 ((src.takeWhile isAsciiDigit).map digitOf) = n
  fits : n ≤ 0xFFFFFFFFFFFFFFFF

end Fields

end Argon2Rust.DecimalFields
