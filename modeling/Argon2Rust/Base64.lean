import Argon2Rust.Parameters
import Argon2Rust.Sextets
import Argon2Rust.Cursor

set_option autoImplicit false

/-!
# Unpadded Base64

The codec of `encoding.rs`. A raw codec call returns the bytes it stored from the
start of its destination together with its result, so what it wrote before an
error is kept. A `Backend` is what `base64.rs` selects: the vector prefix of each
direction, which must agree with the alphabet and stop on whole groups; the
scalar loops then finish from there.
-/
namespace Argon2Rust.Base64
open Parameters Sextets Cursor

def eq (x y : UInt32) : UInt32 := (((0 - (x ^^^ y)) >>> 8) &&& 0xFF) ^^^ 0xFF
def gt (x y : UInt32) : UInt32 := ((y - x) >>> 8) &&& 0xFF
def ge (x y : UInt32) : UInt32 := gt y x ^^^ 0xFF
def lt (x y : UInt32) : UInt32 := gt y x
def le (x y : UInt32) : UInt32 := ge y x

def aOff : UInt32 := 65
def lowerOff : UInt32 := 97 - 26
def digitOff : UInt32 := 48 - 52

def b64ByteToChar (x : UInt32) : UInt8 :=
  ((lt x 26 &&& (x + aOff))
    ||| (ge x 26 &&& lt x 52 &&& (x + lowerOff))
    ||| (ge x 52 &&& lt x 62 &&& (x + digitOff))
    ||| (eq x 62 &&& 43)
    ||| (eq x 63 &&& 47)).toUInt8

def b64CharToByte (c : UInt32) : UInt32 :=
  let x := (ge c 65 &&& le c 90 &&& (c - aOff))
    ||| (ge c 97 &&& le c 122 &&& (c - lowerOff))
    ||| (ge c 48 &&& le c 57 &&& (c - digitOff))
    ||| (eq c 43 &&& 62)
    ||| (eq c 47 &&& 63)
  x ||| (eq x 0 &&& (eq c 65 ^^^ 0xFF))

def isAlphabet (c : UInt8) : Bool := b64CharToByte c.toUInt32 != 0xFF

def charOf (v : ℕ) : UInt8 := b64ByteToChar (UInt32.ofNat v)
def sextetOf (c : UInt8) : ℕ := (b64CharToByte c.toUInt32).toNat

def mask (p : Prop) [Decidable p] : UInt32 := if p then 0xFF else 0

section Alphabet
variable {x y : UInt32}

theorem lowByte_toNat (x : UInt32) : ((x >>> 8) &&& 0xFF).toNat = x.toNat / 256 % 256 := by
  rw [UInt32.toNat_and, UInt32.toNat_shiftRight, Nat.shiftRight_eq_div_pow]
  exact Nat.and_two_pow_sub_one_eq_mod _ 8

theorem gt_eq (hx : x.toNat < 256) (hy : y.toNat < 256) : gt x y = mask (y.toNat < x.toNat) := by
  apply UInt32.toNat_inj.mp
  unfold gt mask
  rw [lowByte_toNat, UInt32.toNat_sub]
  split_ifs with h
  · have h255 : (0xFF : UInt32).toNat = 255 := rfl
    omega
  · have h0 : (0 : UInt32).toNat = 0 := rfl
    omega

theorem ge_eq (hx : x.toNat < 256) (hy : y.toNat < 256) : ge x y = mask (y.toNat ≤ x.toNat) := by
  unfold ge
  rw [gt_eq hy hx]
  unfold mask
  by_cases h : x.toNat < y.toNat
  · rw [if_pos h, if_neg (by omega)]
    rfl
  · rw [if_neg h, if_pos (by omega)]
    rfl

theorem eq_eq (hx : x.toNat < 256) (hy : y.toNat < 256) : eq x y = mask (x = y) := by
  have hxor : (x ^^^ y).toNat < 2 ^ 8 := by
    rw [UInt32.toNat_xor]
    exact Nat.xor_lt_two_pow hx hy
  have hbyte : ((0 - (x ^^^ y)) >>> 8 &&& 0xFF) = mask (x ≠ y) := by
    apply UInt32.toNat_inj.mp
    rw [lowByte_toNat, UInt32.toNat_sub]
    have h0 : (0 : UInt32).toNat = 0 := rfl
    have h255 : (0xFF : UInt32).toNat = 255 := rfl
    unfold mask
    split_ifs with h
    · have hne : (x ^^^ y).toNat ≠ 0 := fun hz => h (UInt32.xor_eq_zero_iff.mp (UInt32.toNat_inj.mp hz))
      omega
    · rw [not_not.mp h, UInt32.xor_self]
      rfl
  unfold eq
  rw [hbyte]
  unfold mask
  by_cases h : x = y
  · rw [if_pos h, if_neg (not_not.mpr h)]
    rfl
  · rw [if_neg h, if_pos h]
    rfl

theorem mask_and_mask (p q : Prop) [Decidable p] [Decidable q] :
    mask p &&& mask q = mask (p ∧ q) := by
  unfold mask
  by_cases hp : p <;> by_cases hq : q <;> simp [hp, hq]

theorem mask_and (p : Prop) [Decidable p] (hx : p → x.toNat < 256) :
    mask p &&& x = if p then x else 0 := by
  unfold mask
  split_ifs with h
  · apply UInt32.toNat_inj.mp
    rw [UInt32.toNat_and, Nat.and_comm]
    exact (Nat.and_two_pow_sub_one_eq_mod _ 8).trans (Nat.mod_eq_of_lt (hx h))
  · exact UInt32.zero_and

/-- The value of a character of the alphabet, and 255 for any other. -/
def sextetValue (c : ℕ) : ℕ :=
  if 65 ≤ c ∧ c ≤ 90 then c - 65
  else if 97 ≤ c ∧ c ≤ 122 then c - 71
  else if 48 ≤ c ∧ c ≤ 57 then c + 4
  else if c = 43 then 62
  else if c = 47 then 63
  else 255

section Classes
variable {c : UInt32} (hc : c.toNat < 256)
include hc

theorem between_and (k l : UInt32) (hk : k.toNat < 256) (hl : l.toNat < 256)
    (hx : k.toNat ≤ c.toNat ∧ c.toNat ≤ l.toNat → x.toNat < 256) :
    (ge c k &&& le c l &&& x) = if k.toNat ≤ c.toNat ∧ c.toNat ≤ l.toNat then x else 0 := by
  unfold le
  rw [ge_eq hc hk, ge_eq hl hc, mask_and_mask, mask_and _ hx]

theorem equal_and (k : UInt32) (hk : k.toNat < 256) (hx : x.toNat < 256) :
    (eq c k &&& x) = if c = k then x else 0 := by
  rw [eq_eq hc hk, mask_and _ fun _ => hx]

/-- The last line of `b64_char_to_byte`: only `A` stands for a zero. -/
theorem zero_marked (hx : x.toNat < 256) : (x ||| (eq x 0 &&& (eq c 65 ^^^ 0xFF))).toNat =
    if x.toNat = 0 ∧ c.toNat ≠ 65 then 255 else x.toNat := by
  have h0 : x = 0 ↔ x.toNat = 0 := UInt32.toNat_inj.symm
  have h65 : c = 65 ↔ c.toNat = 65 := UInt32.toNat_inj.symm
  rw [eq_eq hx (by decide), eq_eq hc (by decide)]
  unfold mask
  by_cases hzero : x = 0 <;> by_cases hA : c = 65 <;> simp [hzero, hA, ← h0, ← h65]

theorem b64CharToByte_toNat : (b64CharToByte c).toNat = sextetValue c.toNat := by
  have hupper : (c - aOff).toNat = (2 ^ 32 - 65 + c.toNat) % 2 ^ 32 := UInt32.toNat_sub c aOff
  have hlower : (c - lowerOff).toNat = (2 ^ 32 - 71 + c.toNat) % 2 ^ 32 :=
    UInt32.toNat_sub c lowerOff
  have hdigit : (c - digitOff).toNat = (4 + c.toNat) % 2 ^ 32 := UInt32.toNat_sub c digitOff
  have hplus : c = 43 ↔ c.toNat = 43 := UInt32.toNat_inj.symm
  have hslash : c = 47 ↔ c.toNat = 47 := UInt32.toNat_inj.symm
  unfold b64CharToByte
  dsimp only
  rw [between_and hc 65 90 (by decide) (by decide) (by simp; omega),
    between_and hc 97 122 (by decide) (by decide) (by simp; omega),
    between_and hc 48 57 (by decide) (by decide) (by simp; omega),
    equal_and hc 43 (by decide) (by decide), equal_and hc 47 (by decide) (by decide)]
  simp only [hplus, hslash, UInt32.reduceToNat]
  by_cases h1 : 65 ≤ c.toNat ∧ c.toNat ≤ 90
  · rw [if_pos h1, if_neg (by omega), if_neg (by omega), if_neg (by omega), if_neg (by omega),
      UInt32.or_zero, UInt32.or_zero, UInt32.or_zero, UInt32.or_zero, zero_marked hc (by omega),
      if_neg (by omega), sextetValue, if_pos h1]
    omega
  by_cases h2 : 97 ≤ c.toNat ∧ c.toNat ≤ 122
  · rw [if_neg h1, if_pos h2, if_neg (by omega), if_neg (by omega), if_neg (by omega),
      UInt32.or_zero, UInt32.or_zero, UInt32.or_zero, UInt32.zero_or, zero_marked hc (by omega),
      if_neg (by omega), sextetValue, if_neg h1, if_pos h2]
    omega
  by_cases h3 : 48 ≤ c.toNat ∧ c.toNat ≤ 57
  · rw [if_neg h1, if_neg h2, if_pos h3, if_neg (by omega), if_neg (by omega),
      UInt32.or_zero, UInt32.or_zero, UInt32.zero_or, UInt32.zero_or, zero_marked hc (by omega),
      if_neg (by omega), sextetValue, if_neg h1, if_neg h2, if_pos h3]
    omega
  rw [if_neg h1, if_neg h2, if_neg h3, sextetValue, if_neg h1, if_neg h2, if_neg h3]
  by_cases h4 : c.toNat = 43
  · rw [if_pos h4, if_neg (by omega), if_pos h4, zero_marked hc (by decide)]
    exact if_neg fun h => absurd h.1 (by decide)
  by_cases h5 : c.toNat = 47
  · rw [if_neg h4, if_pos h5, if_neg h4, if_pos h5, zero_marked hc (by decide)]
    exact if_neg fun h => absurd h.1 (by decide)
  · rw [if_neg h4, if_neg h5, if_neg h4, if_neg h5, zero_marked hc (by decide)]
    exact if_pos ⟨rfl, by omega⟩

end Classes

def charValue (v : ℕ) : ℕ :=
  if v < 26 then v + 65 else if v < 52 then v + 71 else if v < 62 then v - 4
  else if v = 62 then 43 else 47

theorem b64ByteToChar_toNat (hx : x.toNat < 64) : (b64ByteToChar x).toNat = charValue x.toNat := by
  have hx' : x.toNat < 256 := by omega
  have hupper : (x + aOff).toNat = (x.toNat + 65) % 2 ^ 32 := UInt32.toNat_add x aOff
  have hlower : (x + lowerOff).toNat = (x.toNat + 71) % 2 ^ 32 := UInt32.toNat_add x lowerOff
  have hdigit : (x + digitOff).toNat = (x.toNat + (2 ^ 32 - 4)) % 2 ^ 32 :=
    UInt32.toNat_add x digitOff
  have hplus : x = 62 ↔ x.toNat = 62 := UInt32.toNat_inj.symm
  have hslash : x = 63 ↔ x.toNat = 63 := UInt32.toNat_inj.symm
  have h26 : (26 : UInt32).toNat = 26 := rfl
  have h52 : (52 : UInt32).toNat = 52 := rfl
  have h62 : (62 : UInt32).toNat = 62 := rfl
  unfold b64ByteToChar lt
  rw [gt_eq (by decide) hx', gt_eq (by decide) hx', gt_eq (by decide) hx',
    ge_eq hx' (by decide), ge_eq hx' (by decide), mask_and_mask, mask_and_mask,
    h26, h52, h62,
    mask_and _ fun _ => by omega, mask_and _ fun _ => by omega, mask_and _ fun _ => by omega,
    equal_and hx' 62 (by decide) (by decide), equal_and hx' 63 (by decide) (by decide)]
  simp only [hplus, hslash, UInt32.toNat_toUInt8]
  unfold charValue
  by_cases h1 : x.toNat < 26
  · rw [if_pos h1, if_neg (by omega), if_neg (by omega), if_neg (by omega), if_neg (by omega),
      UInt32.or_zero, UInt32.or_zero, UInt32.or_zero, UInt32.or_zero, if_pos h1]
    omega
  by_cases h2 : x.toNat < 52
  · rw [if_neg h1, if_pos ⟨by omega, h2⟩, if_neg (by omega), if_neg (by omega), if_neg (by omega),
      UInt32.or_zero, UInt32.or_zero, UInt32.or_zero, UInt32.zero_or, if_neg h1, if_pos h2]
    omega
  by_cases h3 : x.toNat < 62
  · rw [if_neg h1, if_neg (by omega), if_pos ⟨by omega, h3⟩, if_neg (by omega), if_neg (by omega),
      UInt32.or_zero, UInt32.or_zero, UInt32.zero_or, UInt32.zero_or, if_neg h1, if_neg h2,
      if_pos h3]
    omega
  rw [if_neg h1, if_neg (by omega), if_neg (by omega), if_neg h1, if_neg h2, if_neg h3]
  by_cases h4 : x.toNat = 62
  · rw [if_pos h4, if_neg (by omega), if_pos h4]
    rfl
  · rw [if_neg h4, if_pos (by omega), if_neg h4]
    rfl

end Alphabet

theorem sextetOf_toNat (c : UInt8) : sextetOf c = sextetValue c.toNat := by
  have h := b64CharToByte_toNat (c := c.toUInt32) (by rw [UInt8.toNat_toUInt32]; exact c.toNat_lt)
  rwa [UInt8.toNat_toUInt32] at h

theorem charOf_toNat (v : ℕ) (h : v < 64) : (charOf v).toNat = charValue v := by
  have hv : (UInt32.ofNat v).toNat = v := UInt32.toNat_ofNat_of_lt' (by change _ < 2 ^ 32; omega)
  have hchar := b64ByteToChar_toNat (x := UInt32.ofNat v) (by omega)
  rwa [hv] at hchar

theorem isAlphabet_iff (c : UInt8) : isAlphabet c = true ↔ sextetOf c ≠ 255 := by
  unfold isAlphabet
  rw [bne_iff_ne, ne_eq, ← UInt32.toNat_inj]
  rfl

theorem sextetOf_charOf (v : ℕ) (h : v < 64) : sextetOf (charOf v) = v := by
  have hall : ∀ v < 64, sextetValue (charValue v) = v := by decide
  rw [sextetOf_toNat, charOf_toNat v h, hall v h]

theorem isAlphabet_charOf (v : ℕ) (h : v < 64) : isAlphabet (charOf v) = true := by
  rw [isAlphabet_iff, sextetOf_charOf v h]
  omega

set_option maxRecDepth 2000 in
theorem alphabet (c : UInt8) (h : isAlphabet c = true) :
    sextetOf c < 64 ∧ charOf (sextetOf c) = c := by
  have hall : ∀ c < 256, sextetValue c ≠ 255 →
      sextetValue c < 64 ∧ charValue (sextetValue c) = c := by decide
  rw [isAlphabet_iff, sextetOf_toNat] at h
  obtain ⟨hlt, hchar⟩ := hall c.toNat c.toNat_lt h
  rw [sextetOf_toNat]
  refine ⟨hlt, UInt8.toNat_inj.mp ?_⟩
  rw [charOf_toNat _ hlt, hchar]

def b64LenUsize (len : ℕ) : ℕ :=
  (len / 3) * 4 + (if len % 3 = 2 then 3 else if len % 3 = 1 then 2 else 0)

theorem b64LenUsize_eq (len : ℕ) : b64LenUsize len = encodedLength len := by
  unfold b64LenUsize encodedLength
  split_ifs <;> omega

def text (bytes : List UInt8) : List UInt8 := (sextets bytes).map charOf

theorem text_length (bytes : List UInt8) : (text bytes).length = b64LenUsize bytes.length := by
  rw [text, List.length_map, sextets_length, b64LenUsize_eq]

theorem text_group (a b c : UInt8) (bytes : List UInt8) :
    text (a :: b :: c :: bytes) = charOf (a.toNat / 4) ::
      charOf (a.toNat % 4 * 16 + b.toNat / 16) :: charOf (b.toNat % 16 * 4 + c.toNat / 64) ::
        charOf (c.toNat % 64) :: text bytes := rfl

theorem text_length_quarters (x : List UInt8) : (text x).length * 3 / 4 = x.length := by
  have h := text_length x
  rw [b64LenUsize_eq, encodedLength] at h
  omega

theorem text_alphabet (bytes : List UInt8) : ∀ c ∈ text bytes, isAlphabet c = true := by
  intro c hc
  obtain ⟨v, hv, rfl⟩ := List.mem_map.mp hc
  exact isAlphabet_charOf v (sextets_lt bytes v hv)

theorem text_sextets (bytes : List UInt8) : (text bytes).map sextetOf = sextets bytes := by
  rw [text, List.map_map]
  refine (List.map_congr_left fun v hv => ?_).trans (List.map_id _)
  exact sextetOf_charOf v (sextets_lt bytes v hv)

/-- A run of alphabet characters is the text of whatever it decodes to. -/
theorem text_of_octets (run bytes : List UInt8) (hrun : ∀ c ∈ run, isAlphabet c = true)
    (h : octets (run.map sextetOf) = some bytes) : text bytes = run := by
  have hlt : ∀ v ∈ run.map sextetOf, v < 64 := by
    intro v hv
    obtain ⟨c, hc, rfl⟩ := List.mem_map.mp hv
    exact (alphabet c (hrun c hc)).1
  rw [text, sextets_of_octets _ _ hlt h, List.map_map]
  refine (List.map_congr_left fun c hc => ?_).trans (List.map_id _)
  exact (alphabet c (hrun c hc)).2

theorem octets_text (bytes : List UInt8) : octets ((text bytes).map sextetOf) = some bytes := by
  rw [text_sextets, octets_sextets]

theorem text_injective : Function.Injective text := by
  intro x y h
  have ho := octets_text x
  rw [h, octets_text y] at ho
  exact (Option.some.inj ho).symm

section Bits

theorem push_toNat (acc x : UInt32) (k : ℕ) (hk : k < 32) (hx : x.toNat < 2 ^ k) :
    ((acc <<< UInt32.ofNat k) ||| x).toNat = acc.toNat * 2 ^ k % 2 ^ 32 + x.toNat := by
  have hpow : (2 : ℕ) ^ 32 = 2 ^ (32 - k) * 2 ^ k := by
    rw [← pow_add]
    congr 1
    omega
  have hmod : acc.toNat * 2 ^ k % 2 ^ 32 = (acc.toNat % 2 ^ (32 - k)) <<< k := by
    rw [hpow, Nat.mul_mod_mul_right, Nat.shiftLeft_eq]
  have hsh : (UInt32.ofNat k).toNat % 32 = k := by
    rw [UInt32.toNat_ofNat_of_lt' (by change _ < 2 ^ 32; omega), Nat.mod_eq_of_lt hk]
  rw [UInt32.toNat_or, UInt32.toNat_shiftLeft, hsh, Nat.shiftLeft_eq acc.toNat k, hmod,
    ← Nat.shiftLeft_add_eq_or_of_lt hx]

theorem field_toNat (acc : UInt32) (k m : ℕ) (hk : k < 32) (hm : m < 32) :
    ((acc >>> UInt32.ofNat k) &&& UInt32.ofNat (2 ^ m - 1)).toNat = acc.toNat / 2 ^ k % 2 ^ m := by
  have hsh : (UInt32.ofNat k).toNat % 32 = k := by
    rw [UInt32.toNat_ofNat_of_lt' (by change _ < 2 ^ 32; omega), Nat.mod_eq_of_lt hk]
  have hpow : 2 ^ m < 2 ^ 32 := Nat.pow_lt_pow_right (by omega) hm
  rw [UInt32.toNat_and, UInt32.toNat_shiftRight, hsh,
    UInt32.toNat_ofNat_of_lt' (by change _ < 2 ^ 32; omega), Nat.and_two_pow_sub_one_eq_mod,
    Nat.shiftRight_eq_div_pow]

end Bits

section Encode

def pushByte (acc : UInt32) (byte : UInt8) : UInt32 := (acc <<< 8) ||| byte.toUInt32

/-- The `while acc_len >= 6` loop: the characters it stores and the bits it leaves. -/
def drain (acc : UInt32) : ℕ → List UInt8 × ℕ
  | accLen + 6 =>
    let r := drain acc accLen
    (b64ByteToChar ((acc >>> UInt32.ofNat accLen) &&& 0x3F) :: r.1, r.2)
  | accLen => ([], accLen)

def encodeLoop : List UInt8 → UInt32 → ℕ → List UInt8
  | [], acc, accLen =>
    if accLen > 0 then [b64ByteToChar ((acc <<< UInt32.ofNat (6 - accLen)) &&& 0x3F)] else []
  | byte :: src, acc, accLen =>
    let acc := pushByte acc byte
    let r := drain acc (accLen + 8)
    r.1 ++ encodeLoop src acc r.2

theorem pushByte_toNat (acc : UInt32) (byte : UInt8) :
    (pushByte acc byte).toNat = acc.toNat * 256 % 2 ^ 32 + byte.toNat := by
  have hb := byte.toNat_lt
  exact push_toNat acc byte.toUInt32 8 (by omega) (by rw [UInt8.toNat_toUInt32]; exact hb)

theorem char_eq (acc : UInt32) (k v : ℕ) (hk : k < 32) (hv : acc.toNat / 2 ^ k % 64 = v) :
    b64ByteToChar ((acc >>> UInt32.ofNat k) &&& 0x3F) = charOf v := by
  have hf := field_toNat acc k 6 hk (by omega)
  unfold charOf
  congr 1
  apply UInt32.toNat_inj.mp
  rw [UInt32.toNat_ofNat_of_lt' (by change _ < 2 ^ 32; omega), ← hv]
  exact hf

theorem lastChar_eq (acc : UInt32) (k v : ℕ) (hk : k < 6) (hv : acc.toNat * 2 ^ k % 64 = v) :
    b64ByteToChar ((acc <<< UInt32.ofNat k) &&& 0x3F) = charOf v := by
  have hp := push_toNat acc 0 k (by omega) (Nat.two_pow_pos k)
  have hf := field_toNat (acc <<< UInt32.ofNat k) 0 6 (by omega) (by omega)
  rw [UInt32.or_zero, UInt32.toNat_zero, Nat.add_zero] at hp
  unfold charOf
  congr 1
  apply UInt32.toNat_inj.mp
  rw [UInt32.toNat_ofNat_of_lt' (by change _ < 2 ^ 32; omega), ← hv]
  refine (Eq.trans ?_ hf).trans ?_
  · simp
  · rw [hp]
    omega

theorem encodeLoop_first (a : UInt8) (src : List UInt8) (acc : UInt32) :
    encodeLoop (a :: src) acc 0 =
      charOf (a.toNat / 4) :: encodeLoop src (pushByte acc a) 2 := by
  have ha := pushByte_toNat acc a
  have hal := a.toNat_lt
  change b64ByteToChar ((pushByte acc a >>> UInt32.ofNat 2) &&& 0x3F) :: _ = _
  rw [char_eq _ 2 (a.toNat / 4) (by omega) (by omega)]
  rfl

theorem encodeLoop_second (b : UInt8) (src : List UInt8) (acc : UInt32) :
    encodeLoop (b :: src) acc 2 =
      charOf (acc.toNat % 4 * 16 + b.toNat / 16) :: encodeLoop src (pushByte acc b) 4 := by
  have hb := pushByte_toNat acc b
  have hbl := b.toNat_lt
  change b64ByteToChar ((pushByte acc b >>> UInt32.ofNat 4) &&& 0x3F) :: _ = _
  rw [char_eq _ 4 (acc.toNat % 4 * 16 + b.toNat / 16) (by omega) (by omega)]
  rfl

theorem encodeLoop_third (c : UInt8) (src : List UInt8) (acc : UInt32) :
    encodeLoop (c :: src) acc 4 =
      charOf (acc.toNat % 16 * 4 + c.toNat / 64) :: charOf (c.toNat % 64) ::
        encodeLoop src (pushByte acc c) 0 := by
  have hc := pushByte_toNat acc c
  have hcl := c.toNat_lt
  change b64ByteToChar ((pushByte acc c >>> UInt32.ofNat 6) &&& 0x3F) ::
    b64ByteToChar ((pushByte acc c >>> UInt32.ofNat 0) &&& 0x3F) :: _ = _
  rw [char_eq _ 6 (acc.toNat % 16 * 4 + c.toNat / 64) (by omega) (by omega),
    char_eq _ 0 (c.toNat % 64) (by omega) (by omega)]
  rfl

theorem encodeLoop_rest (acc : UInt32) (accLen v : ℕ) (h : 0 < accLen) (hl : accLen ≤ 6)
    (hv : acc.toNat * 2 ^ (6 - accLen) % 64 = v) : encodeLoop [] acc accLen = [charOf v] := by
  rw [encodeLoop, if_pos h, lastChar_eq acc (6 - accLen) v (by omega) hv]

/-- From a group boundary the loop stores the text of its source. -/
theorem encodeLoop_eq (src : List UInt8) (acc : UInt32) : encodeLoop src acc 0 = text src := by
  induction src using sextets.induct generalizing acc with
  | case1 => rfl
  | case2 a =>
    have ha := pushByte_toNat acc a
    rw [encodeLoop_first, encodeLoop_rest _ 2 (a.toNat % 4 * 16) (by omega) (by omega) (by omega)]
    rfl
  | case3 a b =>
    have ha := pushByte_toNat acc a
    have hb := pushByte_toNat (pushByte acc a) b
    have hq : (pushByte acc a).toNat % 4 = a.toNat % 4 := by omega
    rw [encodeLoop_first, encodeLoop_second, hq,
      encodeLoop_rest _ 4 (b.toNat % 16 * 4) (by omega) (by omega) (by omega)]
    rfl
  | case4 a b c src ih =>
    have ha := pushByte_toNat acc a
    have hb := pushByte_toNat (pushByte acc a) b
    have hq : (pushByte acc a).toNat % 4 = a.toNat % 4 := by omega
    have hr : (pushByte (pushByte acc a) b).toNat % 16 = b.toNat % 16 := by omega
    rw [encodeLoop_first, encodeLoop_second, encodeLoop_third, hq, hr, ih]
    rfl

end Encode

section Decode

def pushSextet (acc d : UInt32) : UInt32 := (acc <<< 6) ||| d

def decodeEnd (acc : UInt32) (accLen len consumed : ℕ) : Except Error (ℕ × ℕ) :=
  if accLen > 4 ∨ (acc &&& ((1 <<< UInt32.ofNat accLen) - 1)) ≠ 0 then .error .decodingFail
  else .ok (len, consumed)

/-- The decoder's loop; `dst` holds the bytes stored so far. -/
def decodeLoop (dstLen : ℕ) : List UInt8 → UInt32 → ℕ → ℕ → List UInt8 →
    List UInt8 × Except Error (ℕ × ℕ)
  | [], acc, accLen, consumed, dst => (dst, decodeEnd acc accLen dst.length consumed)
  | c :: src, acc, accLen, consumed, dst =>
    let d := b64CharToByte c.toUInt32
    if d = 0xFF then (dst, decodeEnd acc accLen dst.length consumed)
    else
      let acc := pushSextet acc d
      if accLen + 6 ≥ 8 then
        if dst.length ≥ dstLen then (dst, .error .decodingFail)
        else
          decodeLoop dstLen src acc (accLen + 6 - 8) (consumed + 1)
            (dst ++ [((acc >>> UInt32.ofNat (accLen + 6 - 8)) &&& 0xFF).toUInt8])
      else decodeLoop dstLen src acc (accLen + 6) (consumed + 1) dst

theorem pushSextet_toNat (acc : UInt32) (c : UInt8) (h : isAlphabet c = true) :
    (pushSextet acc (b64CharToByte c.toUInt32)).toNat = acc.toNat * 64 % 2 ^ 32 + sextetOf c :=
  push_toNat acc _ 6 (by omega) (alphabet c h).1

theorem byte_eq (acc : UInt32) (k v : ℕ) (hk : k < 32) (hv : acc.toNat / 2 ^ k % 256 = v) :
    ((acc >>> UInt32.ofNat k) &&& 0xFF).toUInt8 = UInt8.ofNat v := by
  have hf := field_toNat acc k 8 hk (by omega)
  apply UInt8.toNat_inj.mp
  rw [UInt32.toNat_toUInt8, UInt8.toNat_ofNat_of_lt' (by change _ < 256; omega), ← hv]
  refine (congrArg (· % 2 ^ 8) hf).trans ?_
  omega

theorem pushSextet_mod (acc : UInt32) {c : UInt8} (h : isAlphabet c = true) :
    (pushSextet acc (b64CharToByte c.toUInt32)).toNat % 2 ^ 6 = sextetOf c := by
  have hp := pushSextet_toNat acc c h
  have hs := (alphabet c h).1
  omega

theorem pushSextet_mod' (k : ℕ) (hk : k = 2 ∨ k = 4) (acc : UInt32) {c : UInt8}
    (h : isAlphabet c = true) :
    (pushSextet acc (b64CharToByte c.toUInt32)).toNat % 2 ^ k = sextetOf c % 2 ^ k := by
  have hp := pushSextet_toNat acc c h
  rcases hk with rfl | rfl <;> omega

variable {dstLen consumed : ℕ} {c : UInt8} {src dst : List UInt8} {acc : UInt32}

theorem decodeLoop_nil (accLen : ℕ) : decodeLoop dstLen [] acc accLen consumed dst =
    (dst, decodeEnd acc accLen dst.length consumed) := rfl

theorem decodeLoop_cons (accLen : ℕ) : decodeLoop dstLen (c :: src) acc accLen consumed dst =
    if b64CharToByte c.toUInt32 = 0xFF then (dst, decodeEnd acc accLen dst.length consumed)
    else if accLen + 6 ≥ 8 then
      if dst.length ≥ dstLen then (dst, .error .decodingFail)
      else
        decodeLoop dstLen src (pushSextet acc (b64CharToByte c.toUInt32)) (accLen + 6 - 8)
          (consumed + 1) (dst ++ [((pushSextet acc (b64CharToByte c.toUInt32) >>>
            UInt32.ofNat (accLen + 6 - 8)) &&& 0xFF).toUInt8])
    else
      decodeLoop dstLen src (pushSextet acc (b64CharToByte c.toUInt32)) (accLen + 6) (consumed + 1)
        dst := rfl

theorem decodeLoop_stops (accLen : ℕ) (h : Stops isAlphabet src) :
    decodeLoop dstLen src acc accLen consumed dst =
      (dst, decodeEnd acc accLen dst.length consumed) := by
  cases src with
  | nil => rfl
  | cons c src =>
    have hc : b64CharToByte c.toUInt32 = 0xFF := by
      have := h c rfl
      unfold isAlphabet at this
      simpa using this
    rw [decodeLoop_cons]
    exact if_pos hc

theorem alphabet_ne (h : isAlphabet c = true) : b64CharToByte c.toUInt32 ≠ 0xFF := by
  unfold isAlphabet at h
  simpa using h

theorem decodeLoop_first (h : isAlphabet c = true) :
    decodeLoop dstLen (c :: src) acc 0 consumed dst =
      decodeLoop dstLen src (pushSextet acc (b64CharToByte c.toUInt32)) 6 (consumed + 1) dst := by
  rw [decodeLoop_cons, if_neg (alphabet_ne h), if_neg (by omega)]

/-- With `accLen` bits pending, the next character completes a byte. -/
theorem decodeLoop_next (h : isAlphabet c = true) (hroom : dst.length < dstLen) (accLen : ℕ)
    (hl : accLen = 2 ∨ accLen = 4 ∨ accLen = 6) :
    decodeLoop dstLen (c :: src) acc accLen consumed dst =
      decodeLoop dstLen src (pushSextet acc (b64CharToByte c.toUInt32)) (accLen - 2) (consumed + 1)
        (dst ++ [UInt8.ofNat (acc.toNat % 2 ^ accLen * 2 ^ (8 - accLen) +
          sextetOf c / 2 ^ (accLen - 2))]) := by
  have hp := pushSextet_toNat acc c h
  have hs := (alphabet c h).1
  rw [decodeLoop_cons, if_neg (alphabet_ne h), if_pos (by omega), if_neg (by omega)]
  rcases hl with rfl | rfl | rfl
  · rw [byte_eq _ _ (acc.toNat % 2 ^ 2 * 2 ^ (8 - 2) + sextetOf c / 2 ^ (2 - 2)) (by omega)
      (by omega)]
  · rw [byte_eq _ _ (acc.toNat % 2 ^ 4 * 2 ^ (8 - 4) + sextetOf c / 2 ^ (4 - 2)) (by omega)
      (by omega)]
  · rw [byte_eq _ _ (acc.toNat % 2 ^ 6 * 2 ^ (8 - 6) + sextetOf c / 2 ^ (6 - 2)) (by omega)
      (by omega)]

theorem decodeLoop_full (h : isAlphabet c = true) (hroom : dstLen ≤ dst.length) (accLen : ℕ)
    (hl : 2 ≤ accLen) :
    decodeLoop dstLen (c :: src) acc accLen consumed dst = (dst, .error .decodingFail) := by
  rw [decodeLoop_cons, if_neg (alphabet_ne h), if_pos (by omega), if_pos hroom]

theorem decodeEnd_eq (acc : UInt32) (accLen len consumed : ℕ) (hl : accLen ≤ 4) :
    decodeEnd acc accLen len consumed =
      if acc.toNat % 2 ^ accLen = 0 then .ok (len, consumed) else .error .decodingFail := by
  have hmask : (1 <<< UInt32.ofNat accLen) - 1 = UInt32.ofNat (2 ^ accLen - 1) := by
    interval_cases accLen <;> rfl
  have hf := field_toNat acc 0 accLen (by omega) (by omega)
  have hz : (acc >>> UInt32.ofNat 0) = acc := by simp
  rw [hz, pow_zero, Nat.div_one] at hf
  have hiff : (acc &&& UInt32.ofNat (2 ^ accLen - 1)) ≠ 0 ↔ acc.toNat % 2 ^ accLen ≠ 0 := by
    rw [← hf, not_iff_not, ← UInt32.toNat_inj]
    rfl
  unfold decodeEnd
  by_cases h : acc.toNat % 2 ^ accLen = 0
  · rw [if_pos h, if_neg]
    rintro (h4 | hne)
    · omega
    · rw [hmask] at hne
      exact hiff.mp hne h
  · rw [if_neg h, if_pos]
    exact Or.inr (by rw [hmask]; exact hiff.mpr h)

theorem decodeEnd_six (acc : UInt32) (len consumed : ℕ) :
    decodeEnd acc 6 len consumed = .error .decodingFail := if_pos (Or.inl (by omega))

theorem decodeEnd_congr (acc acc' : UInt32) (accLen len consumed : ℕ)
    (hl : accLen ≤ 4 ∨ accLen = 6) (h : acc.toNat % 2 ^ accLen = acc'.toNat % 2 ^ accLen) :
    decodeEnd acc accLen len consumed = decodeEnd acc' accLen len consumed := by
  rcases hl with hl | rfl
  · rw [decodeEnd_eq _ _ _ _ hl, decodeEnd_eq _ _ _ _ hl, h]
  · rw [decodeEnd_six, decodeEnd_six]

/-- Only the pending bits of the accumulator matter: the ones above them are never read. -/
theorem decodeLoop_congr (src : List UInt8) (acc acc' : UInt32) (accLen consumed : ℕ)
    (dst : List UInt8) (hl : accLen = 0 ∨ accLen = 2 ∨ accLen = 4 ∨ accLen = 6)
    (h : acc.toNat % 2 ^ accLen = acc'.toNat % 2 ^ accLen) :
    decodeLoop dstLen src acc accLen consumed dst =
      decodeLoop dstLen src acc' accLen consumed dst := by
  induction src generalizing acc acc' accLen consumed dst with
  | nil => rw [decodeLoop_nil, decodeLoop_nil, decodeEnd_congr acc acc' _ _ _ (by omega) h]
  | cons c src ih =>
    by_cases hc : isAlphabet c = true
    · have hp := pushSextet_toNat acc c hc
      have hp' := pushSextet_toNat acc' c hc
      rcases hl with rfl | hl
      · rw [decodeLoop_first hc, decodeLoop_first hc]
        exact ih _ _ 6 _ _ (by omega) (by rw [pushSextet_mod acc hc, pushSextet_mod acc' hc])
      · by_cases hroom : dst.length < dstLen
        · rw [decodeLoop_next hc hroom accLen hl, decodeLoop_next hc hroom accLen hl, h]
          refine ih _ _ (accLen - 2) _ _ (by omega) ?_
          rcases hl with rfl | rfl | rfl <;> omega
        · rw [decodeLoop_full hc (by omega) accLen (by omega),
            decodeLoop_full hc (by omega) accLen (by omega)]
    · have hs : Stops isAlphabet (c :: src) := stops_cons (by simpa using hc) src
      rw [decodeLoop_stops accLen hs, decodeLoop_stops accLen hs,
        decodeEnd_congr acc acc' _ _ _ (by omega) h]

/-- What a decoder that has stored `dst` and read `consumed` characters must do on
a run with the given regrouping. -/
def Finishes (dst : List UInt8) (consumed run : ℕ) (r : List UInt8 × Except Error (ℕ × ℕ)) :
    Option (List UInt8) → Prop
  | some bytes => r = (dst ++ bytes, .ok (dst.length + bytes.length, consumed + run))
  | none => r.2 = .error .decodingFail

theorem Finishes.extend {dst head : List UInt8} {consumed n run : ℕ}
    {r : List UInt8 × Except Error (ℕ × ℕ)} {o : Option (List UInt8)}
    (h : Finishes (dst ++ head) (consumed + n) run r o) :
    Finishes dst consumed (n + run) r (o.map (head ++ ·)) := by
  cases o with
  | none => exact h
  | some bytes =>
    change r = _ at h
    change r = _
    rw [h, List.append_assoc, List.length_append, List.length_append, Nat.add_assoc,
      Nat.add_assoc]

theorem decodeLoop_group {p q r s : UInt8} (hp : isAlphabet p = true) (hq : isAlphabet q = true)
    (hr : isAlphabet r = true) (hs : isAlphabet s = true) (hroom : dst.length + 2 < dstLen) :
    ∃ acc', decodeLoop dstLen (p :: q :: r :: s :: src) acc 0 consumed dst =
      decodeLoop dstLen src acc' 0 (consumed + 4)
        (dst ++ [octet₁ (sextetOf p) (sextetOf q), octet₂ (sextetOf q) (sextetOf r),
          octet₃ (sextetOf r) (sextetOf s)]) := by
  refine ⟨[p, q, r, s].foldl (fun a c => pushSextet a (b64CharToByte c.toUInt32)) acc, ?_⟩
  rw [decodeLoop_first hp, decodeLoop_next hq (by omega) 6 (by omega), pushSextet_mod _ hp,
    decodeLoop_next hr (by rw [List.length_append, List.length_singleton]; omega) 4 (by omega),
    pushSextet_mod' 4 (by omega) _ hq,
    decodeLoop_next hs (by simp only [List.length_append, List.length_singleton]; omega) 2
      (by omega), pushSextet_mod' 2 (by omega) _ hr, List.append_assoc, List.append_assoc]
  simp only [octet₁, octet₂, octet₃, List.cons_append, List.nil_append, Nat.sub_self, pow_zero,
    Nat.div_one]
  rfl

/-- With room for the whole run, the loop finishes as its regrouping says. -/
theorem decodeLoop_run (run : List UInt8) (hrun : ∀ c ∈ run, isAlphabet c = true)
    (src : List UInt8) (hsrc : Stops isAlphabet src) (acc : UInt32) (consumed : ℕ)
    (dst : List UInt8) (hroom : dst.length + run.length * 3 / 4 ≤ dstLen) :
    Finishes dst consumed run.length (decodeLoop dstLen (run ++ src) acc 0 consumed dst)
      (octets (run.map sextetOf)) := by
  match run with
  | [] =>
    rw [List.nil_append, decodeLoop_stops 0 hsrc, decodeEnd_eq _ _ _ _ (by omega), if_pos (by omega)]
    simp [Finishes, octets]
  | [p] =>
    have hp := hrun p (by simp)
    rw [List.cons_append, List.nil_append, decodeLoop_first hp, decodeLoop_stops 6 hsrc,
      decodeEnd_six]
    rfl
  | [p, q] =>
    have hp := hrun p (by simp)
    have hq := hrun q (by simp)
    simp only [List.length_cons, List.length_nil] at hroom
    rw [List.cons_append, List.cons_append, List.nil_append, decodeLoop_first hp,
      decodeLoop_next hq (by omega) 6 (by omega), pushSextet_mod _ hp, decodeLoop_stops _ hsrc,
      decodeEnd_eq _ _ _ _ (by omega), pushSextet_mod' 4 (by omega) _ hq]
    simp only [List.map_cons, List.map_nil, octets]
    by_cases h : sextetOf q % 16 = 0
    · have h' : sextetOf q % 2 ^ 4 = 0 := h
      rw [if_pos h', if_pos h]
      simp [Finishes, octet₁]
    · have h' : ¬ sextetOf q % 2 ^ 4 = 0 := h
      rw [if_neg h', if_neg h]
      rfl
  | [p, q, r] =>
    have hp := hrun p (by simp)
    have hq := hrun q (by simp)
    have hr := hrun r (by simp)
    simp only [List.length_cons, List.length_nil] at hroom
    rw [List.cons_append, List.cons_append, List.cons_append, List.nil_append,
      decodeLoop_first hp, decodeLoop_next hq (by omega) 6 (by omega), pushSextet_mod _ hp,
      decodeLoop_next hr (by rw [List.length_append, List.length_singleton]; omega) 4 (by omega),
      pushSextet_mod' 4 (by omega) _ hq, decodeLoop_stops _ hsrc,
      decodeEnd_eq _ _ _ _ (by omega), pushSextet_mod' 2 (by omega) _ hr]
    simp only [List.map_cons, List.map_nil, octets]
    by_cases h : sextetOf r % 4 = 0
    · have h' : sextetOf r % 2 ^ 2 = 0 := h
      rw [if_pos h', if_pos h]
      simp [Finishes, octet₁, octet₂]
    · have h' : ¬ sextetOf r % 2 ^ 2 = 0 := h
      rw [if_neg h', if_neg h]
      rfl
  | p :: q :: r :: s :: run =>
    have hp := hrun p (by simp)
    have hq := hrun q (by simp)
    have hr := hrun r (by simp)
    have hs := hrun s (by simp)
    simp only [List.length_cons] at hroom
    obtain ⟨acc', hgroup⟩ := @decodeLoop_group dstLen consumed (run ++ src) dst acc p q r s hp hq hr hs
      (by omega)
    have ih := decodeLoop_run run (fun c hc => hrun c (by simp [hc])) src hsrc acc' (consumed + 4)
      (dst ++ [octet₁ (sextetOf p) (sextetOf q), octet₂ (sextetOf q) (sextetOf r),
        octet₃ (sextetOf r) (sextetOf s)])
      (by rw [List.length_append]; simp only [List.length_cons, List.length_nil]; omega)
    have hext := ih.extend
    rw [Nat.add_comm 4] at hext
    rw [List.cons_append, List.cons_append, List.cons_append, List.cons_append, hgroup]
    exact hext

theorem decodeLoop_text (bytes src : List UInt8) (acc acc' : UInt32) (consumed : ℕ)
    (dst : List UInt8) (hdvd : 3 ∣ bytes.length) (hroom : dst.length + bytes.length ≤ dstLen) :
    decodeLoop dstLen (text bytes ++ src) acc 0 consumed dst =
      decodeLoop dstLen src acc' 0 (consumed + (text bytes).length) (dst ++ bytes) := by
  induction bytes using sextets.induct generalizing acc consumed dst with
  | case1 =>
    change decodeLoop dstLen src acc 0 consumed dst = decodeLoop dstLen src acc' 0 consumed _
    rw [List.append_nil]
    exact decodeLoop_congr src acc acc' 0 consumed dst (by omega) (by omega)
  | case2 a => simp at hdvd
  | case3 a b => simp at hdvd
  | case4 a b c bytes ih =>
    have ha := a.toNat_lt
    have hb := b.toNat_lt
    have hc := c.toNat_lt
    simp only [List.length_cons] at hdvd hroom
    obtain ⟨acc₁, hgroup⟩ := @decodeLoop_group dstLen consumed (text bytes ++ src) dst acc _ _ _ _
      (isAlphabet_charOf (a.toNat / 4) (by omega))
      (isAlphabet_charOf (a.toNat % 4 * 16 + b.toNat / 16) (by omega))
      (isAlphabet_charOf (b.toNat % 16 * 4 + c.toNat / 64) (by omega))
      (isAlphabet_charOf (c.toNat % 64) (by omega)) (by omega)
    rw [sextetOf_charOf _ (by omega), sextetOf_charOf _ (by omega), sextetOf_charOf _ (by omega),
      sextetOf_charOf _ (by omega), octets_group] at hgroup
    rw [text_group, List.cons_append, List.cons_append, List.cons_append, List.cons_append, hgroup,
      ih acc₁ (consumed + 4) _ (by omega) (by
        rw [List.length_append]
        simp only [List.length_cons, List.length_nil]
        omega)]
    congr 1
    · simp only [List.length_cons]
      omega
    · rw [List.append_assoc]
      rfl

theorem decodeLoop_short (run : List UInt8) (hrun : ∀ c ∈ run, isAlphabet c = true)
    (src : List UInt8) (acc : UInt32) (consumed : ℕ) (dst : List UInt8)
    (hdst : dst.length ≤ dstLen) (hroom : dstLen < dst.length + run.length * 3 / 4) :
    (decodeLoop dstLen (run ++ src) acc 0 consumed dst).2 = .error .decodingFail := by
  match run with
  | [] =>
    simp only [List.length_nil] at hroom
    omega
  | [p] =>
    simp only [List.length_cons, List.length_nil] at hroom
    omega
  | p :: q :: run =>
    have hp := hrun p (by simp)
    have hq := hrun q (by simp)
    rw [List.cons_append, List.cons_append, decodeLoop_first hp]
    by_cases h₀ : dst.length < dstLen
    · rw [decodeLoop_next hq h₀ 6 (by omega)]
      match run with
      | [] =>
        simp only [List.length_cons, List.length_nil] at hroom
        omega
      | r :: run =>
        have hr := hrun r (by simp)
        rw [List.cons_append]
        by_cases h₁ : dst.length + 1 < dstLen
        · rw [decodeLoop_next hr (by simpa using h₁) 4 (by omega)]
          match run with
          | [] =>
            simp only [List.length_cons, List.length_nil] at hroom
            omega
          | s :: run =>
            have hs := hrun s (by simp)
            rw [List.cons_append]
            by_cases h₂ : dst.length + 2 < dstLen
            · rw [decodeLoop_next hs (by simpa using h₂) 2 (by omega)]
              refine decodeLoop_short run (fun c hc => hrun c (by simp [hc])) src _ _ _ ?_ ?_
              · simp only [List.length_append, List.length_singleton]
                omega
              · simp only [List.length_append, List.length_cons, List.length_nil] at hroom ⊢
                omega
            · rw [decodeLoop_full hs (by simpa using h₂) 2 (by omega)]
        · rw [decodeLoop_full hr (by simpa using h₁) 4 (by omega)]
    · rw [decodeLoop_full hq (by omega) 6 (by omega)]

end Decode

/-- A selected implementation: the shortest inputs it is used for and the vector
prefix of each direction, with the number of source bytes it took. -/
structure Backend where
  minEncodeLen : ℕ
  minDecodeLen : ℕ
  encodePrefix : List UInt8 → List UInt8 × ℕ
  decodePrefix : ℕ → List UInt8 → List UInt8 × ℕ
  encode_groups : ∀ src, 3 ∣ (encodePrefix src).2 ∧ (encodePrefix src).2 ≤ src.length
  encode_text : ∀ src, (encodePrefix src).1 = text (src.take (encodePrefix src).2)
  decode_groups : ∀ dstLen src,
    4 ∣ (decodePrefix dstLen src).2 ∧ (decodePrefix dstLen src).2 ≤ src.length
  decode_text : ∀ dstLen src,
    text (decodePrefix dstLen src).1 = src.take (decodePrefix dstLen src).2
  decode_room : ∀ dstLen src, (decodePrefix dstLen src).1.length ≤ dstLen

def Backend.scalar : Backend where
  minEncodeLen := 16
  minDecodeLen := 16
  encodePrefix _ := ([], 0)
  decodePrefix _ _ := ([], 0)
  encode_groups _ := ⟨dvd_zero 3, Nat.zero_le _⟩
  encode_text _ := rfl
  decode_groups _ _ := ⟨dvd_zero 4, Nat.zero_le _⟩
  decode_text _ _ := rfl
  decode_room dstLen _ := Nat.zero_le dstLen

section Raw
variable (backend : Backend) (dstLen : ℕ) (src : List UInt8)

def toBase64Scalar : List UInt8 × Except Error ℕ :=
  if dstLen ≤ b64LenUsize src.length then ([], .error .encodingFail)
  else
    let dst := encodeLoop src 0 0
    (dst, .ok dst.length)

def toBase64WithBackend : List UInt8 × Except Error ℕ :=
  if dstLen ≤ b64LenUsize src.length then ([], .error .encodingFail)
  else
    let head := backend.encodePrefix src
    let dst := head.1 ++ encodeLoop (src.drop head.2) 0 0
    (dst, .ok dst.length)

def toBase64Raw : List UInt8 × Except Error ℕ :=
  if src.length < backend.minEncodeLen then toBase64Scalar dstLen src
  else toBase64WithBackend backend dstLen src

def fromBase64Scalar : List UInt8 × Except Error (ℕ × ℕ) := decodeLoop dstLen src 0 0 0 []

def fromBase64WithBackend : List UInt8 × Except Error (ℕ × ℕ) :=
  let head := backend.decodePrefix dstLen src
  decodeLoop dstLen (src.drop head.2) 0 0 head.2 head.1

def fromBase64Raw : List UInt8 × Except Error (ℕ × ℕ) :=
  if src.length < backend.minDecodeLen then fromBase64Scalar dstLen src
  else fromBase64WithBackend backend dstLen src

theorem text_append (xs ys : List UInt8) (h : 3 ∣ xs.length) :
    text (xs ++ ys) = text xs ++ text ys := by
  simp only [text, sextets_append xs ys h, List.map_append]

theorem toBase64Raw_eq :
    toBase64Raw backend dstLen src =
      if dstLen ≤ b64LenUsize src.length then ([], .error .encodingFail)
      else (text src, .ok (text src).length) := by
  have hhead : (backend.encodePrefix src).1 ++
      text (src.drop (backend.encodePrefix src).2) = text src := by
    obtain ⟨hdvd, hle⟩ := backend.encode_groups src
    rw [backend.encode_text, ← text_append, List.take_append_drop]
    rwa [List.length_take, Nat.min_eq_left hle]
  unfold toBase64Raw toBase64Scalar toBase64WithBackend
  simp only [encodeLoop_eq, hhead, ite_self]

/-- Whatever prefix a backend decodes, the loop that follows it ends where the
scalar loop ends, with the same bytes stored and the same result. -/
theorem fromBase64WithBackend_eq :
    fromBase64WithBackend backend dstLen src = fromBase64Scalar dstLen src := by
  obtain ⟨⟨k, hk⟩, hle⟩ := backend.decode_groups dstLen src
  have htext := backend.decode_text dstLen src
  have hroom := backend.decode_room dstLen src
  unfold fromBase64WithBackend fromBase64Scalar
  dsimp only
  generalize (backend.decodePrefix dstLen src).1 = bytes at htext hroom
  generalize (backend.decodePrefix dstLen src).2 = n at hk hle htext
  have hn : (text bytes).length = n := by rw [htext, List.length_take, Nat.min_eq_left hle]
  have hdvd : 3 ∣ bytes.length := by
    rw [text_length, b64LenUsize_eq, encodedLength] at hn
    omega
  have h := @decodeLoop_text dstLen bytes (src.drop n) 0 0 0 [] hdvd (by simpa using hroom)
  rw [htext, List.take_append_drop, List.length_take, Nat.min_eq_left hle, Nat.zero_add] at h
  exact h.symm

theorem fromBase64Raw_eq : fromBase64Raw backend dstLen src = fromBase64Scalar dstLen src := by
  unfold fromBase64Raw
  rw [fromBase64WithBackend_eq, ite_self]

variable {dstLen}

theorem fromBase64Raw_finishes (hroom : (src.takeWhile isAlphabet).length * 3 / 4 ≤ dstLen) :
    Finishes [] 0 (src.takeWhile isAlphabet).length (fromBase64Raw backend dstLen src)
      (octets ((src.takeWhile isAlphabet).map sextetOf)) := by
  have h := @decodeLoop_run dstLen (src.takeWhile isAlphabet) mem_run
    (src.dropWhile isAlphabet) (stops_dropWhile src) 0 0 [] (by simpa using hroom)
  rw [List.takeWhile_append_dropWhile] at h
  rwa [fromBase64Raw_eq]

theorem fromBase64Raw_short (hroom : dstLen < (src.takeWhile isAlphabet).length * 3 / 4) :
    (fromBase64Raw backend dstLen src).2 = .error .decodingFail := by
  have h := @decodeLoop_short dstLen (src.takeWhile isAlphabet) mem_run
    (src.dropWhile isAlphabet) 0 0 [] (Nat.zero_le dstLen) (by simpa using hroom)
  rw [List.takeWhile_append_dropWhile] at h
  rwa [fromBase64Raw_eq]

/-- A decode succeeds only on a maximal run that is the text of what it stores. -/
theorem fromBase64Raw_ok (r : ℕ × ℕ) (h : (fromBase64Raw backend dstLen src).2 = .ok r) :
    ∃ bytes, src.takeWhile isAlphabet = text bytes ∧ bytes.length ≤ dstLen ∧
      fromBase64Raw backend dstLen src = (bytes, .ok (bytes.length, (text bytes).length)) := by
  by_cases hroom : (src.takeWhile isAlphabet).length * 3 / 4 ≤ dstLen
  · have hf := fromBase64Raw_finishes backend src hroom
    cases ho : octets ((src.takeWhile isAlphabet).map sextetOf) with
    | none =>
      rw [ho] at hf
      rw [show (fromBase64Raw backend dstLen src).2 = .error .decodingFail from hf] at h
      cases h
    | some bytes =>
      rw [ho] at hf
      have htext := text_of_octets _ bytes mem_run ho
      have hlen := text_length bytes
      rw [b64LenUsize_eq, encodedLength] at hlen
      rw [← htext] at hroom
      refine ⟨bytes, htext.symm, by omega, ?_⟩
      rw [htext]
      simpa [Finishes] using hf
  · rw [fromBase64Raw_short backend src (by omega)] at h
    cases h

theorem fromBase64Raw_text (bytes rest : List UInt8) (hrest : Stops isAlphabet rest)
    (hroom : bytes.length ≤ dstLen) :
    fromBase64Raw backend dstLen (text bytes ++ rest) =
      (bytes, .ok (bytes.length, (text bytes).length)) := by
  have hlen := text_length bytes
  rw [b64LenUsize_eq, encodedLength] at hlen
  have h := @fromBase64Raw_finishes backend dstLen (text bytes ++ rest)
    (by rw [run_append (text_alphabet bytes) hrest]; omega)
  rw [run_append (text_alphabet bytes) hrest, octets_text] at h
  simpa [Finishes] using h

theorem run_length_le (src : List UInt8) : (src.takeWhile isAlphabet).length ≤ src.length :=
  (List.takeWhile_prefix isAlphabet).length_le

/-- A decode that has the room either reads a maximal run that is the text of what
it stores, or fails with `DecodingFail`. -/
theorem fromBase64Raw_cases (hroom : src.length * 3 / 4 ≤ dstLen) :
    (∃ bytes rest, src = text bytes ++ rest ∧ Stops isAlphabet rest ∧
      fromBase64Raw backend dstLen src = (bytes, .ok (bytes.length, (text bytes).length))) ∨
    (fromBase64Raw backend dstLen src).2 = .error .decodingFail := by
  have hle := run_length_le src
  have h := @fromBase64Raw_finishes backend dstLen src (by omega)
  cases ho : octets ((src.takeWhile isAlphabet).map sextetOf) with
  | none =>
    rw [ho] at h
    exact Or.inr h
  | some bytes =>
    rw [ho] at h
    have htext := text_of_octets _ bytes mem_run ho
    refine Or.inl ⟨bytes, src.dropWhile isAlphabet, ?_, stops_dropWhile src, ?_⟩
    · rw [htext, List.takeWhile_append_dropWhile]
    · rw [htext]
      simpa [Finishes] using h

end Raw

/-- What the codec takes from its platform: the width of `usize`, the selected
implementation, and an allocator that may refuse a reservation of any size. -/
structure Host where
  width : PointerWidth
  backend : Backend
  alloc : ℕ → Bool

def isizeMax (w : PointerWidth) : ℕ := 2 ^ (w.bits - 1) - 1

def wrapUsize (w : PointerWidth) (n : ℕ) : ℕ := n % 2 ^ w.bits

def Host.Allocates (host : Host) : Prop := ∀ cap ≤ isizeMax host.width, host.alloc cap = true

def reserveVec (host : Host) (cap : ℕ) : Except Error Unit :=
  if cap = 0 then .ok ()
  else if cap ≤ isizeMax host.width ∧ host.alloc cap = true then .ok ()
  else .error .memoryAllocationError

def decodeBase64 (host : Host) (src : List UInt8) : Except Error (List UInt8) := do
  let cap := wrapUsize host.width (src.length * 3) / 4
  reserveVec host cap
  let buf := fromBase64Raw host.backend cap src
  let (written, consumed) ← buf.2
  if consumed ≠ src.length then .error .decodingFail else .ok (buf.1.take written)

section
variable (host : Host)

theorem reserveVec_ok (halloc : host.Allocates) (cap : ℕ) (h : cap ≤ isizeMax host.width) :
    reserveVec host cap = .ok () := by
  unfold reserveVec
  by_cases hz : cap = 0
  · exact if_pos hz
  · rw [if_neg hz, if_pos ⟨h, halloc cap h⟩]

theorem reserveVec_le (cap : ℕ) (h : reserveVec host cap = .ok ()) : cap ≤ isizeMax host.width := by
  unfold reserveVec at h
  by_cases hz : cap = 0
  · rw [hz]
    exact Nat.zero_le _
  · rw [if_neg hz] at h
    by_cases hc : cap ≤ isizeMax host.width ∧ host.alloc cap = true
    · exact hc.1
    · rw [if_neg hc] at h
      cases h

theorem reserveVec_error (cap : ℕ) (e : Error) (h : reserveVec host cap = .error e) :
    e = .memoryAllocationError := by
  unfold reserveVec at h
  split_ifs at h
  exact (Except.error.inj h).symm

/-- The wrapped capacity of `decode_base64` is short of a text exactly when it has wrapped. -/
theorem wrapped_quarters (n : ℕ) :
    n * 3 / 4 ≤ wrapUsize host.width (n * 3) / 4 ↔ n * 3 < 2 ^ host.width.bits := by
  have hpos : 4 ≤ 2 ^ host.width.bits := by cases host.width <;> simp [PointerWidth.bits]
  unfold wrapUsize
  constructor
  · intro h
    by_contra hge
    have hle := Nat.mod_add_div (n * 3) (2 ^ host.width.bits)
    have hq : 1 ≤ n * 3 / 2 ^ host.width.bits :=
      (Nat.one_le_div_iff (by omega)).mpr (not_lt.mp hge)
    have hmul := Nat.mul_le_mul_left (2 ^ host.width.bits) hq
    omega
  · intro h
    rw [Nat.mod_eq_of_lt h]

/-- `decode_base64` accepts the texts whose tripled length fits `usize`, and no other string. -/
theorem decodeBase64_ok_iff (s x : List UInt8) :
    decodeBase64 host s = .ok x ↔
      s = text x ∧ s.length * 3 < 2 ^ host.width.bits ∧
        reserveVec host (s.length * 3 / 4) = .ok () := by
  constructor
  · intro h
    unfold decodeBase64 at h
    dsimp only at h
    cases hres : reserveVec host (wrapUsize host.width (s.length * 3) / 4) with
    | error e =>
      rw [hres] at h
      cases h
    | ok u =>
      rw [hres, ok_bind] at h
      cases hr : (fromBase64Raw host.backend (wrapUsize host.width (s.length * 3) / 4) s).2 with
      | error e =>
        rw [hr] at h
        cases h
      | ok r =>
        obtain ⟨bytes, hrun, hroom, hraw⟩ := fromBase64Raw_ok host.backend s r hr
        rw [hraw, ok_bind] at h
        dsimp only at h
        by_cases hc : (text bytes).length = s.length
        · have hs : s = text bytes := by
            rw [← hrun]
            refine (List.IsPrefix.eq_of_length (List.takeWhile_prefix isAlphabet) ?_).symm
            rw [hrun, hc]
          rw [if_neg (not_not.mpr hc), List.take_length, Except.ok.injEq] at h
          subst h
          have hq := text_length_quarters bytes
          rw [← hs] at hq
          have hfits := (wrapped_quarters host s.length).mp (by omega)
          refine ⟨hs, hfits, ?_⟩
          rwa [wrapUsize, Nat.mod_eq_of_lt hfits] at hres
        · rw [if_pos hc] at h
          cases h
  · rintro ⟨rfl, hfits, hres⟩
    have hq := text_length_quarters x
    have hraw := @fromBase64Raw_text host.backend ((text x).length * 3 / 4) x [] stops_nil
      (by omega)
    rw [List.append_nil] at hraw
    unfold decodeBase64 wrapUsize
    simp only [Nat.mod_eq_of_lt hfits, hres, ok_bind, hraw]
    rw [if_neg (by simp), List.take_length]

theorem decodeBase64_text (halloc : host.Allocates) (bytes : List UInt8)
    (hfits : (text bytes).length * 3 < 2 ^ host.width.bits) :
    decodeBase64 host (text bytes) = .ok bytes := by
  have hbits : 2 ^ host.width.bits / 4 ≤ isizeMax host.width := by
    unfold isizeMax
    cases host.width <;> simp [PointerWidth.bits]
  exact (decodeBase64_ok_iff host _ _).mpr ⟨rfl, hfits, reserveVec_ok host halloc _ (by omega)⟩

theorem decodeBase64_ok (src bytes : List UInt8) (h : decodeBase64 host src = .ok bytes) :
    src = text bytes := ((decodeBase64_ok_iff host src bytes).mp h).1

end

end Argon2Rust.Base64
