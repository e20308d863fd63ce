import Argon2Rust.Base64Codec
import Argon2Rust.Decoding

set_option autoImplicit false

namespace Argon2Rust.Capacity
open Parameters Sextets Base64 Base64Codec Cursor Encoding Decoding

def fits (w : PointerWidth) (n : ℕ) : Option ℕ := if n < 2 ^ w.bits then some n else none

def addUsize (w : PointerWidth) (x y : ℕ) : Option ℕ := fits w (x + y)
def mulUsize (w : PointerWidth) (x y : ℕ) : Option ℕ := fits w (x * y)

section
variable (w : PointerWidth)

/-- `b64_len_usize`, failing where its shift would lose a bit or its sum would wrap. -/
def b64LenChecked (len : ℕ) : Option ℕ := do
  let olen ← mulUsize w (len / 3) 4
  if len % 3 = 2 then addUsize w olen 3
  else if len % 3 = 1 then addUsize w olen 2
  else some olen

def encodeCapacity (len : ℕ) : Option ℕ := do
  let olen ← b64LenChecked w len
  addUsize w olen 1

def decodeCapacity (len : ℕ) : Option ℕ := do
  let tripled ← mulUsize w len 3
  some (tripled / 4)

def binCapacity (len : ℕ) : Option ℕ := do
  let whole ← mulUsize w (len / 4) 3
  addUsize w whole 3

def stringCapacity (algorithm : Algorithm) (tCost mCost lanes : UInt32) (saltLen hashLen : ℕ) :
    Option ℕ := do
  let n ← addUsize w (ascii "$$v=$m=,t=,p=$$").length (asStr algorithm).length
  let n ← addUsize w n (numLen tCost)
  let n ← addUsize w n (numLen mCost)
  let n ← addUsize w n (numLen lanes)
  let salt ← b64LenChecked w saltLen
  let n ← addUsize w n salt
  let hash ← b64LenChecked w hashLen
  let n ← addUsize w n hash
  let n ← addUsize w n (numLen Version.v0x13.asU32)
  addUsize w n 1

theorem fits_eq_some (n k : ℕ) : fits w n = some k ↔ n < 2 ^ w.bits ∧ n = k := by
  unfold fits
  split_ifs with h
  · simp [h]
  · simp [h]

theorem b64LenChecked_eq_some (len k : ℕ) :
    b64LenChecked w len = some k ↔ b64LenUsize len < 2 ^ w.bits ∧ b64LenUsize len = k := by
  unfold b64LenChecked addUsize mulUsize b64LenUsize
  simp only [Option.bind_eq_bind, Option.bind_eq_some_iff, fits_eq_some]
  split_ifs with h₂ h₁
  · simp only [fits_eq_some]
    constructor
    · rintro ⟨n, ⟨-, rfl⟩, h⟩
      exact h
    · exact fun h => ⟨_, ⟨by omega, rfl⟩, h⟩
  · simp only [fits_eq_some]
    constructor
    · rintro ⟨n, ⟨-, rfl⟩, h⟩
      exact h
    · exact fun h => ⟨_, ⟨by omega, rfl⟩, h⟩
  · simp

theorem encodeCapacity_eq_some (len k : ℕ) :
    encodeCapacity w len = some k ↔ b64LenUsize len + 1 < 2 ^ w.bits ∧ b64LenUsize len + 1 = k := by
  unfold encodeCapacity addUsize
  simp only [Option.bind_eq_bind, Option.bind_eq_some_iff, b64LenChecked_eq_some, fits_eq_some]
  constructor
  · rintro ⟨n, ⟨-, rfl⟩, h⟩
    exact h
  · exact fun h => ⟨_, ⟨by omega, rfl⟩, h⟩

theorem decodeCapacity_eq_some (len k : ℕ) :
    decodeCapacity w len = some k ↔ len * 3 < 2 ^ w.bits ∧ len * 3 / 4 = k := by
  unfold decodeCapacity mulUsize
  simp only [Option.bind_eq_bind, Option.bind_eq_some_iff, fits_eq_some, Option.some.injEq]
  constructor
  · rintro ⟨n, ⟨h, rfl⟩, hk⟩
    exact ⟨h, hk⟩
  · exact fun h => ⟨_, ⟨h.1, rfl⟩, h.2⟩

theorem binCapacity_eq_some (len k : ℕ) :
    binCapacity w len = some k ↔ len / 4 * 3 + 3 < 2 ^ w.bits ∧ len / 4 * 3 + 3 = k := by
  unfold binCapacity addUsize mulUsize
  simp only [Option.bind_eq_bind, Option.bind_eq_some_iff, fits_eq_some]
  constructor
  · rintro ⟨n, ⟨-, rfl⟩, h⟩
    exact h
  · exact fun h => ⟨_, ⟨by omega, rfl⟩, h⟩

theorem stringCapacity_eq_some (algorithm : Algorithm) (tCost mCost lanes : UInt32)
    (saltLen hashLen k : ℕ) :
    stringCapacity w algorithm tCost mCost lanes saltLen hashLen = some k ↔
      encodedLen algorithm tCost mCost lanes saltLen hashLen < 2 ^ w.bits ∧
        encodedLen algorithm tCost mCost lanes saltLen hashLen = k := by
  unfold stringCapacity encodedLen addUsize
  simp only [Option.bind_eq_bind, Option.bind_eq_some_iff, b64LenChecked_eq_some, fits_eq_some]
  constructor
  · rintro ⟨_, ⟨-, rfl⟩, _, ⟨-, rfl⟩, _, ⟨-, rfl⟩, _, ⟨-, rfl⟩, _, ⟨-, rfl⟩, _, ⟨-, rfl⟩,
      _, ⟨-, rfl⟩, _, ⟨-, rfl⟩, _, ⟨-, rfl⟩, h⟩
    exact h
  · rintro h
    exact ⟨_, ⟨by omega, rfl⟩, _, ⟨by omega, rfl⟩, _, ⟨by omega, rfl⟩, _, ⟨by omega, rfl⟩,
      _, ⟨by omega, rfl⟩, _, ⟨by omega, rfl⟩, _, ⟨by omega, rfl⟩, _, ⟨by omega, rfl⟩,
      _, ⟨by omega, rfl⟩, h⟩

/-- The checked computation succeeds with the capacity the code uses, and an operation
that is given more room than that has the same result. -/
def Ample {α : Type} (checked : Option ℕ) (cap : ℕ) (result : ℕ → α) : Prop :=
  checked = some cap ∧ ∀ room, cap ≤ room → result room = result cap

theorem fromBase64Raw_room (backend : Backend) (src : List UInt8) (dstLen room : ℕ)
    (h : src.length * 3 / 4 ≤ dstLen) (hroom : dstLen ≤ room) :
    (fromBase64Raw backend room src).2 = (fromBase64Raw backend dstLen src).2 := by
  have hle := run_length_le src
  have h₁ := @fromBase64Raw_finishes backend dstLen src (by omega)
  have h₂ := @fromBase64Raw_finishes backend room src (by omega)
  cases ho : octets ((src.takeWhile isAlphabet).map sextetOf) with
  | none =>
    rw [ho] at h₁ h₂
    exact h₂.trans h₁.symm
  | some bytes =>
    rw [ho] at h₁ h₂
    exact (congrArg Prod.snd h₂).trans (congrArg Prod.snd h₁).symm

theorem toBase64Raw_room (backend : Backend) (src : List UInt8) (dstLen room : ℕ)
    (h : b64LenUsize src.length < dstLen) (hroom : dstLen ≤ room) :
    toBase64Raw backend room src = toBase64Raw backend dstLen src := by
  rw [toBase64Raw_eq, toBase64Raw_eq, if_neg (by omega), if_neg (by omega)]

theorem encodeStringRaw_room (algorithm : Algorithm) (version : Version) (params : Params w)
    (salt hash : List UInt8) (backend : Backend) (dstLen room : ℕ)
    (h : encodedLen algorithm params.passes params.memoryKib params.lanes salt.length hash.length ≤
      dstLen) (hroom : dstLen ≤ room) :
    (encodeStringRaw algorithm version params salt hash backend room).map Writer.dst =
      (encodeStringRaw algorithm version params salt hash backend dstLen).map Writer.dst := by
  rw [encodedLen_eq algorithm version params salt hash] at h
  rw [encodeStringRaw_eq, encodeStringRaw_eq, put_of_fits _ _ (by omega), put_of_fits _ _ (by omega)]
  cases validateForString params salt.length hash.length <;> rfl

theorem b64LenUsize_isizeMax (len : ℕ) (h : len ≤ isizeMax w) :
    b64LenUsize len + 1 < 2 ^ w.bits := by
  rw [b64LenUsize_eq, encodedLength]
  unfold isizeMax at h
  cases w <;> simp only [PointerWidth.bits] at h ⊢ <;> omega

theorem bin_isizeMax (len : ℕ) (h : len ≤ isizeMax w) : len / 4 * 3 + 3 < 2 ^ w.bits := by
  unfold isizeMax at h
  cases w <;> simp only [PointerWidth.bits] at h ⊢ <;> omega

/-- What the code promises of its four capacities, at one call of each function. -/
structure CapacitiesSuffice (backend : Backend) (src tail : List UInt8) (algorithm : Algorithm)
    (version : Version) (params : Params w) (salt hash : List UInt8) : Prop where
  encode : Ample (encodeCapacity w src.length) (wrapUsize w (b64LenUsize src.length + 1))
    fun room => toBase64Raw backend room src
  decode : Ample (decodeCapacity w src.length) (wrapUsize w (src.length * 3) / 4)
    fun room => (fromBase64Raw backend room src).2
  bin : Ample (binCapacity w tail.length) (tail.length / 4 * 3 + 3)
    fun room => (fromBase64Raw backend room tail).2
  string : validateForString params salt.length hash.length = .ok () →
    Ample (stringCapacity w algorithm params.passes params.memoryKib params.lanes salt.length
        hash.length)
      (wrapUsize w (encodedLen algorithm params.passes params.memoryKib params.lanes salt.length
        hash.length))
      fun room => (encodeStringRaw algorithm version params salt hash backend room).map Writer.dst

theorem validateForString_ok_iff (params : Params w) (saltLen hashLen : ℕ) :
    validateForString params saltLen hashLen = .ok () ↔
      (8 ≤ saltLen ∧ saltLen ≤ 0xFFFFFFFF) ∧ 4 ≤ hashLen ∧ hashLen ≤ 0xFFFFFFFF := by
  unfold validateForString
  rw [validateInputs_ok_iff]
  constructor
  · rintro ⟨h, -⟩
    exact ⟨⟨h.salt_ge, h.salt_le⟩, h.out_ge, h.out_le⟩
  · rintro ⟨⟨hge, hle⟩, hout, hout'⟩
    exact ⟨⟨hout, hout', Nat.zero_le _, hge, hle, Nat.zero_le _, Nat.zero_le _⟩, params.costs⟩

/-- The capacities suffice exactly when three times the source is below the width of `usize`, and
so is, for a salt and a hash that the encoder accepts, the sum of their texts, the name, the
digits of the costs and 18. -/
theorem capacitiesSuffice_iff (backend : Backend) (src tail : List UInt8) (algorithm : Algorithm)
    (version : Version) (params : Params w) (salt hash : List UInt8)
    (hsrc : src.length ≤ isizeMax w) (htail : tail.length ≤ isizeMax w) :
    CapacitiesSuffice w backend src tail algorithm version params salt hash ↔
      src.length ≤ (2 ^ w.bits - 1) / 3 ∧
        ((8 ≤ salt.length ∧ salt.length ≤ 0xFFFFFFFF) ∧
            4 ≤ hash.length ∧ hash.length ≤ 0xFFFFFFFF →
          (4 * salt.length + 2) / 3 + (4 * hash.length + 2) / 3 + (asStr algorithm).length +
            digitCount params.mCost.toNat + digitCount params.tCost.toNat +
            digitCount params.lanes.toNat + 18 < 2 ^ w.bits) := by
  have hwidth : src.length ≤ (2 ^ w.bits - 1) / 3 ↔ src.length * 3 < 2 ^ w.bits := by
    cases w <;> simp only [PointerWidth.bits] <;> omega
  have hsum := encodedLen_eq_sum algorithm params.passes params.memoryKib params.lanes salt.length
    hash.length
  rw [hwidth, ← validateForString_ok_iff w params]
  change _ ↔ _ ∧ (_ → (4 * salt.length + 2) / 3 + (4 * hash.length + 2) / 3 +
    (asStr algorithm).length + digitCount params.memoryKib.toNat +
    digitCount params.passes.toNat + digitCount params.lanes.toNat + 18 < 2 ^ w.bits)
  rw [← hsum]
  constructor
  · intro h
    refine ⟨((decodeCapacity_eq_some w _ _).mp h.decode.1).1, fun hvalid => ?_⟩
    exact ((stringCapacity_eq_some w _ _ _ _ _ _ _).mp (h.string hvalid).1).1
  · rintro ⟨hdecode, hstring⟩
    have hencode := b64LenUsize_isizeMax w src.length hsrc
    refine ⟨?_, ?_, ?_, fun hvalid => ?_⟩
    · have hwrap : wrapUsize w (b64LenUsize src.length + 1) = b64LenUsize src.length + 1 :=
        Nat.mod_eq_of_lt hencode
      rw [hwrap]
      refine ⟨(encodeCapacity_eq_some w _ _).mpr ⟨hencode, rfl⟩, fun room hroom => ?_⟩
      exact toBase64Raw_room backend src _ room (by omega) hroom
    · have hwrap : wrapUsize w (src.length * 3) = src.length * 3 := Nat.mod_eq_of_lt hdecode
      rw [hwrap]
      refine ⟨(decodeCapacity_eq_some w _ _).mpr ⟨hdecode, rfl⟩, fun room hroom => ?_⟩
      exact fromBase64Raw_room backend src _ room le_rfl hroom
    · refine ⟨(binCapacity_eq_some w _ _).mpr ⟨bin_isizeMax w _ htail, rfl⟩, fun room hroom => ?_⟩
      exact fromBase64Raw_room backend tail _ room (by omega) hroom
    · have hfits := hstring hvalid
      have hwrap : wrapUsize w (encodedLen algorithm params.passes params.memoryKib params.lanes
          salt.length hash.length) = encodedLen algorithm params.passes params.memoryKib
            params.lanes salt.length hash.length := Nat.mod_eq_of_lt hfits
      rw [hwrap]
      refine ⟨(stringCapacity_eq_some w _ _ _ _ _ _ _).mpr ⟨hfits, rfl⟩, fun room hroom => ?_⟩
      exact encodeStringRaw_room w algorithm version params salt hash backend _ room le_rfl hroom

end

def smallParams : Params .bits32 := ⟨8, 1, 1, 1, 4, by decide⟩

/-- On 32 bits, with the longest tail and the longest salt there can be: the longest source that
decodes, one that is a byte longer, and a hash as long as the salt. -/
theorem capacitiesSuffice_iff_longest :
    validateForString smallParams 2147483647 4 = .ok () ∧
      CapacitiesSuffice .bits32 .scalar (List.replicate 1431655765 65)
        (List.replicate 2147483647 65) .argon2id .v0x13 smallParams (List.replicate 2147483647 1)
        (List.replicate 4 1) ∧
      ¬ CapacitiesSuffice .bits32 .scalar (List.replicate 1431655766 65)
        (List.replicate 2147483647 65) .argon2id .v0x13 smallParams (List.replicate 2147483647 1)
        (List.replicate 4 1) ∧
      ¬ CapacitiesSuffice .bits32 .scalar (List.replicate 1431655765 65)
        (List.replicate 2147483647 65) .argon2id .v0x13 smallParams (List.replicate 2147483647 1)
        (List.replicate 2147483647 1) := by
  have hbound : ∀ n ≤ 2147483647, (List.replicate n (65 : UInt8)).length ≤ isizeMax .bits32 := by
    intro n hn
    rw [List.length_replicate]
    exact hn
  have hname : (asStr .argon2id).length = 8 := rfl
  have hm : digitCount smallParams.mCost.toNat = 1 := by decide
  have ht : digitCount smallParams.tCost.toNat = 1 := by decide
  have hl : digitCount smallParams.lanes.toNat = 1 := by decide
  refine ⟨(validateForString_ok_iff _ _ _ _).mpr (by decide), ?_, ?_, ?_⟩
  · refine (capacitiesSuffice_iff .bits32 .scalar _ _ .argon2id .v0x13 smallParams _ _
      (hbound 1431655765 (by decide)) (hbound 2147483647 le_rfl)).mpr ?_
    rw [List.length_replicate, List.length_replicate, List.length_replicate, hname, hm, ht, hl]
    decide
  · intro h
    have hiff := ((capacitiesSuffice_iff .bits32 .scalar _ _ .argon2id .v0x13 smallParams _ _
      (hbound 1431655766 (by decide)) (hbound 2147483647 le_rfl)).mp h).1
    rw [List.length_replicate] at hiff
    exact absurd hiff (by decide)
  · intro h
    have hiff := ((capacitiesSuffice_iff .bits32 .scalar _ _ .argon2id .v0x13 smallParams _ _
      (hbound 1431655765 (by decide)) (hbound 2147483647 le_rfl)).mp h).2
    rw [List.length_replicate, hname, hm, ht, hl] at hiff
    exact absurd (hiff (by decide)) (by decide)

theorem zeros_text (n : ℕ) : text (List.replicate (3 * n) 0) = List.replicate (4 * n) 65 := by
  induction n with
  | zero => rfl
  | succ n ih =>
    have h₃ : List.replicate (3 * (n + 1)) (0 : UInt8) =
        0 :: 0 :: 0 :: List.replicate (3 * n) 0 := rfl
    have h₄ : List.replicate (4 * (n + 1)) (65 : UInt8) =
        65 :: 65 :: 65 :: 65 :: List.replicate (4 * n) 65 := rfl
    have h : charOf 0 = 65 := by decide
    rw [h₃, h₄, text_group, ih, UInt8.toNat_zero]
    simp only [Nat.zero_div, Nat.zero_mod, Nat.zero_mul, Nat.add_zero, h]

/-- On 32 bits, 1431655768 characters `A` are the text of 1073741826 zero bytes, and the
capacity to decode them wraps to two bytes. -/
theorem capacities_overflow :
    ¬ (∀ (w : PointerWidth) (backend : Backend) (src tail : List UInt8) (algorithm : Algorithm)
        (version : Version) (params : Params w) (salt hash : List UInt8),
        src.length ≤ isizeMax w → tail.length ≤ isizeMax w → salt.length ≤ isizeMax w →
          hash.length ≤ isizeMax w →
            CapacitiesSuffice w backend src tail algorithm version params salt hash) ∧
      ∀ bytes, decodeBase64 ⟨.bits32, .scalar, fun _ => true⟩
        (text (List.replicate (3 * 357913942) 0)) ≠ .ok bytes := by
  have hlen : (text (List.replicate (3 * 357913942) 0)).length = 4 * 357913942 := by
    rw [zeros_text, List.length_replicate]
  have hwrap : ¬ (text (List.replicate (3 * 357913942) 0)).length * 3 < 2 ^ PointerWidth.bits32.bits := by
    rw [hlen, PointerWidth.bits]
    omega
  refine ⟨fun h => ?_, fun bytes h => ?_⟩
  · have hc := h .bits32 .scalar (text (List.replicate (3 * 357913942) 0)) [] .argon2id .v0x13
      smallParams [] [] (by rw [hlen, isizeMax, PointerWidth.bits]; omega) (Nat.zero_le _)
      (Nat.zero_le _) (Nat.zero_le _)
    exact hwrap ((decodeCapacity_eq_some _ _ _).mp hc.decode.1).1
  · exact hwrap ((decodeBase64_ok_iff _ _ _).mp h).2.1

end Argon2Rust.Capacity
