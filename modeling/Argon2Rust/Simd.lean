import Mathlib.Tactic

set_option autoImplicit false

/-!
# Vector registers

A register is its 64-bit lanes, lane 0 the lowest. The integer instructions of
Intel's 128, 256 and 512-bit extensions are defined for every number of lanes;
the byte and doubleword shuffles read and write the bits they name. The lemmas
say what each lane of a result is.
-/
namespace Argon2Rust.Simd

abbrev Register (n : ℕ) := Vector UInt64 n

def ror (x : UInt64) (r : ℕ) : UInt64 := ⟨x.toBitVec.rotateRight r⟩

def byteOf (x : UInt64) (j : ℕ) : BitVec 8 := x.toBitVec.extractLsb' (8 * j) 8

def ofBytes (f : ℕ → BitVec 8) : UInt64 :=
  ⟨f 7 ++ f 6 ++ f 5 ++ f 4 ++ f 3 ++ f 2 ++ f 1 ++ f 0⟩

def dwordOf (x : UInt64) (j : ℕ) : BitVec 32 := x.toBitVec.extractLsb' (32 * j) 32

def ofDwords (f : ℕ → BitVec 32) : UInt64 := ⟨f 1 ++ f 0⟩

/-- Field `j` of an immediate that selects among four. -/
def select (imm j : ℕ) : ℕ := imm / 4 ^ j % 4

section Instructions
variable {n : ℕ}

def lane (x : Register n) (l : ℕ) : UInt64 := x[l]?.getD 0

def ofLanes (f : ℕ → UInt64) : Register n := Vector.ofFn fun l => f l.val

def byte (x : Register n) (k : ℕ) : BitVec 8 := byteOf (lane x (k / 8)) (k % 8)

def dword (x : Register n) (k : ℕ) : BitVec 32 := dwordOf (lane x (k / 2)) (k % 2)

def setzero : Register n := ofLanes fun _ => 0

def loaduBytes (bytes : List UInt8) : Register n :=
  ofLanes fun l => ofBytes fun j => (bytes.getD (8 * l + j) 0).toBitVec

def loaduWords (words : List UInt64) : Register n := ofLanes fun l => words.getD l 0

def xorSi (x y : Register n) : Register n := ofLanes fun l => lane x l ^^^ lane y l

def addEpi64 (x y : Register n) : Register n := ofLanes fun l => lane x l + lane y l

def mulEpu32 (x y : Register n) : Register n :=
  ofLanes fun l => (lane x l &&& 0xFFFFFFFF) * (lane y l &&& 0xFFFFFFFF)

def srliEpi64 (imm : ℕ) (x : Register n) : Register n :=
  ofLanes fun l => if imm > 63 then 0 else lane x l >>> UInt64.ofNat imm

def slliEpi64 (imm : ℕ) (x : Register n) : Register n :=
  ofLanes fun l => if imm > 63 then 0 else lane x l <<< UInt64.ofNat imm

def rorEpi64 (imm : ℕ) (x : Register n) : Register n := ofLanes fun l => ror (lane x l) imm

/-- Every 128-bit lane is shuffled on its own; a control byte with its top bit set clears. -/
def shuffleEpi8 (x control : Register n) : Register n :=
  ofLanes fun l => ofBytes fun j =>
    let t := byte control (8 * l + j)
    if t.msb then 0 else byte x (16 * (l / 2) + t.toNat % 16)

def shuffleEpi32 (imm : ℕ) (x : Register n) : Register n :=
  ofLanes fun l => ofDwords fun j => dword x (4 * (l / 2) + select imm (2 * (l % 2) + j))

def blendEpi32 (imm : ℕ) (x y : Register n) : Register n :=
  ofLanes fun l => ofDwords fun j =>
    if imm.testBit (2 * l + j) then dword y (2 * l + j) else dword x (2 * l + j)

/-- Within every 128-bit lane: `x` above `y`, shifted right by `imm` bytes. -/
def alignrEpi8 (imm : ℕ) (x y : Register n) : Register n :=
  ofLanes fun l => ofBytes fun j =>
    let k := 8 * (l % 2) + j + imm
    if k < 16 then byte y (16 * (l / 2) + k)
    else if k < 32 then byte x (16 * (l / 2) + (k - 16)) else 0

def unpackloEpi64 (x y : Register n) : Register n :=
  ofLanes fun l => if l % 2 = 0 then lane x (2 * (l / 2)) else lane y (2 * (l / 2))

def unpackhiEpi64 (x y : Register n) : Register n :=
  ofLanes fun l => if l % 2 = 0 then lane x (2 * (l / 2) + 1) else lane y (2 * (l / 2) + 1)

/-- Every 256-bit half is permuted on its own; a 256-bit register is one such half. -/
def permutexEpi64 (imm : ℕ) (x : Register n) : Register n :=
  ofLanes fun l => lane x (4 * (l / 4) + select imm (l % 4))

def permute4x64Epi64 (imm : ℕ) (x : Register 4) : Register 4 := permutexEpi64 imm x

/-- Two 128-bit lanes of `x`, then two of `y`. -/
def shuffleI64x2 (imm : ℕ) (x y : Register 8) : Register 8 :=
  ofLanes fun l =>
    lane (if l / 2 < 2 then x else y) (2 * select imm (l / 2) + l % 2)

def permutexvarEpi64 (index x : Register n) : Register n :=
  ofLanes fun l => lane x ((lane index l).toNat % n)

end Instructions

section Words

theorem ofBytes_getLsbD (f : ℕ → BitVec 8) (i : ℕ) (hi : i < 64) :
    (ofBytes f).toBitVec.getLsbD i = (f (i / 8)).getLsbD (i % 8) := by
  unfold ofBytes
  simp only [BitVec.getLsbD_append]
  rcases (by omega : i / 8 = 0 ∨ i / 8 = 1 ∨ i / 8 = 2 ∨ i / 8 = 3 ∨ i / 8 = 4 ∨ i / 8 = 5 ∨
      i / 8 = 6 ∨ i / 8 = 7) with h | h | h | h | h | h | h | h <;>
    rw [h] <;>
    simp (disch := omega) only [if_pos, if_neg] <;>
    exact congrArg _ (by omega)

theorem ofDwords_getLsbD (f : ℕ → BitVec 32) (i : ℕ) (hi : i < 64) :
    (ofDwords f).toBitVec.getLsbD i = (f (i / 32)).getLsbD (i % 32) := by
  unfold ofDwords
  simp only [BitVec.getLsbD_append]
  rcases (by omega : i / 32 = 0 ∨ i / 32 = 1) with h | h <;>
    rw [h] <;>
    simp (disch := omega) only [if_pos, if_neg] <;>
    exact congrArg _ (by omega)

theorem ror_getLsbD (x : UInt64) (r i : ℕ) (hr : r < 64) (hi : i < 64) :
    (ror x r).toBitVec.getLsbD i = x.toBitVec.getLsbD ((i + r) % 64) := by
  unfold ror
  rw [BitVec.getLsbD_rotateRight, Nat.mod_eq_of_lt hr]
  by_cases h : i < 64 - r
  · rw [decide_eq_true h, cond_true, Nat.mod_eq_of_lt (by omega), Nat.add_comm]
  · have hmod : (i + r) % 64 = i - (64 - r) := by omega
    rw [decide_eq_false h, cond_false, decide_eq_true hi, Bool.true_and, hmod]

theorem eq_of_getLsbD {x y : UInt64} (h : ∀ i < 64, x.toBitVec.getLsbD i = y.toBitVec.getLsbD i) :
    x = y := UInt64.toBitVec_inj.mp (BitVec.eq_of_getLsbD_eq h)

/-- Reading the bytes of a word `k` places further on rotates it. -/
theorem ofBytes_rotated (x : UInt64) (k : ℕ) (hk : k < 8) :
    ofBytes (fun j => byteOf x ((j + k) % 8)) = ror x (8 * k) := by
  apply eq_of_getLsbD
  intro i hi
  rw [ofBytes_getLsbD _ i hi, ror_getLsbD x _ i (by omega) hi]
  unfold byteOf
  rw [BitVec.getLsbD_extractLsb', decide_eq_true (by omega), Bool.true_and]
  exact congrArg _ (by omega)

theorem ofBytes_congr {f g : ℕ → BitVec 8} (h : ∀ j < 8, f j = g j) : ofBytes f = ofBytes g := by
  unfold ofBytes
  rw [h 0 (by decide), h 1 (by decide), h 2 (by decide), h 3 (by decide), h 4 (by decide),
    h 5 (by decide), h 6 (by decide), h 7 (by decide)]

theorem ofDwords_congr {f g : ℕ → BitVec 32} (h : ∀ j < 2, f j = g j) :
    ofDwords f = ofDwords g := by
  unfold ofDwords
  rw [h 0 (by decide), h 1 (by decide)]

theorem byteOf_ofBytes (f : ℕ → BitVec 8) (j : ℕ) (hj : j < 8) : byteOf (ofBytes f) j = f j := by
  unfold byteOf
  apply BitVec.eq_of_getLsbD_eq
  intro i hi
  rw [BitVec.getLsbD_extractLsb', decide_eq_true hi, Bool.true_and,
    ofBytes_getLsbD f _ (by omega)]
  rw [show (8 * j + i) / 8 = j by omega, show (8 * j + i) % 8 = i by omega]

theorem ofBytes_byteOf (x : UInt64) : ofBytes (byteOf x) = x := by
  apply eq_of_getLsbD
  intro i hi
  rw [ofBytes_getLsbD _ i hi]
  unfold byteOf
  rw [BitVec.getLsbD_extractLsb', decide_eq_true (by omega), Bool.true_and]
  exact congrArg _ (by omega)

theorem ofDwords_rotated (x : UInt64) (k : ℕ) (hk : k < 2) :
    ofDwords (fun j => dwordOf x ((j + k) % 2)) = ror x (32 * k) := by
  apply eq_of_getLsbD
  intro i hi
  rw [ofDwords_getLsbD _ i hi, ror_getLsbD x _ i (by omega) hi]
  unfold dwordOf
  rw [BitVec.getLsbD_extractLsb', decide_eq_true (by omega), Bool.true_and]
  exact congrArg _ (by omega)

theorem ofDwords_dwordOf (x : UInt64) : ofDwords (dwordOf x) = x := by
  apply eq_of_getLsbD
  intro i hi
  rw [ofDwords_getLsbD _ i hi]
  unfold dwordOf
  rw [BitVec.getLsbD_extractLsb', decide_eq_true (by omega), Bool.true_and]
  exact congrArg _ (by omega)

/-- Two shifts whose results do not overlap make a rotation. -/
theorem shifts_eq_ror (x : UInt64) (r : ℕ) (hr : 0 < r) (hr' : r < 64) :
    (x >>> UInt64.ofNat r) ^^^ (x <<< UInt64.ofNat (64 - r)) = ror x r := by
  have hright : (UInt64.ofNat r).toBitVec.toNat % 64 = r := by
    change (UInt64.ofNat r).toNat % 64 = r
    rw [UInt64.toNat_ofNat_of_lt' (hr'.trans (by decide))]
    omega
  have hleft : (UInt64.ofNat (64 - r)).toBitVec.toNat % 64 = 64 - r := by
    change (UInt64.ofNat (64 - r)).toNat % 64 = 64 - r
    rw [UInt64.toNat_ofNat_of_lt' (lt_of_le_of_lt (Nat.sub_le 64 r) (by decide))]
    omega
  apply eq_of_getLsbD
  intro i hi
  rw [ror_getLsbD x r i hr' hi, UInt64.toBitVec_xor, UInt64.toBitVec_shiftRight,
    UInt64.toBitVec_shiftLeft, BitVec.getLsbD_xor, BitVec.ushiftRight_eq', BitVec.shiftLeft_eq',
    BitVec.getLsbD_ushiftRight, BitVec.getLsbD_shiftLeft]
  change (x.toBitVec.getLsbD ((UInt64.ofNat r).toBitVec.toNat % 64 + i) ^^
    (decide (i < 64) && !decide (i < (UInt64.ofNat (64 - r)).toBitVec.toNat % 64) &&
      x.toBitVec.getLsbD (i - (UInt64.ofNat (64 - r)).toBitVec.toNat % 64))) = _
  rw [hright, hleft, decide_eq_true hi, Bool.true_and]
  by_cases h : i < 64 - r
  · rw [decide_eq_true h, Nat.mod_eq_of_lt (by omega : i + r < 64), Nat.add_comm, Bool.not_true,
      Bool.false_and, Bool.xor_false]
  · have hmod : (i + r) % 64 = i - (64 - r) := by omega
    rw [decide_eq_false h, hmod, BitVec.getLsbD_of_ge _ _ (by omega), Bool.not_false, Bool.true_and,
      Bool.false_xor]

theorem double_eq_shift (x : UInt64) : x + x = x <<< 1 := by
  apply UInt64.toNat_inj.mp
  rw [UInt64.toNat_add, UInt64.toNat_shiftLeft]
  change _ = x.toNat <<< 1 % 2 ^ 64
  rw [Nat.shiftLeft_eq, pow_one, Nat.mul_two]

end Words

section Lanes
variable {n : ℕ}

@[simp] theorem lane_ofLanes (f : ℕ → UInt64) {l : ℕ} (h : l < n) :
    lane (ofLanes f : Register n) l = f l := by
  unfold lane ofLanes
  rw [Vector.getElem?_ofFn, dif_pos h, Option.getD_some]

theorem lane_eq (x : Register n) {l : ℕ} (h : l < n) : lane x l = x[l] := by
  unfold lane
  rw [Vector.getElem?_eq_getElem h, Option.getD_some]

theorem byte_lane (x : Register n) (l j : ℕ) (hj : j < 8) :
    byte x (8 * l + j) = byteOf (lane x l) j := by
  unfold byte
  rw [show (8 * l + j) / 8 = l by omega, show (8 * l + j) % 8 = j by omega]

theorem dword_lane (x : Register n) (l j : ℕ) (hj : j < 2) :
    dword x (2 * l + j) = dwordOf (lane x l) j := by
  unfold dword
  rw [show (2 * l + j) / 2 = l by omega, show (2 * l + j) % 2 = j by omega]

theorem lane_shuffleEpi8 (x : Register n) (bytes : List UInt8) (k : ℕ) (hk : k < 8) {l : ℕ}
    (h : l < n)
    (htable : ∀ j < 8, bytes.getD (8 * l + j) 0 = UInt8.ofNat (8 * (l % 2) + (j + k) % 8)) :
    lane (shuffleEpi8 x (loaduBytes bytes)) l = ror (lane x l) (8 * k) := by
  unfold shuffleEpi8
  rw [lane_ofLanes _ h, ← ofBytes_rotated (lane x l) k hk]
  apply ofBytes_congr
  intro j hj
  have hcontrol : byte (loaduBytes bytes : Register n) (8 * l + j) =
      (UInt8.ofNat (8 * (l % 2) + (j + k) % 8)).toBitVec := by
    unfold loaduBytes
    rw [byte_lane _ l j hj, lane_ofLanes _ h, byteOf_ofBytes _ j hj, htable j hj]
  have hsmall : 8 * (l % 2) + (j + k) % 8 < 16 := by omega
  have hnat : (UInt8.ofNat (8 * (l % 2) + (j + k) % 8)).toBitVec.toNat =
      8 * (l % 2) + (j + k) % 8 := by
    change (UInt8.ofNat (8 * (l % 2) + (j + k) % 8)).toNat = _
    exact UInt8.toNat_ofNat_of_lt' (hsmall.trans (by decide))
  have hmsb : (UInt8.ofNat (8 * (l % 2) + (j + k) % 8)).toBitVec.msb = false := by
    rw [BitVec.msb_eq_false_iff_two_mul_lt, hnat]
    omega
  dsimp only
  rw [hcontrol, hmsb, if_neg Bool.false_ne_true, hnat, Nat.mod_eq_of_lt hsmall,
    show 16 * (l / 2) + (8 * (l % 2) + (j + k) % 8) = 8 * l + (j + k) % 8 by omega,
    byte_lane x l _ (Nat.mod_lt _ (by decide))]

/-- Swapping the halves of every 64-bit lane rotates it by 32. -/
theorem lane_shuffleEpi32 (x : Register n) {l : ℕ} (h : l < n) :
    lane (shuffleEpi32 0b10110001 x) l = ror (lane x l) 32 := by
  unfold shuffleEpi32
  rw [lane_ofLanes _ h]
  refine Eq.trans ?_ (ofDwords_rotated (lane x l) 1 (by decide))
  apply ofDwords_congr
  intro j hj
  have hselect : select 0b10110001 (2 * (l % 2) + j) = 2 * (l % 2) + (j + 1) % 2 := by
    rcases (by omega : (l % 2 = 0 ∧ j = 0) ∨ (l % 2 = 0 ∧ j = 1) ∨ (l % 2 = 1 ∧ j = 0) ∨
      (l % 2 = 1 ∧ j = 1)) with ⟨hl, rfl⟩ | ⟨hl, rfl⟩ | ⟨hl, rfl⟩ | ⟨hl, rfl⟩ <;>
      rw [hl] <;> decide
  rw [hselect, show 4 * (l / 2) + (2 * (l % 2) + (j + 1) % 2) = 2 * l + (j + 1) % 2 by omega,
    dword_lane x l _ (Nat.mod_lt _ (by decide))]

/-- A blend whose mask agrees on both halves of a lane takes the lane whole. -/
theorem lane_blendEpi32 (imm : ℕ) (x y : Register n) {l : ℕ} (h : l < n)
    (hmask : imm.testBit (2 * l + 1) = imm.testBit (2 * l)) :
    lane (blendEpi32 imm x y) l = if imm.testBit (2 * l) then lane y l else lane x l := by
  have hbit : ∀ j < 2, imm.testBit (2 * l + j) = imm.testBit (2 * l) := by
    intro j hj
    rcases (by omega : j = 0 ∨ j = 1) with rfl | rfl
    · rfl
    · exact hmask
  unfold blendEpi32
  rw [lane_ofLanes _ h]
  by_cases htest : imm.testBit (2 * l) = true
  · rw [if_pos htest, ← ofDwords_dwordOf (lane y l)]
    apply ofDwords_congr
    intro j hj
    rw [hbit j hj, if_pos htest, dword_lane y l j hj]
  · rw [if_neg htest, ← ofDwords_dwordOf (lane x l)]
    apply ofDwords_congr
    intro j hj
    rw [hbit j hj, if_neg htest, dword_lane x l j hj]

theorem lane_alignrEpi8 (x y : Register n) {l : ℕ} (h : l < n) :
    lane (alignrEpi8 8 x y) l = if l % 2 = 0 then lane y (l + 1) else lane x (l - 1) := by
  unfold alignrEpi8
  rw [lane_ofLanes _ h]
  dsimp only
  by_cases hl : l % 2 = 0
  · rw [if_pos hl, ← ofBytes_byteOf (lane y (l + 1))]
    apply ofBytes_congr
    intro j hj
    rw [if_pos (by omega), show 16 * (l / 2) + (8 * (l % 2) + j + 8) = 8 * (l + 1) + j by omega,
      byte_lane y (l + 1) j hj]
  · rw [if_neg hl, ← ofBytes_byteOf (lane x (l - 1))]
    apply ofBytes_congr
    intro j hj
    rw [if_neg (by omega), if_pos (by omega),
      show 16 * (l / 2) + (8 * (l % 2) + j + 8 - 16) = 8 * (l - 1) + j by omega,
      byte_lane x (l - 1) j hj]

theorem lane_shifts (x : Register n) (r : ℕ) (hr : 0 < r) (hr' : r < 64) {l : ℕ} (h : l < n) :
    lane (xorSi (srliEpi64 r x) (slliEpi64 (64 - r) x)) l = ror (lane x l) r := by
  unfold xorSi srliEpi64 slliEpi64
  rw [lane_ofLanes _ h, lane_ofLanes _ h, lane_ofLanes _ h, if_neg (by omega), if_neg (by omega),
    shifts_eq_ror (lane x l) r hr hr']

theorem lane_shiftDouble (x : Register n) {l : ℕ} (h : l < n) :
    lane (xorSi (srliEpi64 63 x) (addEpi64 x x)) l = ror (lane x l) 63 := by
  unfold xorSi srliEpi64 addEpi64
  rw [lane_ofLanes _ h, lane_ofLanes _ h, lane_ofLanes _ h, if_neg (by decide), double_eq_shift]
  exact shifts_eq_ror (lane x l) 63 (by decide) (by decide)

end Lanes

end Argon2Rust.Simd
