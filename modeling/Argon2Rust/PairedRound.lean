import Argon2Rust.RegisterTurns

set_option autoImplicit false

namespace Argon2Rust.PairedRound
open Bytes Compression Simd LaneRounds RoundCells RegisterBlock RegisterTurns

def extend (x : BitVec 32) : UInt64 := ⟨x.setWidth 64⟩

/-- The even doublewords of `x`, then those of `y`. -/
def evenDwords (x y : Register 2) : Register 2 :=
  ofLanes fun l => ofDwords fun j =>
    if 2 * l + j < 2 then dword x (2 * (2 * l + j)) else dword y (2 * (2 * l + j - 2))

def mulLow (x y : Register 2) : Register 2 :=
  ofLanes fun l => extend (dword x l) * extend (dword y l)

def mulHigh (x y : Register 2) : Register 2 :=
  ofLanes fun l => extend (dword x (2 + l)) * extend (dword y (2 + l))

def muladd (x y : Register 2) : Register 2 :=
  let z := mulEpu32 x y
  addEpi64 (addEpi64 x y) (addEpi64 z z)

section Words

theorem ext_lanes {n : ℕ} {x y : Register n} (h : ∀ l < n, lane x l = lane y l) : x = y := by
  apply Vector.ext
  intro l hl
  rw [← lane_eq x hl, ← lane_eq y hl, h l hl]

theorem extend_low (x : UInt64) : extend (dwordOf x 0) = x &&& 0xFFFFFFFF := by
  apply eq_of_getLsbD
  intro i hi
  have hmask : (0xFFFFFFFF : UInt64).toBitVec.getLsbD i = decide (i < 32) := by
    revert i
    decide
  unfold extend dwordOf
  rw [UInt64.toBitVec_and, BitVec.getLsbD_and, hmask, BitVec.getLsbD_setWidth,
    BitVec.getLsbD_extractLsb', decide_eq_true hi, Bool.true_and, Nat.mul_zero, Nat.zero_add,
    Bool.and_comm]

theorem dwordOf_ofDwords (f : ℕ → BitVec 32) (j : ℕ) (hj : j < 2) :
    dwordOf (ofDwords f) j = f j := by
  unfold dwordOf
  apply BitVec.eq_of_getLsbD_eq
  intro i hi
  rw [BitVec.getLsbD_extractLsb', decide_eq_true hi, Bool.true_and,
    ofDwords_getLsbD f _ (by omega)]
  rw [show (32 * j + i) / 32 = j by omega, show (32 * j + i) % 32 = i by omega]

theorem dword_ofLanes {n : ℕ} (f : ℕ → ℕ → BitVec 32) (k : ℕ) (hk : k < 2 * n) :
    dword (ofLanes fun l => ofDwords fun j => f l j : Register n) k = f (k / 2) (k % 2) := by
  unfold dword
  rw [lane_ofLanes _ (by omega), dwordOf_ofDwords _ _ (Nat.mod_lt _ (by decide))]

theorem extend_even (x : Register 2) (l : ℕ) :
    extend (dword x (2 * l)) = lane x l &&& 0xFFFFFFFF := by
  rw [← extend_low, ← Nat.add_zero (2 * l), dword_lane x l 0 (by decide)]

end Words

section Multiply
variable (x0 y0 x1 y1 : Register 2)

theorem dword_evenDwords (k : ℕ) (hk : k < 4) :
    dword (evenDwords x0 x1) k = if k < 2 then dword x0 (2 * k) else dword x1 (2 * (k - 2)) := by
  unfold evenDwords
  rw [dword_ofLanes _ k hk, Nat.div_add_mod]

theorem mulLow_evenDwords : mulLow (evenDwords x0 x1) (evenDwords y0 y1) = mulEpu32 x0 y0 := by
  apply ext_lanes
  intro l hl
  unfold mulLow mulEpu32
  rw [lane_ofLanes _ hl, lane_ofLanes _ hl, dword_evenDwords x0 x1 l (by omega),
    dword_evenDwords y0 y1 l (by omega), if_pos hl, if_pos hl, extend_even, extend_even]

theorem mulHigh_evenDwords : mulHigh (evenDwords x0 x1) (evenDwords y0 y1) = mulEpu32 x1 y1 := by
  apply ext_lanes
  intro l hl
  unfold mulHigh mulEpu32
  rw [lane_ofLanes _ hl, lane_ofLanes _ hl, dword_evenDwords x0 x1 _ (by omega),
    dword_evenDwords y0 y1 _ (by omega), if_neg (by omega), if_neg (by omega),
    Nat.add_sub_cancel_left, extend_even, extend_even]

theorem lane_muladd (x y : Register 2) (l : ℕ) (hl : l < 2) :
    lane (muladd x y) l = fBlamka (lane x l) (lane y l) := by
  unfold muladd fBlamka addEpi64 mulEpu32
  simp only [lane_ofLanes _ hl]
  exact (muladd_eq _ _ _).1

end Multiply

/-- Half of the vector `G` with one multiply for both register sets. -/
def pairedHalf (muladd2 : Register 2 → Register 2 → Register 2 → Register 2 → Register 2 × Register 2)
    (rotD rotB : Register 2 → Register 2) (o : Octet (Register 2)) : Octet (Register 2) :=
  let a := muladd2 o.a0 o.b0 o.a1 o.b1
  let d0 := rotD (xorSi o.d0 a.1)
  let d1 := rotD (xorSi o.d1 a.2)
  let c := muladd2 o.c0 d0 o.c1 d1
  let b0 := rotB (xorSi o.b0 c.1)
  let b1 := rotB (xorSi o.b1 c.2)
  ⟨a.1, a.2, b0, b1, c.1, c.2, d0, d1⟩

theorem pairedHalf_eq
    {muladd2 : Register 2 → Register 2 → Register 2 → Register 2 → Register 2 × Register 2}
    (h : ∀ x0 y0 x1 y1, muladd2 x0 y0 x1 y1 = (muladd x0 y0, muladd x1 y1))
    (rotD rotB : Register 2 → Register 2) :
    pairedHalf muladd2 rotD rotB = halfRound muladd rotD rotB := by
  funext o
  unfold pairedHalf
  simp only [h]
  rfl

/-- A half round with the rotations of `G`, by whatever instructions, is a half of `G`. -/
theorem cells_pairedHalf
    {muladd2 : Register 2 → Register 2 → Register 2 → Register 2 → Register 2 × Register 2}
    (h : ∀ x0 y0 x1 y1, muladd2 x0 y0 x1 y1 = (muladd x0 y0, muladd x1 y1))
    {rotD rotB : Register 2 → Register 2} {d b : UInt64}
    (hd : ∀ x l, l < 2 → lane (rotD x) l = rotateRight (lane x l) d)
    (hb : ∀ x l, l < 2 → lane (rotB x) l = rotateRight (lane x l) b) (o : Octet (Register 2)) :
    cells (pairedHalf muladd2 rotD rotB o) = mix (halfValues d b) (cells o) := by
  rw [pairedHalf_eq h]
  exact cells_halfRound lane_muladd hd hb o

section Turns

/-- `DIAGONALIZE` by an operation on two registers. -/
def diagonalizeBy (align : Register 2 → Register 2 → Register 2) (o : Octet (Register 2)) :
    Octet (Register 2) :=
  { o with
    b0 := align o.b1 o.b0
    b1 := align o.b0 o.b1
    c0 := o.c1
    c1 := o.c0
    d0 := align o.d0 o.d1
    d1 := align o.d1 o.d0 }

def undiagonalizeBy (align : Register 2 → Register 2 → Register 2) (o : Octet (Register 2)) :
    Octet (Register 2) :=
  { o with
    b0 := align o.b0 o.b1
    b1 := align o.b1 o.b0
    c0 := o.c1
    c1 := o.c0
    d0 := align o.d1 o.d0
    d1 := align o.d0 o.d1 }

variable {align : Register 2 → Register 2 → Register 2}
  (h : ∀ hi lo l, l < 2 → lane (align hi lo) l = funnel hi lo l)
include h

theorem diagonalizeBy_turns (o : Octet (Register 2)) : PairsTurned o (diagonalizeBy align o) :=
  ⟨rfl, rfl, h _ _, h _ _, rfl, rfl, h _ _, h _ _⟩

theorem undiagonalizeBy_turns (o : Octet (Register 2)) : PairsUndone o (undiagonalizeBy align o) :=
  ⟨rfl, rfl, h _ _, h _ _, rfl, rfl, h _ _, h _ _⟩

end Turns

end Argon2Rust.PairedRound
