import Argon2Rust.Capacity
import Argon2Rust.Tiling
import Mathlib.Algebra.Order.Floor.Div

set_option autoImplicit false

namespace Argon2Rust.StripePlan
open Parameters Tiling
open Capacity (fits addUsize mulUsize)

def subUsize (x y : ℕ) : Option ℕ := if y ≤ x then some (x - y) else none

def divCeil (x y : ℕ) : ℕ := if 0 < x % y then x / y + 1 else x / y

def nextMultipleOf (w : PointerWidth) (x y : ℕ) : Option ℕ :=
  if x % y = 0 then some x else addUsize w x (y - x % y)

/-- `workers.max(1) as usize`. -/
def workerCount (workers : UInt32) : ℕ := max workers.toNat 1

def stripeLength (w : PointerWidth) (len : ℕ) (workers : UInt32) (unit : ℕ) : Option ℕ :=
  nextMultipleOf w (divCeil len (workerCount workers)) (max unit 1)

def stripe (w : PointerWidth) (len per i : ℕ) : Option Piece := do
  let off ← mulUsize w i per
  let left ← subUsize len off
  some (off, min per left)

def piece (len per i : ℕ) : Piece := (i * per, min per (len - i * per))

theorem divCeil_eq (x y : ℕ) (hy : 0 < y) : divCeil x y = x ⌈/⌉ y := by
  have hdiv := Nat.div_add_mod' x y
  have hmod := Nat.mod_lt x hy
  rw [Nat.ceilDiv_eq_add_pred_div]
  unfold divCeil
  by_cases h : 0 < x % y
  · rw [if_pos h]
    refine (Nat.div_eq_of_lt_le ?_ ?_).symm
    · rw [Nat.succ_mul]
      omega
    · rw [Nat.succ_mul, Nat.succ_mul]
      omega
  · rw [if_neg h]
    refine (Nat.div_eq_of_lt_le ?_ ?_).symm
    · omega
    · rw [Nat.succ_mul]
      omega

theorem nextMultipleOf_some {w : PointerWidth} {x y : ℕ} (hx : x < 2 ^ w.bits) (hy : 0 < y) (z : ℕ) :
    nextMultipleOf w x y = some z ↔ y * (x ⌈/⌉ y) = z ∧ z < 2 ^ w.bits := by
  have hdiv := Nat.div_add_mod x y
  have hmod := Nat.mod_lt x hy
  rw [← divCeil_eq x y hy]
  unfold nextMultipleOf divCeil addUsize fits
  by_cases h : x % y = 0
  · rw [if_pos h, if_neg (by omega), Option.some.injEq, show y * (x / y) = x by omega]
    exact ⟨fun hz => ⟨hz, hz ▸ hx⟩, And.left⟩
  · have hsum : x + (y - x % y) = y * (x / y + 1) := by
      rw [Nat.mul_succ]
      omega
    rw [if_neg h, hsum, if_pos (Nat.pos_of_ne_zero h)]
    by_cases hfits : y * (x / y + 1) < 2 ^ w.bits
    · rw [if_pos hfits, Option.some.injEq]
      exact ⟨fun hz => ⟨hz, hz ▸ hfits⟩, And.left⟩
    · rw [if_neg hfits]
      refine iff_of_false (fun hz => nomatch hz) ?_
      rintro ⟨rfl, hz⟩
      exact hfits hz

/-- What the stripe length is good for: whole units, and enough for one stripe a worker. -/
structure Suffices (w : PointerWidth) (len workers unit per : ℕ) : Prop where
  per_lt : per < 2 ^ w.bits
  whole : max unit 1 ∣ per
  covers : len ≤ workers * per

theorem workerCount_pos (workers : UInt32) : 0 < workerCount workers :=
  Nat.lt_of_lt_of_le Nat.zero_lt_one (Nat.le_max_right _ _)

/-- The stripe length overflows nowhere that the rounded length of the region does not. -/
theorem stripeLength_some {w : PointerWidth} {len unit r : ℕ} (workers : UInt32)
    (hlen : len < 2 ^ w.bits) (hround : nextMultipleOf w len (max unit 1) = some r) :
    ∃ per, stripeLength w len workers unit = some per ∧
      Suffices w len (workerCount workers) unit per := by
  have hunit : 0 < max unit 1 := Nat.lt_of_lt_of_le Nat.zero_lt_one (Nat.le_max_right _ _)
  have hworkers := workerCount_pos workers
  have hshare : divCeil len (workerCount workers) ≤ len := by
    rw [divCeil_eq _ _ hworkers, ceilDiv_le_iff_le_mul hworkers]
    exact Nat.le_mul_of_pos_left len hworkers
  obtain ⟨hr, hrlt⟩ := (nextMultipleOf_some hlen hunit r).mp hround
  have hle : max unit 1 * (divCeil len (workerCount workers) ⌈/⌉ max unit 1) ≤ r := by
    rw [← hr]
    apply Nat.mul_le_mul_left
    rw [ceilDiv_le_iff_le_mul hunit]
    exact hshare.trans (le_smul_ceilDiv hunit)
  refine ⟨_, (nextMultipleOf_some (hshare.trans_lt hlen) hunit _).mpr ⟨rfl, hle.trans_lt hrlt⟩,
    hle.trans_lt hrlt, Nat.dvd_mul_right _ _, ?_⟩
  have hper : divCeil len (workerCount workers) ≤
      max unit 1 * (divCeil len (workerCount workers) ⌈/⌉ max unit 1) := le_smul_ceilDiv hunit
  calc len ≤ workerCount workers * divCeil len (workerCount workers) := by
        rw [divCeil_eq _ _ hworkers]
        exact le_smul_ceilDiv hworkers
    _ ≤ _ := Nat.mul_le_mul_left _ hper

section Pieces
variable {len per : ℕ} (hper : 0 < per)
include hper

theorem lt_stripes (i : ℕ) : i < divCeil len per ↔ i * per < len := by
  rw [divCeil_eq _ _ hper, ← not_le, ceilDiv_le_iff_le_mul hper, not_le, Nat.mul_comm]

theorem le_stripes : len ≤ divCeil len per * per := by
  rw [divCeil_eq _ _ hper, Nat.mul_comm]
  exact le_smul_ceilDiv hper

theorem stripes_le {workers : ℕ} (h : len ≤ workers * per) : divCeil len per ≤ workers := by
  rw [divCeil_eq _ _ hper, ceilDiv_le_iff_le_mul hper, Nat.mul_comm]
  exact h

/-- A claimed stripe begins inside the region, so neither its offset nor what is left wraps. -/
theorem stripe_some {w : PointerWidth} (hlen : len < 2 ^ w.bits) {i : ℕ} (hi : i < divCeil len per) :
    stripe w len per i = some (piece len per i) := by
  have hoff := (lt_stripes hper i).mp hi
  have hmul : mulUsize w i per = some (i * per) := if_pos (by omega)
  have hsub : subUsize len (i * per) = some (len - i * per) := if_pos (by omega)
  unfold stripe
  rw [hmul, Option.bind_eq_bind, Option.bind_some, hsub]
  rfl

theorem piece_end_le {i : ℕ} (hi : i < divCeil len per) :
    (piece len per i).1 + (piece len per i).2 ≤ len := by
  have hoff := (lt_stripes hper i).mp hi
  change i * per + min per (len - i * per) ≤ len
  omega

omit hper in
theorem piece_disjoint {i j : ℕ} (hne : i ≠ j) :
    (piece len per i).1 + (piece len per i).2 ≤ (piece len per j).1 ∨
      (piece len per j).1 + (piece len per j).2 ≤ (piece len per i).1 := by
  have hend : ∀ k l, k < l → k * per + min per (len - k * per) ≤ l * per := by
    intro k l hlt
    calc k * per + min per (len - k * per) ≤ k * per + per :=
          Nat.add_le_add_left (Nat.min_le_left _ _) _
      _ = (k + 1) * per := (Nat.succ_mul k per).symm
      _ ≤ l * per := Nat.mul_le_mul_right per hlt
  rcases Nat.lt_or_gt_of_ne hne with hlt | hlt
  · exact Or.inl (hend i j hlt)
  · exact Or.inr (hend j i hlt)

/-- The stripes in order: all but the last have the full length. -/
theorem pieces_tile (hlen : 0 < len) :
    Tiles 0 ((List.range (divCeil len per)).map (piece len per)) len := by
  have hall := @le_stripes len per hper
  obtain ⟨last, hlast⟩ : ∃ k, divCeil len per = k + 1 := by
    refine Nat.exists_eq_add_one_of_ne_zero ?_
    intro hzero
    rw [hzero, Nat.zero_mul] at hall
    omega
  have hoff : last * per < len := (lt_stripes hper last).mp (by omega)
  rw [hlast, Nat.succ_mul] at hall
  have hfull : (List.range last).map (piece len per) =
      (List.range last).map fun i => (0 + i * per, per) := by
    refine List.map_congr_left fun i hi => ?_
    have hnext := Nat.mul_le_mul_right per (List.mem_range.mp hi)
    rw [Nat.succ_mul] at hnext
    rw [piece, Nat.zero_add, Nat.min_eq_left (by omega)]
  have hend : piece len per last = (last * per, len - last * per) := by
    rw [piece, Nat.min_eq_right (by omega)]
  have htail := Tiles.single (last * per) (len - last * per)
  rw [Nat.add_sub_of_le hoff.le] at htail
  rw [hlast, List.range_succ, List.map_append, List.map_singleton, hfull, hend]
  have hsteps := Tiles.steps 0 per last
  rw [Nat.zero_add] at hsteps
  exact hsteps.append htail

end Pieces

end Argon2Rust.StripePlan
