import Mathlib.Tactic

set_option autoImplicit false

namespace Argon2Rust.Tiling

abbrev Piece := ℕ × ℕ

def covers (i : ℕ) (piece : Piece) : Bool := decide (piece.1 ≤ i ∧ i < piece.1 + piece.2)

/-- The pieces in between, from the first position to the one behind the last. -/
inductive Tiles : ℕ → List Piece → ℕ → Prop where
  | nil (a : ℕ) : Tiles a [] a
  | cons {a n b : ℕ} {pieces : List Piece} (tail : Tiles (a + n) pieces b) :
      Tiles a ((a, n) :: pieces) b

theorem Tiles.single (a n : ℕ) : Tiles a [(a, n)] (a + n) := .cons (.nil _)

theorem Tiles.append {a b c : ℕ} {xs ys : List Piece} (h : Tiles a xs b) (h' : Tiles b ys c) :
    Tiles a (xs ++ ys) c := by
  induction h with
  | nil _ => exact h'
  | cons _ ih => exact .cons (ih h')

theorem Tiles.le {a b : ℕ} {pieces : List Piece} (h : Tiles a pieces b) : a ≤ b := by
  induction h with
  | nil _ => exact le_rfl
  | cons _ ih => omega

theorem Tiles.within {a b : ℕ} {pieces : List Piece} (h : Tiles a pieces b) :
    ∀ piece ∈ pieces, a ≤ piece.1 ∧ piece.1 + piece.2 ≤ b := by
  induction h with
  | nil _ => simp
  | cons tail ih =>
    have hle := tail.le
    rw [List.forall_mem_cons]
    refine ⟨⟨le_rfl, hle⟩, ?_⟩
    intro piece hp
    obtain ⟨hlow, hhigh⟩ := ih piece hp
    exact ⟨by omega, hhigh⟩

theorem Tiles.countP {a b : ℕ} {pieces : List Piece} (h : Tiles a pieces b) (i : ℕ) :
    pieces.countP (covers i) = if a ≤ i ∧ i < b then 1 else 0 := by
  induction h with
  | nil _ =>
    rw [List.countP_nil, if_neg (by omega)]
  | cons tail ih =>
    have hle := tail.le
    rw [List.countP_cons, ih]
    simp only [covers, decide_eq_true_eq]
    split_ifs <;> omega

/-- Equal steps from `a` on, `n` of them. -/
theorem Tiles.steps (a d n : ℕ) :
    Tiles a ((List.range n).map fun i => (a + i * d, d)) (a + n * d) := by
  induction n with
  | zero =>
    rw [Nat.zero_mul]
    exact .nil a
  | succ n ih =>
    rw [List.range_succ, List.map_append, Nat.succ_mul, ← Nat.add_assoc]
    exact ih.append (.single _ _)

end Argon2Rust.Tiling
