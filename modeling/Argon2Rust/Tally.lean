import Mathlib.Tactic

set_option autoImplicit false

namespace Argon2Rust.Tally

variable {n : ℕ} {State : Type}

def tally (test : State → Bool) (family : Fin n → State) : ℕ := ∑ i, (test (family i)).toNat

section Basic
variable (test : State → Bool) (family : Fin n → State)

theorem tally_le : tally test family ≤ n := by
  calc
    tally test family ≤ ∑ _i : Fin n, 1 := Finset.sum_le_sum fun i _ => Bool.toNat_le _
    _ = n := by rw [Finset.sum_const, Finset.card_univ, Fintype.card_fin, smul_eq_mul, mul_one]

theorem tally_mono {State' : Type} (test' : State' → Bool) (family' : Fin n → State')
    (h : ∀ i, test (family i) = true → test' (family' i) = true) :
    tally test family ≤ tally test' family' := by
  refine Finset.sum_le_sum fun i _ => ?_
  cases hi : test (family i) with
  | false => exact Nat.zero_le _
  | true => rw [h i hi]

theorem tally_eq_zero (h : ∀ i, test (family i) = false) : tally test family = 0 :=
  Finset.sum_eq_zero fun i _ => congrArg Bool.toNat (h i)

theorem of_tally_eq_zero (h : tally test family = 0) (i : Fin n) : test (family i) = false := by
  have hi := (Finset.sum_eq_zero_iff.mp h) i (Finset.mem_univ i)
  cases ht : test (family i) with
  | false => rfl
  | true =>
    rw [ht] at hi
    cases hi

/-- Of two counts of which one implies the other, the larger implies the smaller. -/
theorem tally_reverse (test' : State → Bool) (h : ∀ i, test' (family i) = true → test (family i) = true)
    (hle : tally test family ≤ tally test' family) (i : Fin n) (hi : test (family i) = true) :
    test' (family i) = true := by
  have hpoint : ∀ j ∈ Finset.univ, (test' (family j)).toNat ≤ (test (family j)).toNat := by
    intro j _
    cases hj : test' (family j) with
    | false => exact Nat.zero_le _
    | true => rw [h j hj]
  have hsum : ∑ j, (test' (family j)).toNat = ∑ j, (test (family j)).toNat :=
    le_antisymm (Finset.sum_le_sum hpoint) hle
  have heq := (Finset.sum_eq_sum_iff_of_le hpoint).mp hsum i (Finset.mem_univ i)
  rw [hi] at heq
  exact Bool.toNat_eq_one.mp heq

/-- One update trades the old member's vote for the new one's. -/
theorem tally_update (i : Fin n) (state : State) :
    tally test (Function.update family i state) + (test (family i)).toNat =
      tally test family + (test state).toNat := by
  have hpoint : (fun j => (test (Function.update family i state j)).toNat) =
      Function.update (fun j => (test (family j)).toNat) i (test state).toNat := by
    funext j
    by_cases h : j = i
    · rw [h, Function.update_self, Function.update_self]
    · rw [Function.update_of_ne h, Function.update_of_ne h]
  have hsplit := Finset.sum_erase_add Finset.univ (fun j => (test (family j)).toNat)
    (Finset.mem_univ i)
  unfold tally
  rw [hpoint, Finset.sum_update_of_mem (Finset.mem_univ i), Finset.sdiff_singleton_eq_erase,
    ← hsplit]
  omega

theorem tally_update_of_eq (i : Fin n) (state : State) (h : test state = test (family i)) :
    tally test (Function.update family i state) = tally test family := by
  have hu := tally_update test family i state
  rw [h] at hu
  omega

end Basic

theorem sum_tally (tests : List (State → Bool)) (family : Fin n → State) :
    (tests.map fun test => tally test family).sum =
      ∑ i, (tests.map fun test => (test (family i)).toNat).sum := by
  induction tests with
  | nil => simp
  | cons test tests ih =>
    simp only [List.map_cons, List.sum_cons, ih, Finset.sum_add_distrib]
    rfl

/-- Tests of which every member passes one count all members together. -/
theorem covered (tests : List (State → Bool)) (family : Fin n → State)
    (h : ∀ i, ∃ test ∈ tests, test (family i) = true) :
    n ≤ (tests.map fun test => tally test family).sum := by
  calc
    n = ∑ _i : Fin n, 1 := by
      rw [Finset.sum_const, Finset.card_univ, Fintype.card_fin, smul_eq_mul, mul_one]
    _ ≤ ∑ i, (tests.map fun test => (test (family i)).toNat).sum := by
      refine Finset.sum_le_sum fun i _ => ?_
      obtain ⟨test, htest, hi⟩ := h i
      have hmem := List.le_sum_of_mem
        (List.mem_map_of_mem (f := fun test => (test (family i)).toNat) htest)
      rw [hi] at hmem
      exact hmem
    _ = _ := (sum_tally tests family).symm

theorem exhausted (tests : List (State → Bool)) (family : Fin n → State)
    (hdisjoint : ∀ i, (tests.map fun test => (test (family i)).toNat).sum ≤ 1)
    (hall : n ≤ (tests.map fun test => tally test family).sum) (i : Fin n) :
    ∃ test ∈ tests, test (family i) = true := by
  by_contra hnone
  push Not at hnone
  have hzero : (tests.map fun test => (test (family i)).toNat).sum = 0 := by
    refine List.sum_eq_zero fun x hx => ?_
    obtain ⟨test, htest, rfl⟩ := List.mem_map.mp hx
    rw [Bool.eq_false_iff.mpr (hnone test htest)]
    rfl
  have hlt : ∑ j, (tests.map fun test => (test (family j)).toNat).sum < ∑ _j : Fin n, 1 := by
    refine Finset.sum_lt_sum (fun j _ => hdisjoint j) ⟨i, Finset.mem_univ i, ?_⟩
    rw [hzero]
    exact Nat.zero_lt_one
  rw [← sum_tally, Finset.sum_const, Finset.card_univ, Fintype.card_fin, smul_eq_mul, mul_one] at hlt
  omega

end Argon2Rust.Tally
