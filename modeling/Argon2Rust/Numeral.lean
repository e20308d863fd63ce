import Mathlib.Tactic

set_option autoImplicit false

namespace Argon2Rust.Numeral

/-- What a reader holds after `ds`, starting from `acc`. -/
def valueFrom (b acc : ℕ) (ds : List ℕ) : ℕ := ds.foldl (fun v d => b * v + d) acc

def value (b : ℕ) (ds : List ℕ) : ℕ := valueFrom b 0 ds

def numeral (b n : ℕ) : List ℕ := if n = 0 then [0] else (Nat.digits b n).reverse

def Canonical (ds : List ℕ) : Prop := ds ≠ [] ∧ (ds.head? = some 0 → ds.length = 1)

instance (ds : List ℕ) : Decidable (Canonical ds) :=
  inferInstanceAs (Decidable (ds ≠ [] ∧ (ds.head? = some 0 → ds.length = 1)))

@[simp] theorem valueFrom_nil (b acc : ℕ) : valueFrom b acc [] = acc := rfl

@[simp] theorem valueFrom_cons (b acc d : ℕ) (ds : List ℕ) :
    valueFrom b acc (d :: ds) = valueFrom b (b * acc + d) ds := rfl

theorem valueFrom_append (b acc : ℕ) (xs ys : List ℕ) :
    valueFrom b acc (xs ++ ys) = valueFrom b (valueFrom b acc xs) ys := List.foldl_append

theorem value_eq_ofDigits (b : ℕ) (ds : List ℕ) : value b ds = Nat.ofDigits b ds.reverse := by
  induction ds using List.reverseRecOn with
  | nil => rfl
  | append_singleton ds d ih =>
    rw [List.reverse_append, List.reverse_singleton, List.singleton_append, Nat.ofDigits_cons,
      ← ih]
    unfold value
    rw [valueFrom_append, valueFrom_cons, valueFrom_nil]
    exact Nat.add_comm _ _

section
variable {b : ℕ} (hb : 1 < b)
include hb

/-- Reading on never makes the value smaller, so an overflow is final. -/
theorem le_valueFrom (acc : ℕ) (ds : List ℕ) : acc ≤ valueFrom b acc ds := by
  induction ds generalizing acc with
  | nil => exact le_rfl
  | cons d ds ih =>
    have hmul : acc ≤ b * acc := Nat.le_mul_of_pos_left acc (by omega)
    exact (hmul.trans (Nat.le_add_right _ d)).trans (ih _)

omit hb in
theorem value_numeral (n : ℕ) : value b (numeral b n) = n := by
  unfold numeral
  by_cases hn : n = 0
  · rw [if_pos hn, hn]
    rfl
  · rw [if_neg hn, value_eq_ofDigits, List.reverse_reverse, Nat.ofDigits_digits]

theorem numeral_lt (n : ℕ) : ∀ d ∈ numeral b n, d < b := by
  intro d hd
  unfold numeral at hd
  by_cases hn : n = 0
  · rw [if_pos hn, List.mem_singleton] at hd
    omega
  · rw [if_neg hn, List.mem_reverse] at hd
    exact Nat.digits_lt_base hb hd

omit hb in
theorem numeral_canonical (n : ℕ) : Canonical (numeral b n) := by
  unfold numeral
  by_cases hn : n = 0
  · rw [if_pos hn]
    exact ⟨List.cons_ne_nil _ _, fun _ => rfl⟩
  · have hne : Nat.digits b n ≠ [] := Nat.digits_ne_nil_iff_ne_zero.mpr hn
    rw [if_neg hn]
    refine ⟨fun h => hne (List.reverse_eq_nil_iff.mp h), ?_⟩
    intro hz
    rw [List.head?_reverse, List.getLast?_eq_some_getLast hne, Option.some.injEq] at hz
    exact absurd hz (Nat.getLast_digit_ne_zero b hn)

theorem numeral_value (ds : List ℕ) (hlt : ∀ d ∈ ds, d < b) (hmin : Canonical ds) :
    numeral b (value b ds) = ds := by
  obtain ⟨hne, hlead⟩ := hmin
  have hrev : ds.reverse ≠ [] := fun h => hne (List.reverse_eq_nil_iff.mp h)
  by_cases hz : ds.head? = some 0
  · obtain ⟨d, hd⟩ := List.length_eq_one_iff.mp (hlead hz)
    rw [hd] at hz ⊢
    simp only [List.head?_cons, Option.some.injEq] at hz
    rw [hz]
    rfl
  · have hlast : ∀ h : ds.reverse ≠ [], ds.reverse.getLast h ≠ 0 := by
      intro h h0
      have hl := List.getLast?_eq_some_getLast h
      rw [h0, List.getLast?_reverse] at hl
      exact hz hl
    have hdig : Nat.digits b (value b ds) = ds.reverse := by
      rw [value_eq_ofDigits]
      exact Nat.digits_ofDigits b hb _ (fun d hd => hlt d (List.mem_reverse.mp hd)) hlast
    have hv : value b ds ≠ 0 := by
      intro h0
      rw [h0, Nat.digits_zero] at hdig
      exact hrev hdig.symm
    unfold numeral
    rw [if_neg hv, hdig, List.reverse_reverse]

omit hb in
theorem numeral_of_lt (n : ℕ) (h : n < b) : numeral b n = [n] := by
  unfold numeral
  by_cases hn : n = 0
  · rw [if_pos hn, hn]
  · rw [if_neg hn, Nat.digits_of_lt b n hn h, List.reverse_singleton]

theorem numeral_of_ge (n : ℕ) (h : b ≤ n) : numeral b n = numeral b (n / b) ++ [n % b] := by
  have hdiv : n / b ≠ 0 := by
    have := Nat.div_pos h (by omega)
    omega
  unfold numeral
  rw [if_neg (by omega), if_neg hdiv, Nat.digits_def' hb (by omega), List.reverse_cons]

theorem numeral_length_mono {m n : ℕ} (h : m ≤ n) : (numeral b m).length ≤ (numeral b n).length := by
  induction n using Nat.strong_induction_on generalizing m with
  | _ n ih =>
    by_cases hm : m < b
    · rw [numeral_of_lt m hm]
      exact List.length_pos_iff.mpr (numeral_canonical n).1
    · have hn : n / b < n := Nat.div_lt_self (by omega) hb
      have hq := ih (n / b) hn (Nat.div_le_div_right h)
      rw [numeral_of_ge hb m (by omega), numeral_of_ge hb n (by omega), List.length_append,
        List.length_append]
      exact Nat.add_le_add_right hq _

end

end Argon2Rust.Numeral
