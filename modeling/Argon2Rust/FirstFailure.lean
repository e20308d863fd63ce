import Mathlib.Tactic

set_option autoImplicit false

namespace Argon2Rust.FirstFailure

variable {ε : Type}

abbrev Check (ε : Type) := Bool × ε

def firstFailure : List (Check ε) → Option ε
  | [] => none
  | check :: checks => if check.1 then some check.2 else firstFailure checks

def verdict : Option ε → Except ε Unit
  | none => .ok ()
  | some e => .error e

@[simp] theorem firstFailure_nil : firstFailure ([] : List (Check ε)) = none := rfl

theorem firstFailure_cons (c : Prop) [Decidable c] (e : ε) (checks : List (Check ε)) :
    firstFailure ((decide c, e) :: checks) = if c then some e else firstFailure checks := by
  rw [firstFailure]
  simp only [decide_eq_true_eq]

@[simp] theorem firstFailure_pass (c : Prop) [Decidable c] (e : ε) (checks : List (Check ε))
    (h : ¬ c) : firstFailure ((decide c, e) :: checks) = firstFailure checks := by
  rw [firstFailure_cons, if_neg h]

@[simp] theorem verdict_none : verdict (none : Option ε) = .ok () := rfl

theorem verdict_cons (c : Prop) [Decidable c] (e : ε) (checks : List (Check ε)) :
    verdict (firstFailure ((decide c, e) :: checks)) =
      if c then .error e else verdict (firstFailure checks) := by
  rw [firstFailure_cons]
  by_cases h : c
  · rw [if_pos h, if_pos h]
    rfl
  · rw [if_neg h, if_neg h]

theorem verdict_eq_error (r : Option ε) (e : ε) : verdict r = .error e ↔ r = some e := by
  cases r <;> simp [verdict]

theorem firstFailure_append (xs ys : List (Check ε)) :
    firstFailure (xs ++ ys) = (firstFailure xs).or (firstFailure ys) := by
  induction xs with
  | nil => rfl
  | cons x xs ih =>
    rw [List.cons_append, firstFailure, firstFailure, ih]
    by_cases h : x.1 = true
    · rw [if_pos h, if_pos h, Option.some_or]
    · rw [if_neg h, if_neg h]

section OnlyFails
variable {α β : Type} {p : ε → Prop}

/-- The result is a value or a failure of the kind `p`. -/
def OnlyFails (p : ε → Prop) (r : Except ε α) : Prop := ∀ e, r = .error e → p e

theorem OnlyFails.ok (a : α) : OnlyFails p (.ok a) := by
  intro e h
  cases h

theorem OnlyFails.error {e : ε} (he : p e) : OnlyFails p (.error e : Except ε α) := by
  intro e' h
  cases h
  exact he

theorem OnlyFails.bind {r : Except ε α} {k : α → Except ε β} (hr : OnlyFails p r)
    (hk : ∀ a, OnlyFails p (k a)) : OnlyFails p (r >>= k) := by
  cases r with
  | error e => exact OnlyFails.error (hr e rfl)
  | ok a => exact hk a

theorem OnlyFails.ite {c : Prop} [Decidable c] {r s : Except ε α} (hr : OnlyFails p r)
    (hs : OnlyFails p s) : OnlyFails p (if c then r else s) := by
  by_cases h : c
  · rwa [if_pos h]
  · rwa [if_neg h]

end OnlyFails

end Argon2Rust.FirstFailure
