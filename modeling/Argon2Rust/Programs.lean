import Mathlib.Tactic

set_option autoImplicit false

namespace Argon2Rust.Programs

def Program (σ ε α : Type) := σ → Option (Except ε α × σ)

namespace Program
variable {σ ε α β : Type}

instance : Monad (Program σ ε) where
  pure a := fun s => some (.ok a, s)
  bind m k := fun s =>
    match m s with
    | none => none
    | some (.error e, s') => some (.error e, s')
    | some (.ok a, s') => k a s'

theorem pure_bind (a : α) (k : α → Program σ ε β) : (pure a >>= k) = k a := rfl

theorem bind_assoc {γ : Type} (m : Program σ ε α) (k : α → Program σ ε β) (l : β → Program σ ε γ) :
    (m >>= k >>= l) = (m >>= fun a => k a >>= l) := by
  funext s
  simp only [bind]
  rcases m s with _ | ⟨e | a, s'⟩ <;> rfl

theorem bind_of_ok {m : Program σ ε α} {k : α → Program σ ε β} {s s' : σ} {a : α}
    (h : m s = some (.ok a, s')) : (m >>= k) s = k a s' := by
  simp only [bind, h]

theorem bind_of_error {m : Program σ ε α} {k : α → Program σ ε β} {s s' : σ} {e : ε}
    (h : m s = some (.error e, s')) : (m >>= k) s = some (.error e, s') := by
  simp only [bind, h]

/-- A computation that does not touch the state. -/
def lift (r : Except ε α) : Program σ ε α := fun s => some (r, s)

def access (x : Option α) : Program σ ε α := fun s => x.map fun a => (.ok a, s)

def get : Program σ ε σ := fun s => some (.ok s, s)

def set (s : σ) : Program σ ε Unit := fun _ => some (.ok (), s)

/-- The result of a run as a value: what follows happens on both paths. -/
def attempt (m : Program σ ε α) : Program σ ε (Except ε α) := fun s =>
  (m s).map fun r => (.ok r.1, r.2)

/-- A program over one part of the state. -/
def second {τ : Type} (m : Program σ ε α) : Program (τ × σ) ε α := fun s =>
  (m s.2).map fun r => (r.1, (s.1, r.2))

variable (k : α → Program σ ε β) (s : σ)

@[simp] theorem lift_ok_bind (a : α) : (lift (.ok a) >>= k) s = k a s := rfl

theorem lift_ok_bind_eq (a : α) (k : α → Program σ ε β) : (lift (.ok a) >>= k) = k a := rfl

@[simp] theorem lift_error_bind (e : ε) : (lift (.error e) >>= k) s = some (.error e, s) := rfl

@[simp] theorem access_some_bind (a : α) : (access (some a) >>= k) s = k a s := rfl

@[simp] theorem get_bind (k : σ → Program σ ε β) : (get >>= k) s = k s s := rfl

theorem attempt_eq {m : Program σ ε α} {s s' : σ} {r : Except ε α} (h : m s = some (r, s')) :
    attempt m s = some (.ok r, s') := by
  unfold attempt
  rw [h]
  rfl

theorem second_eq {τ : Type} (t : τ) {m : Program σ ε α} {s s' : σ} {r : Except ε α}
    (h : m s = some (r, s')) : second m (t, s) = some (r, (t, s')) := by
  unfold second
  rw [h]
  rfl

theorem set_apply (s s' : σ) : (set s' : Program σ ε Unit) s = some (.ok (), s') := rfl

@[simp] theorem set_bind (s' : σ) (k : Unit → Program σ ε β) : (set s' >>= k) s = k () s' := rfl

end Program

end Argon2Rust.Programs
