import Mathlib.Tactic

set_option autoImplicit false

/-!
# Rounds over scattered cells

Four rows of cells, one column of four cells mixed at a time. A round mixes
every column, moves the cells, mixes again and moves them back. A state may hold
several such sets of columns at once; a program on it makes a round on each set
that its moves turn and turn back. `scatter` writes a group of slots of a vector
back in place; a fold over groups that share no slot computes every group from
what it started with.
-/
namespace Argon2Rust.LaneRounds

abbrev Cells (T α : Type) := Fin 4 × T → α

section Rounds
variable {T U α : Type}

def mix (g : (Fin 4 → α) → Fin 4 → α) (v : Cells T α) : Cells T α :=
  fun c => g (fun row => v (row, c.2)) c.1

def round (g : (Fin 4 → α) → Fin 4 → α) (turn undo : Fin 4 × T → Fin 4 × T) (v : Cells T α) :
    Cells T α := mix g (mix g v ∘ turn) ∘ undo

theorem mix_mix (g h : (Fin 4 → α) → Fin 4 → α) (v : Cells T α) :
    mix g (mix h v) = mix (g ∘ h) v := rfl

theorem mix_comp (g : (Fin 4 → α) → Fin 4 → α) (v : Cells T α) (e : U → T) :
    mix g v ∘ Prod.map id e = mix g (v ∘ Prod.map id e) := rfl

/-- A program on states that hold cells makes a round on every set of columns it moves rightly. -/
theorem round_placed {State : Type} (cells : State → Cells T α) {mixed turned undone : State → State}
    (g : (Fin 4 → α) → Fin 4 → α) {turn undo : Fin 4 × U → Fin 4 × U} (e : U → T)
    (hmixed : ∀ s, cells (mixed s) = mix g (cells s))
    (hturned : ∀ s, cells (turned s) ∘ Prod.map id e = (cells s ∘ Prod.map id e) ∘ turn)
    (hundone : ∀ s, cells (undone s) ∘ Prod.map id e = (cells s ∘ Prod.map id e) ∘ undo)
    (s : State) :
    cells (undone (mixed (turned (mixed s)))) ∘ Prod.map id e =
      round g turn undo (cells s ∘ Prod.map id e) := by
  rw [hundone, hmixed, mix_comp, hturned, hmixed, mix_comp]
  rfl

end Rounds

section Slots
variable {α : Type} {K N m : ℕ}

def gather (slots : Fin K → Fin m) (s : Vector α m) : Fin K → α := fun k => s[slots k]

def scatter (slots : Fin K → Fin m) (u : Fin K → α) (s : Vector α m) : Vector α m :=
  Fin.foldl K (fun s k => s.set (slots k) (u k)) s

/-- What every step of a fold keeps, indexed by the number of steps made. -/
theorem foldl_invariant {β : Type} (f : β → Fin N → β) (P : ℕ → β → Prop) (x : β) (h0 : P 0 x)
    (hstep : ∀ (i : Fin N) (y : β), P i.val y → P (i.val + 1) (f y i)) : P N (Fin.foldl N f x) := by
  induction N with
  | zero => exact h0
  | succ N ih =>
    have hfront := ih (fun y i => f y i.castSucc) fun i y hy => hstep i.castSucc y hy
    rw [Fin.foldl_succ_last]
    exact hstep (Fin.last N) _ hfront

theorem scatter_get {slots : Fin K → Fin m} (hinj : Function.Injective slots) (u : Fin K → α)
    (s : Vector α m) (k : Fin K) : (scatter slots u s)[slots k] = u k := by
  refine foldl_invariant _ (fun t (y : Vector α m) => ∀ k : Fin K, k.val < t → y[slots k] = u k) s
    (fun k h => absurd h (Nat.not_lt_zero _)) ?_ k k.isLt
  intro i y hy k hk
  by_cases h : i = k
  · rw [h]
    exact Vector.getElem_set_self _
  · have hslot : (slots i).val ≠ (slots k).val := fun hc => h (hinj (Fin.ext hc))
    have hlt : k.val < i.val := by
      have hne : i.val ≠ k.val := fun hc => h (Fin.ext hc)
      omega
    exact (Vector.getElem_set_ne _ _ hslot).trans (hy k hlt)

theorem scatter_frame (slots : Fin K → Fin m) (u : Fin K → α) (s : Vector α m) (r : Fin m)
    (hr : ∀ k, slots k ≠ r) : (scatter slots u s)[r] = s[r] := by
  refine foldl_invariant _ (fun _ (y : Vector α m) => y[r] = s[r]) s rfl ?_
  intro i y hy
  have hslot : (slots i).val ≠ r.val := fun hc => hr i (Fin.ext hc)
  exact (Vector.getElem_set_ne _ _ hslot).trans hy

theorem foldl_groups {β γ ι : Type} {slots : Fin N → ι → Fin m}
    (read : β → Fin m → γ) (f : Fin N → (ι → γ) → ι → γ) {step : β → Fin N → β}
    (hdisjoint : ∀ i j k l, slots i k = slots j l → i = j)
    (hin : ∀ y i k, read (step y i) (slots i k) = f i (fun k => read y (slots i k)) k)
    (hout : ∀ y i r, (∀ k, slots i k ≠ r) → read (step y i) r = read y r)
    (x : β) (i : Fin N) (k : ι) :
    read (Fin.foldl N step x) (slots i k) = f i (fun k => read x (slots i k)) k := by
  have hall := foldl_invariant step
    (fun t (y : β) => ∀ (i : Fin N) (k : ι), read y (slots i k) =
      if i.val < t then f i (fun k => read x (slots i k)) k else read x (slots i k)) x
    (fun i k => (if_neg (Nat.not_lt_zero _)).symm) ?_
  · exact (hall i k).trans (if_pos i.isLt)
  intro t y hy i k
  by_cases h : t = i
  · have hold : (fun k => read y (slots t k)) = fun k => read x (slots t k) := by
      funext l
      exact (hy t l).trans (if_neg (Nat.lt_irrefl _))
    subst h
    rw [if_pos (Nat.lt_succ_self _), hin, hold]
  · have hother : ∀ l, slots t l ≠ slots i k := fun l hc => h (hdisjoint t i l k hc)
    have hlt : (i.val < t.val + 1) ↔ i.val < t.val := by
      have hne : t.val ≠ i.val := fun hc => h (Fin.ext hc)
      omega
    rw [hout y t _ hother, hy i k]
    simp only [hlt]

theorem foldl_scatter {slots : Fin N → Fin K → Fin m}
    (hinj : ∀ i j k l, slots i k = slots j l → i = j ∧ k = l) (f : (Fin K → α) → Fin K → α)
    (s : Vector α m) (i : Fin N) (k : Fin K) :
    (Fin.foldl N (fun s i => scatter (slots i) (f (gather (slots i) s)) s) s)[slots i k] =
      f (gather (slots i) s) k :=
  foldl_groups (fun y r => y[r]) (fun _ => f) (fun i j k l h => (hinj i j k l h).1)
    (fun y i k => scatter_get (fun _ _ h => (hinj i i _ _ h).2) _ y k)
    (fun y i r hr => scatter_frame _ _ y r hr) s i k

end Slots

end Argon2Rust.LaneRounds
