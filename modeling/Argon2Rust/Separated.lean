import Mathlib.Tactic

set_option autoImplicit false

namespace Argon2Rust.Separated

section
variable {α : Type} [DecidableEq α]

def find (src : List α) (needle : α) : Option ℕ := src.findIdx? fun a => decide (a = needle)

def join (sep : α) : List (List α) → List α
  | [] => []
  | [field] => field
  | field :: next :: fields => field ++ sep :: join sep (next :: fields)

theorem find_absent (src : List α) (needle : α) (h : needle ∉ src) : find src needle = none := by
  unfold find
  rw [List.findIdx?_eq_none_iff]
  intro a ha
  simp only [decide_eq_false_iff_not]
  rintro rfl
  exact h ha

theorem not_mem_of_find (src : List α) (needle : α) (h : find src needle = none) :
    needle ∉ src := by
  intro hmem
  unfold find at h
  rw [List.findIdx?_eq_none_iff] at h
  simpa using h needle hmem

theorem find_append (head tail : List α) (needle : α) (h : needle ∉ head) :
    find (head ++ needle :: tail) needle = some head.length := by
  have hn : head.findIdx? (fun a => decide (a = needle)) = none := find_absent head needle h
  unfold find
  rw [List.findIdx?_append, hn, List.findIdx?_cons]
  simp

/-- What follows the last separator, and what precedes it. -/
theorem last_unique {x y p q : List α} {needle : α} (hp : needle ∉ p) (hq : needle ∉ q)
    (h : x ++ needle :: p = y ++ needle :: q) : x = y ∧ p = q := by
  have hrev : ∀ x p : List α, (x ++ needle :: p).reverse = p.reverse ++ needle :: x.reverse := by
    intro x p
    simp
  have hfind : ∀ x p : List α, needle ∉ p → find (x ++ needle :: p).reverse needle = some p.length := by
    intro x p hn
    rw [hrev, find_append _ _ _ (mt List.mem_reverse.mp hn), List.length_reverse]
  have hlen : p.length = q.length := by
    have hx := hfind x p hp
    rw [h, hfind y q hq, Option.some.injEq] at hx
    exact hx.symm
  obtain ⟨hxy, htail⟩ := List.append_inj' h (congrArg (· + 1) hlen)
  exact ⟨hxy, (List.cons.inj htail).2⟩

theorem find_some (src : List α) (needle : α) (i : ℕ) (h : find src needle = some i) :
    ∃ head tail, src = head ++ needle :: tail ∧ needle ∉ head ∧ i = head.length := by
  induction src generalizing i with
  | nil => cases h
  | cons a src ih =>
    unfold find at h ih
    rw [List.findIdx?_cons] at h
    by_cases ha : a = needle
    · rw [if_pos (by simpa using ha), Option.some.injEq] at h
      exact ⟨[], src, by rw [ha]; rfl, List.not_mem_nil, h.symm⟩
    · rw [if_neg (by simpa using ha), Option.map_eq_some_iff] at h
      obtain ⟨j, hj, rfl⟩ := h
      obtain ⟨head, tail, rfl, hnot, rfl⟩ := ih j hj
      refine ⟨a :: head, tail, rfl, ?_, rfl⟩
      rw [List.mem_cons]
      rintro (rfl | hmem)
      · exact ha rfl
      · exact hnot hmem

omit [DecidableEq α] in
theorem mem_join (sep : α) (fields : List (List α)) (a : α) (h : a ∈ join sep fields) :
    a = sep ∨ ∃ field ∈ fields, a ∈ field := by
  induction fields using join.induct with
  | case1 => cases h
  | case2 field => exact Or.inr ⟨field, List.mem_singleton_self field, h⟩
  | case3 field next fields ih =>
    rw [join, List.mem_append, List.mem_cons] at h
    rcases h with hfield | rfl | hrest
    · exact Or.inr ⟨field, List.mem_cons_self, hfield⟩
    · exact Or.inl rfl
    · rcases ih hrest with rfl | ⟨f, hf, haf⟩
      · exact Or.inl rfl
      · exact Or.inr ⟨f, List.mem_cons_of_mem _ hf, haf⟩

omit [DecidableEq α] in
theorem mem_join_of_mem {sep : α} {fields : List (List α)} {field : List α} {a : α}
    (hfield : field ∈ fields) (h : a ∈ field) : a ∈ join sep fields := by
  induction fields using join.induct with
  | case1 => cases hfield
  | case2 only =>
    rw [List.mem_singleton.mp hfield] at h
    exact h
  | case3 first next fields ih =>
    rw [join, List.mem_append, List.mem_cons]
    rcases List.mem_cons.mp hfield with rfl | hrest
    · exact Or.inl h
    · exact Or.inr (Or.inr (ih hrest))

omit [DecidableEq α] in
theorem join_ne_nil (sep : α) (field : List α) (fields : List (List α)) (h : field ≠ []) :
    join sep (field :: fields) ≠ [] := by
  cases fields with
  | nil => exact h
  | cons next fields => exact List.append_ne_nil_of_left_ne_nil h _

end

section Fold
variable {α β ε : Type} {step : β → α → Except ε β} {R : α → α → Prop}

/-- If related elements may be exchanged wherever they succeed, a successful fold
succeeds with the same result in every order. -/
theorem foldlM_perm
    (hswap : ∀ a b x y, R a b → (step x a >>= fun x => step x b) = .ok y →
      (step x b >>= fun x => step x a) = .ok y)
    (hsymm : ∀ a b, R a b → R b a) {l l' : List α} (hperm : l.Perm l') (hl : l.Pairwise R)
    (x y : β) (h : l.foldlM step x = .ok y) : l'.foldlM step x = .ok y := by
  induction hperm generalizing x with
  | nil => exact h
  | cons a hperm ih =>
    rw [List.foldlM_cons] at h ⊢
    cases hx : step x a with
    | error e =>
      rw [hx] at h
      cases h
    | ok x' =>
      rw [hx] at h
      exact ih (List.pairwise_cons.mp hl).2 x' h
  | swap a b l =>
    have hab : R b a := (List.pairwise_cons.mp hl).1 a List.mem_cons_self
    rw [List.foldlM_cons] at h ⊢
    simp only [List.foldlM_cons] at h ⊢
    cases hx : (step x b >>= fun x => step x a) with
    | error e =>
      rw [← bind_assoc, hx] at h
      cases h
    | ok x' =>
      have hx' := hswap b a x x' hab hx
      rw [← bind_assoc, hx] at h
      rw [← bind_assoc, hx']
      exact h
  | trans hperm₁ hperm₂ ih₁ ih₂ =>
    exact ih₂ ((hperm₁.pairwise_iff (fun {a b} => hsymm a b)).mp hl) x (ih₁ hl x h)

/-- Elements that never change the accumulator may be dropped from a fold. -/
theorem foldlM_append_ignored (l extra : List α)
    (h : ∀ a ∈ extra, ∀ x, step x a = .ok x) (x : β) :
    (l ++ extra).foldlM step x = l.foldlM step x := by
  rw [List.foldlM_append]
  have hextra : ∀ y, extra.foldlM step y = .ok y := by
    induction extra with
    | nil => exact fun y => rfl
    | cons a extra ih =>
      intro y
      rw [List.foldlM_cons, h a List.mem_cons_self]
      exact ih (fun b hb => h b (List.mem_cons_of_mem a hb)) y
  cases hx : l.foldlM step x with
  | error e => rfl
  | ok y => exact hextra y

end Fold

end Argon2Rust.Separated
