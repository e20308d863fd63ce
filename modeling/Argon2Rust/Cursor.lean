import Mathlib.Tactic

set_option autoImplicit false

namespace Argon2Rust.Cursor

variable {α : Type} {src text rest : List α} {pos next : ℕ}

/-- Between the two positions `src` reads `text`. -/
structure Reads (src : List α) (pos : ℕ) (text : List α) (next : ℕ) : Prop where
  drop_eq : src.drop pos = text ++ src.drop next
  next_eq : next = pos + text.length

theorem drop_add_length (h : src.drop pos = text ++ rest) :
    src.drop (pos + text.length) = rest := by
  rw [← List.drop_drop, h, List.drop_left]

theorem reads_of_drop (h : src.drop pos = text ++ rest) :
    Reads src pos text (pos + text.length) where
  drop_eq := by rw [drop_add_length h, h]
  next_eq := rfl

theorem exists_reads (h : src.drop pos = text ++ rest) :
    ∃ next, Reads src pos text next ∧ src.drop next = rest :=
  ⟨_, reads_of_drop h, drop_add_length h⟩

theorem reads_iff_starts :
    Reads src pos text next ↔ text <+: src.drop pos ∧ next = pos + text.length := by
  constructor
  · intro h
    exact ⟨⟨src.drop next, h.drop_eq.symm⟩, h.next_eq⟩
  · rintro ⟨⟨rest, hrest⟩, rfl⟩
    exact reads_of_drop hrest.symm

theorem Reads.trans {text₁ text₂ : List α} {mid : ℕ} (h₁ : Reads src pos text₁ mid)
    (h₂ : Reads src mid text₂ next) : Reads src pos (text₁ ++ text₂) next where
  drop_eq := by rw [h₁.drop_eq, h₂.drop_eq, List.append_assoc]
  next_eq := by rw [h₂.next_eq, h₁.next_eq, List.length_append, Nat.add_assoc]

theorem Reads.start (h : Reads src 0 text next) : src = text ++ src.drop next := by
  rw [← h.drop_eq, List.drop_zero]

theorem Reads.whole (h : Reads src 0 text src.length) : src = text := by
  have hs := h.start
  rwa [List.drop_length, List.append_nil] at hs

def Stops (p : α → Bool) (l : List α) : Prop := ∀ c ∈ l.head?, p c = false

section
variable {p : α → Bool}

theorem stops_nil : Stops p [] := by
  intro c hc
  cases hc

theorem stops_cons {c : α} (h : p c = false) (l : List α) : Stops p (c :: l) := by
  intro a ha
  rw [List.head?_cons, Option.mem_some_iff] at ha
  rw [← ha, h]

theorem stops_dropWhile (l : List α) : Stops p (l.dropWhile p) := by
  intro c hc
  have h := List.head?_dropWhile_not p l
  rw [Option.mem_def.mp hc] at h
  simpa using h

theorem takeWhile_of_stops {l : List α} (h : Stops p l) : l.takeWhile p = [] := by
  cases l with
  | nil => rfl
  | cons c l => rw [List.takeWhile_cons, h c rfl, if_neg Bool.false_ne_true]

theorem run_append {u l : List α} (hu : ∀ c ∈ u, p c = true) (hl : Stops p l) :
    (u ++ l).takeWhile p = u := by
  rw [List.takeWhile_append_of_pos hu, takeWhile_of_stops hl, List.append_nil]

theorem mem_run {l : List α} : ∀ c ∈ l.takeWhile p, p c = true :=
  List.all_eq_true.mp List.all_takeWhile

end

end Argon2Rust.Cursor
