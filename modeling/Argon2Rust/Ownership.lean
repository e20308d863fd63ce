import Argon2Rust.AddressSpace
import Mathlib.Logic.Equiv.Basic

set_option autoImplicit false

/-!
# Owners of memory

A memory system hands out blocks of its heap and ranges of addresses. Of every
grant that is out, exactly one place in the program is the owner; what the system
has out and what the owners hold is the same, and no two grants overlap. The
rules say what a grant, a return and a move from one place to another keep.
-/
namespace Argon2Rust.Ownership
open Tiling AddressSpace

structure HeapBlock where
  ptr : ℕ
  size : ℕ
  align : ℕ
  deriving DecidableEq

inductive Grant where
  | heap (block : HeapBlock)
  | mapping (range : Piece)

def HeapBlock.region (block : HeapBlock) : Set ℕ := addresses (block.ptr, block.size)

def Grant.region : Grant → Set ℕ
  | .heap block => block.region
  | .mapping range => addresses range

/-- What the system has out. -/
structure System where
  heap : Set HeapBlock
  mapped : Set ℕ

def System.empty : System := ⟨∅, ∅⟩

/-- The addresses that a new grant must keep clear of. -/
def System.taken (m : System) : Set ℕ := {x | x ∈ m.mapped ∨ ∃ block ∈ m.heap, x ∈ block.region}

variable {Place : Type}

structure Accounted (owner : Place → Option Grant) (m : System) : Prop where
  apart : ∀ p q g g', p ≠ q → owner p = some g → owner q = some g' → Disjoint g.region g'.region
  heap : ∀ block, block ∈ m.heap ↔ ∃ p, owner p = some (.heap block)
  mapped : ∀ x, x ∈ m.mapped ↔ ∃ p range, owner p = some (.mapping range) ∧ x ∈ addresses range
  nonempty : ∀ p g, owner p = some g → g.region.Nonempty

theorem accounted_empty : Accounted (fun _ : Place => none) System.empty where
  apart _ _ _ _ _ h := by cases h
  heap block := ⟨fun h => absurd h (Set.notMem_empty block), fun ⟨_, h⟩ => by cases h⟩
  mapped x := ⟨fun h => absurd h (Set.notMem_empty x), fun ⟨_, _, h, _⟩ => by cases h⟩
  nonempty _ _ h := by cases h

section Rules
variable {owner : Place → Option Grant} {m : System} {p q : Place} {g g' : Grant}

theorem Accounted.unique (h : Accounted owner m) (hp : owner p = some g) (hq : owner q = some g) :
    p = q := by
  by_contra hne
  obtain ⟨x, hx⟩ := h.nonempty p g hp
  exact Set.disjoint_left.mp (h.apart p q g g hne hp hq) hx hx

theorem Accounted.subset_taken (h : Accounted owner m) (hp : owner p = some g) :
    g.region ⊆ m.taken := by
  intro x hx
  cases g with
  | heap block => exact Or.inr ⟨block, (h.heap block).mpr ⟨p, hp⟩, hx⟩
  | mapping range => exact Or.inl ((h.mapped x).mpr ⟨p, range, hp, hx⟩)

/-- The addresses of one owner's mapping, and nobody else's heap block. -/
theorem Accounted.mapping_subset (h : Accounted owner m) {range : Piece}
    (hp : owner p = some (.mapping range)) : addresses range ⊆ m.mapped :=
  fun x hx => (h.mapped x).mpr ⟨p, range, hp, hx⟩

variable [DecidableEq Place]

theorem update_owner {x : Option Grant} (h : Function.update owner p x q = some g) :
    q = p ∧ x = some g ∨ q ≠ p ∧ owner q = some g := by
  by_cases hq : q = p
  · rw [hq, Function.update_self] at h
    exact Or.inl ⟨hq, h⟩
  · rw [Function.update_of_ne hq] at h
    exact Or.inr ⟨hq, h⟩

theorem update_other {x : Option Grant} (hpq : q ≠ p) (hq : owner q = some g) :
    Function.update owner p x q = some g := (Function.update_of_ne hpq x owner).trans hq

theorem Accounted.granted (h : Accounted owner m) (hp : owner p = none)
    (hfresh : Disjoint m.taken g.region) (hsize : g.region.Nonempty) {m' : System}
    (hheap : ∀ block, block ∈ m'.heap ↔ block ∈ m.heap ∨ g = .heap block)
    (hmapped : ∀ x, x ∈ m'.mapped ↔ x ∈ m.mapped ∨ ∃ range, g = .mapping range ∧
      x ∈ addresses range) :
    Accounted (Function.update owner p (some g)) m' where
  apart q q' k k' hne hq hq' := by
    have hother : ∀ r k, owner r = some k → Disjoint k.region g.region := fun r k hr =>
      hfresh.mono_left (h.subset_taken hr)
    obtain ⟨rfl, hk⟩ | ⟨-, hk⟩ := update_owner hq
    · obtain ⟨rfl, -⟩ | ⟨-, hk'⟩ := update_owner hq'
      · exact absurd rfl hne
      · rw [← Option.some.inj hk]
        exact (hother q' k' hk').symm
    · obtain ⟨-, hk'⟩ | ⟨-, hk'⟩ := update_owner hq'
      · rw [← Option.some.inj hk']
        exact hother q k hk
      · exact h.apart q q' k k' hne hk hk'
  heap block := by
    rw [hheap, h.heap]
    constructor
    · rintro (⟨q, hq⟩ | rfl)
      · refine ⟨q, update_other ?_ hq⟩
        rintro rfl
        rw [hp] at hq
        cases hq
      · exact ⟨p, Function.update_self p _ owner⟩
    · rintro ⟨q, hq⟩
      obtain ⟨-, hk⟩ | ⟨-, hk⟩ := update_owner hq
      · exact Or.inr (Option.some.inj hk)
      · exact Or.inl ⟨q, hk⟩
  mapped x := by
    rw [hmapped, h.mapped]
    constructor
    · rintro (⟨q, range, hq, hx⟩ | ⟨range, rfl, hx⟩)
      · refine ⟨q, range, update_other ?_ hq, hx⟩
        rintro rfl
        rw [hp] at hq
        cases hq
      · exact ⟨p, range, Function.update_self p _ owner, hx⟩
    · rintro ⟨q, range, hq, hx⟩
      obtain ⟨-, hk⟩ | ⟨-, hk⟩ := update_owner hq
      · exact Or.inr ⟨range, Option.some.inj hk, hx⟩
      · exact Or.inl ⟨q, range, hk, hx⟩
  nonempty q k hq := by
    obtain ⟨-, hk⟩ | ⟨-, hk⟩ := update_owner hq
    · rw [← Option.some.inj hk]
      exact hsize
    · exact h.nonempty q k hk

theorem Accounted.returned (h : Accounted owner m) (hp : owner p = some g) {m' : System}
    (hheap : ∀ block, block ∈ m'.heap ↔ block ∈ m.heap ∧ g ≠ .heap block)
    (hmapped : ∀ x, x ∈ m'.mapped ↔ x ∈ m.mapped ∧ ∀ range, g = .mapping range →
      x ∉ addresses range) :
    Accounted (Function.update owner p none) m' where
  apart q q' k k' hne hq hq' := by
    obtain ⟨-, hk⟩ | ⟨-, hk⟩ := update_owner hq
    · cases hk
    · obtain ⟨-, hk'⟩ | ⟨-, hk'⟩ := update_owner hq'
      · cases hk'
      · exact h.apart q q' k k' hne hk hk'
  heap block := by
    rw [hheap, h.heap]
    constructor
    · rintro ⟨⟨q, hq⟩, hne⟩
      refine ⟨q, update_other ?_ hq⟩
      rintro rfl
      exact hne (Option.some.inj (hp.symm.trans hq))
    · rintro ⟨q, hq⟩
      obtain ⟨-, hk⟩ | ⟨hpq, hk⟩ := update_owner hq
      · cases hk
      · refine ⟨⟨q, hk⟩, ?_⟩
        rintro rfl
        exact hpq (h.unique hk hp)
  mapped x := by
    rw [hmapped, h.mapped]
    constructor
    · rintro ⟨⟨q, range, hq, hx⟩, hne⟩
      refine ⟨q, range, update_other ?_ hq, hx⟩
      rintro rfl
      exact hne range (Option.some.inj (hp.symm.trans hq)) hx
    · rintro ⟨q, range, hq, hx⟩
      obtain ⟨-, hk⟩ | ⟨hpq, hk⟩ := update_owner hq
      · cases hk
      · refine ⟨⟨q, range, hk, hx⟩, ?_⟩
        rintro range' rfl hx'
        exact Set.disjoint_left.mp (h.apart q p _ _ hpq hk hp) hx hx'
  nonempty q k hq := by
    obtain ⟨-, hk⟩ | ⟨-, hk⟩ := update_owner hq
    · cases hk
    · exact h.nonempty q k hk

omit [DecidableEq Place] in
/-- It does not matter what the places are called. -/
theorem Accounted.renamed (h : Accounted owner m) (e : Place ≃ Place) :
    Accounted (fun p => owner (e p)) m where
  apart p q g g' hne hp hq := h.apart (e p) (e q) g g' (fun heq => hne (e.injective heq)) hp hq
  heap block := (h.heap block).trans e.exists_congr_right.symm
  mapped x := (h.mapped x).trans e.exists_congr_right.symm
  nonempty p g hp := h.nonempty (e p) g hp

theorem Accounted.moved (h : Accounted owner m) (hp : owner p = some g) (hq : owner q = none) :
    Accounted (Function.update (Function.update owner p none) q (some g)) m := by
  have hne : p ≠ q := by
    rintro rfl
    rw [hp] at hq
    cases hq
  have hswap : (fun r => owner (Equiv.swap p q r)) =
      Function.update (Function.update owner p none) q (some g) := by
    funext r
    by_cases hrq : r = q
    · rw [hrq, Equiv.swap_apply_right, Function.update_self, hp]
    · rw [Function.update_of_ne hrq]
      by_cases hrp : r = p
      · rw [hrp, Equiv.swap_apply_left, Function.update_self, hq]
      · rw [Equiv.swap_apply_of_ne_of_ne hrp hrq, Function.update_of_ne hrp]
  rw [← hswap]
  exact h.renamed (Equiv.swap p q)

end Rules

end Argon2Rust.Ownership
