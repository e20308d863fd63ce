import Argon2Rust.Tiling
import Mathlib.Data.Set.Lattice
import Mathlib.Order.CompletePartialOrder

set_option autoImplicit false

namespace Argon2Rust.AddressSpace
open Tiling

def addresses (range : Piece) : Set ℕ := Set.Ico range.1 (range.1 + range.2)

/-- The pages that the range has a part in. -/
def touched (page : ℕ) (range : Piece) : Set ℕ := {x | ∃ y ∈ addresses range, y / page = x / page}

def map (page : ℕ) (mapped : Set ℕ) (range : Piece) : Set ℕ := mapped ∪ touched page range

/-- A start inside a page and an empty range are refused. -/
def unmap (page : ℕ) (mapped : Set ℕ) (range : Piece) : Set ℕ :=
  if page ∣ range.1 ∧ range.2 ≠ 0 then mapped \ touched page range else mapped

structure Whole (page : ℕ) (range : Piece) : Prop where
  start : page ∣ range.1
  length : page ∣ range.2

section Pages
variable {page : ℕ} {range : Piece}

theorem touched_whole (hpage : 0 < page) (h : Whole page range) :
    touched page range = addresses range := by
  obtain ⟨a, ha⟩ := h.start
  obtain ⟨n, hn⟩ := h.length
  have hpages (y : ℕ) : y ∈ addresses range ↔ a ≤ y / page ∧ y / page < a + n := by
    unfold addresses
    rw [Set.mem_Ico, ha, hn, ← Nat.mul_add, Nat.le_div_iff_mul_le hpage, Nat.div_lt_iff_lt_mul hpage,
      Nat.mul_comm a, Nat.mul_comm (a + n)]
  ext x
  constructor
  · rintro ⟨y, hy, hxy⟩
    rw [hpages, ← hxy]
    exact (hpages y).mp hy
  · intro hx
    exact ⟨x, hx, rfl⟩

theorem unmap_whole (hpage : 0 < page) (h : Whole page range) (mapped : Set ℕ) :
    unmap page mapped range = mapped \ addresses range := by
  unfold unmap
  rw [touched_whole hpage h]
  by_cases hzero : range.2 = 0
  · have hempty : addresses range = ∅ := by
      unfold addresses
      rw [hzero, Nat.add_zero, Set.Ico_self]
    rw [if_neg fun hc => hc.2 hzero, hempty, Set.sdiff_empty]
  · rw [if_pos ⟨h.start, hzero⟩]

theorem map_whole (hpage : 0 < page) (h : Whole page range) (mapped : Set ℕ) :
    map page mapped range = mapped ∪ addresses range := by
  unfold map
  rw [touched_whole hpage h]

theorem unmapAll_whole (hpage : 0 < page) (ranges : List Piece) (h : ∀ range ∈ ranges, Whole page range)
    (mapped : Set ℕ) (x : ℕ) :
    x ∈ ranges.foldl (unmap page) mapped ↔ x ∈ mapped ∧ ∀ range ∈ ranges, x ∉ addresses range := by
  induction ranges generalizing mapped with
  | nil => simp
  | cons range ranges ih =>
    rw [List.forall_mem_cons] at h
    rw [List.foldl_cons, ih h.2, unmap_whole hpage h.1, Set.mem_sdiff, List.forall_mem_cons, and_assoc]

end Pages

section Trimming

theorem covers_iff (x : ℕ) (range : Piece) : covers x range = true ↔ x ∈ addresses range :=
  decide_eq_true_iff

theorem tiles_kept {a b : ℕ} {before after : List Piece} {kept : Piece}
    (h : Tiles a (before ++ kept :: after) b) (x : ℕ) :
    (a ≤ x ∧ x < b) ∧ (∀ range ∈ before ++ after, x ∉ addresses range) ↔ x ∈ addresses kept := by
  have hcount := h.countP x
  have hrest : (∀ range ∈ before ++ after, x ∉ addresses range) ↔
      before.countP (covers x) + after.countP (covers x) = 0 := by
    rw [← List.countP_append, List.countP_eq_zero]
    simp only [covers_iff]
  rw [List.countP_append, List.countP_cons] at hcount
  rw [hrest, ← covers_iff]
  by_cases hin : a ≤ x ∧ x < b
  · rw [if_pos hin] at hcount
    by_cases hkept : covers x kept = true
    · rw [if_pos hkept] at hcount
      exact iff_of_true ⟨hin, by omega⟩ hkept
    · rw [if_neg hkept] at hcount
      refine iff_of_false (fun hc => ?_) hkept
      have hzero := hc.2
      omega
  · rw [if_neg hin] at hcount
    refine iff_of_false (fun hc => hin hc.1) fun hkept => ?_
    rw [if_pos hkept] at hcount
    omega

/-- Mapping a fresh range and unmapping what surrounds a part of it maps that part. -/
theorem trimmed {page : ℕ} (hpage : 0 < page) {mapping kept : Piece} {before after : List Piece}
    (h : Tiles mapping.1 (before ++ kept :: after) (mapping.1 + mapping.2))
    (hmapping : Whole page mapping) (hslack : ∀ range ∈ before ++ after, Whole page range)
    {mapped : Set ℕ} (hfresh : Disjoint mapped (addresses mapping)) :
    (before ++ after).foldl (unmap page) (map page mapped mapping) = mapped ∪ addresses kept := by
  ext x
  have houter (hx : x ∈ mapped) : ∀ range ∈ before ++ after, x ∉ addresses range := by
    intro range hrange hin
    have hmem : range ∈ before ++ kept :: after := by
      rw [List.mem_append] at hrange ⊢
      exact hrange.imp_right (List.mem_cons_of_mem kept)
    obtain ⟨hlow, hhigh⟩ := h.within range hmem
    exact Set.disjoint_left.mp hfresh hx ⟨hlow.trans hin.1, hin.2.trans_le hhigh⟩
  rw [unmapAll_whole hpage _ hslack, map_whole hpage hmapping, Set.mem_union, Set.mem_union,
    ← tiles_kept h x, or_and_right]
  exact or_congr (and_iff_left_of_imp houter) Iff.rfl

end Trimming

end Argon2Rust.AddressSpace
