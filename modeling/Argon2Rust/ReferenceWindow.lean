import Argon2Rust.Segment

set_option autoImplicit false

namespace Argon2Rust.ReferenceWindow
open Parameters IndexAlpha Segment

theorem mod_cases (t n : ℕ) (h : t < 2 * n) :
    (t < n ∧ t % n = t) ∨ (n ≤ t ∧ t % n = t - n) := by
  by_cases hlt : t < n
  · exact Or.inl ⟨hlt, Nat.mod_eq_of_lt hlt⟩
  · refine Or.inr ⟨by omega, ?_⟩
    rw [Nat.mod_eq_sub_mod (by omega), Nat.mod_eq_of_lt (by omega)]

section Column
variable (S pass slice index r : ℕ) (same : Bool)

/-- The window `[start, start + area)`, cut at the end of the lane. -/
theorem column_cases (hS : 2 ≤ S) (hslice : slice < 4) (hindex : index < S)
    (hpos : 0 < area S pass slice index same) :
    ∃ d < area S pass slice index same,
      (start S pass slice + d < 4 * S ∧
        column S pass slice index r same = start S pass slice + d) ∨
      (4 * S ≤ start S pass slice + d ∧
        column S pass slice index r same = start S pass slice + d - 4 * S) := by
  have hrel := relative_lt _ r hpos
  refine ⟨_, hrel, ?_⟩
  unfold column
  refine mod_cases _ _ ?_
  generalize relative (area S pass slice index same) r = d at hrel
  unfold area at hrel
  unfold start
  interval_cases slice <;> split_ifs at * <;> omega

theorem column_lt (hS : 2 ≤ S) : column S pass slice index r same < 4 * S :=
  Nat.mod_lt _ (by omega)

/-- A reference into the own lane stays two blocks behind the current column or
lies in one of the following slices, which hold the previous pass. -/
theorem column_same (hS : 2 ≤ S) (hslice : slice < 4) (hindex : index < S)
    (h2 : pass = 0 → slice = 0 → 2 ≤ index) :
    column S pass slice index r true + 2 ≤ slice * S + index ∨
      (pass ≠ 0 ∧ (slice + 1) * S ≤ column S pass slice index r true ∧
        (slice * S + index = 0 → column S pass slice index r true + 2 ≤ 4 * S)) := by
  have harea : area S pass slice index true =
      (if pass = 0 then slice * S else 3 * S) + index - 1 := by
    simp only [area, if_true, true_or]
  have hpos : 0 < area S pass slice index true := by
    rw [harea]
    interval_cases slice <;> split_ifs with hp <;> omega
  obtain ⟨d, hd, hcol⟩ := column_cases S pass slice index r true hS hslice hindex hpos
  rw [harea] at hd
  unfold start at hcol
  interval_cases slice <;> by_cases hp : pass = 0 <;>
    simp only [hp, if_true, if_false, true_or, false_or, OfNat.zero_ne_ofNat,
      Nat.reduceEqDiff] at hd hcol ⊢ <;>
    omega

/-- A reference into another lane lies in an earlier slice of this pass or in a
later slice, which holds the previous pass. -/
theorem column_cross (hS : 2 ≤ S) (hslice : slice < 4) (hindex : index < S)
    (h0 : pass = 0 → 0 < slice) :
    column S pass slice index r false < slice * S ∨
      (pass ≠ 0 ∧ (slice + 1) * S ≤ column S pass slice index r false) := by
  have harea : area S pass slice index false ≤ if pass = 0 then slice * S else 3 * S := by
    simp only [area, Bool.false_eq_true, if_false, Nat.add_zero]
    exact Nat.sub_le _ _
  have hpos : 0 < area S pass slice index false := by
    unfold area
    interval_cases slice <;> split_ifs with hp <;> omega
  obtain ⟨d, hd, hcol⟩ := column_cases S pass slice index r false hS hslice hindex hpos
  replace hd := hd.trans_le harea
  unfold start at hcol
  have hlt := column_lt S pass slice index r false hS
  interval_cases slice <;> by_cases hp : pass = 0 <;>
    simp only [hp, if_true, if_false, true_or, false_or, or_false,
      Nat.reduceEqDiff] at hd hcol ⊢ <;>
    omega

end Column

/-- The access of iteration `n` of a segment when the pseudo-random value is `pseudoRand`. -/
def accessAt (inst : Instance) (pos : Position) (n : ℕ) (pseudoRand : UInt64) : Access :=
  let c := (Cursor.at inst pos n).rotate inst
  ⟨c.prevOffset, refOffset inst pos c.i pseudoRand, c.currOffset⟩

theorem iterate_cursor (inst : Instance) (pos : Position) (arena : Arena) (n : ℕ)
    (hn : n ≤ segmentBlocks inst pos) (wf : WellFormed inst) (hs : InSlice inst pos) :
    ((blockStep inst pos)^[n] (segmentStart inst pos, arena)).1.cursor = Cursor.at inst pos n := by
  induction n with
  | zero =>
    change (segmentStart inst pos).cursor = Cursor.start inst pos
    unfold segmentStart
    dsimp only
    split_ifs <;> rfl
  | succ n ih =>
    have hc := ih (by omega)
    have hi := (cursorOk_at wf hs n (by omega)).index
    unfold segmentBlocks at hn
    rw [Function.iterate_succ_apply', blockStep_cursor, hc, Cursor.at_succ]
    rw [hc, UInt32.lt_iff_toNat_lt, hi]
    omega

theorem access_eq_accessAt (inst : Instance) (pos : Position) (s : SegmentState) (arena : Arena)
    (n : ℕ) (h : s.cursor = Cursor.at inst pos n) :
    access inst pos s arena = accessAt inst pos n (draw inst pos s arena).1 := by
  unfold access accessAt
  dsimp only
  rw [draw_cursor, h]

/-- The blocks of the arena, by offset, that are final when iteration `i` of a segment of
pass 0 starts, whatever the other lanes of the slice have done. -/
def WrittenBefore (inst : Instance) (pos : Position) (i o : ℕ) : Prop :=
  o < inst.memoryBlocks.toNat ∧
    (o % inst.laneLength.toNat < 2 ∨
      o % inst.laneLength.toNat < pos.slice.toNat * inst.segmentLength.toNat ∨
      (o / inst.laneLength.toNat = pos.lane.toNat ∧
        o % inst.laneLength.toNat < pos.slice.toNat * inst.segmentLength.toNat + i))

structure AccessOk (inst : Instance) (pos : Position) (i : ℕ) (a : Access) : Prop where
  curr_eq : a.currOffset.toNat = blockOffset inst pos i
  prev_eq : a.prevOffset.toNat = prevBlockOffset inst pos i
  curr_lt : a.currOffset.toNat < inst.memoryBlocks.toNat
  prev_lt : a.prevOffset.toNat < inst.memoryBlocks.toNat
  ref_lt : a.refOffset.toNat < inst.memoryBlocks.toNat
  curr_ne_prev : a.currOffset ≠ a.prevOffset
  curr_ne_ref : a.currOffset ≠ a.refOffset
  ref_ne_prev : a.refOffset ≠ a.prevOffset
  written : pos.pass = 0 → WrittenBefore inst pos i a.refOffset.toNat
  prev_written : pos.pass = 0 → WrittenBefore inst pos i a.prevOffset.toNat
  other_lane : a.refOffset.toNat / inst.laneLength.toNat ≠ pos.lane.toNat →
    a.refOffset.toNat % inst.laneLength.toNat < pos.slice.toNat * inst.segmentLength.toNat ∨
      (pos.slice.toNat + 1) * inst.segmentLength.toNat ≤
        a.refOffset.toNat % inst.laneLength.toNat
  own_slice : a.refOffset.toNat / inst.laneLength.toNat = pos.lane.toNat →
    a.refOffset.toNat % inst.laneLength.toNat + 2 ≤
        pos.slice.toNat * inst.segmentLength.toNat + i ∨
      (pos.slice.toNat + 1) * inst.segmentLength.toNat ≤
        a.refOffset.toNat % inst.laneLength.toNat

theorem low32_toNat (x : UInt64) : (x &&& 0xFFFFFFFF).toUInt32.toNat = x.toNat % 2 ^ 32 := by
  rw [UInt64.toNat_toUInt32, UInt64.toNat_and]
  change (x.toNat &&& (2 ^ 32 - 1)) % 2 ^ 32 = _
  rw [Nat.and_two_pow_sub_one_eq_mod, Nat.mod_mod]

theorem refLane_first (inst : Instance) (pos : Position) (pseudoRand : UInt64)
    (hp : pos.pass = 0) (h0 : pos.slice = 0) :
    decide (refLane inst pos pseudoRand = pos.lane) = true := by
  unfold refLane
  rw [if_pos ⟨hp, h0⟩]
  exact decide_eq_true rfl

section Window
variable {inst : Instance} {pos : Position} (wf : WellFormed inst) (hs : InSlice inst pos)
include wf hs

theorem refLane_lt (pseudoRand : UInt64) :
    (refLane inst pos pseudoRand).toNat < inst.lanes.toNat := by
  have hpos := wf.lanes_pos
  unfold refLane
  split_ifs with h
  · exact hs.lane_lt
  · have hmod : (pseudoRand >>> 32 % inst.lanes.toUInt64).toNat < inst.lanes.toNat := by
      rw [UInt64.toNat_mod, UInt32.toNat_toUInt64]
      exact Nat.mod_lt _ hpos
    have hm := inst.lanes.toNat_lt
    rw [UInt64.toNat_toUInt32, Nat.mod_eq_of_lt (by omega)]
    exact hmod

omit wf in
theorem inRange_index (i : UInt32) (hi : i.toNat < inst.segmentLength.toNat)
    (hstart : (startingIndex pos).toNat ≤ i.toNat) : InRange inst { pos with index := i } where
  lane_lt := hs.lane_lt
  slice_lt := hs.slice_lt
  index_lt := hi
  index_ge := by
    intro hp h0
    rw [startingIndex_toNat, if_pos ⟨hp, h0⟩] at hstart
    exact hstart

def refColumn (inst : Instance) (pos : Position) (i : ℕ) (pseudoRand : UInt64) : ℕ :=
  column inst.segmentLength.toNat pos.pass.toNat pos.slice.toNat i (pseudoRand.toNat % 2 ^ 32)
    (refLane inst pos pseudoRand = pos.lane)

omit hs in
theorem refColumn_lt (i : ℕ) (pseudoRand : UInt64) :
    refColumn inst pos i pseudoRand < inst.laneLength.toNat := by
  rw [wf.lane_eq]
  exact column_lt _ _ _ _ _ _ wf.segment_ge

theorem refOffset_toNat (i : UInt32) (hi : i.toNat < inst.segmentLength.toNat)
    (hstart : (startingIndex pos).toNat ≤ i.toNat) (pseudoRand : UInt64) :
    (refOffset inst pos i pseudoRand).toNat =
      (refLane inst pos pseudoRand).toNat * inst.laneLength.toNat +
        refColumn inst pos i.toNat pseudoRand := by
  have hidx := indexAlpha_toNat wf (inRange_index hs i hi hstart)
    (pseudoRand &&& 0xFFFFFFFF).toUInt32 (refLane inst pos pseudoRand = pos.lane)
    (refLane_first inst pos pseudoRand)
  rw [low32_toNat] at hidx
  have hlane := lane_fits wf _ (refLane_lt wf hs pseudoRand)
  have hcol := @refColumn_lt inst pos wf i.toNat pseudoRand
  have hm := inst.memoryBlocks.toNat_lt
  unfold refColumn at hcol ⊢
  unfold refOffset
  dsimp only at hidx ⊢
  rw [UInt64.toNat_toUInt32, UInt64.toNat_add, UInt64.toNat_mul, UInt32.toNat_toUInt64,
    UInt32.toNat_toUInt64, UInt32.toNat_toUInt64, hidx, Nat.mul_comm inst.laneLength.toNat]
  rw [Nat.mod_eq_of_lt (a := _ * _) (by omega), Nat.mod_eq_of_lt (a := _ + _) (by omega),
    Nat.mod_eq_of_lt (by omega)]

/-- Where the reference column of block `i` can lie. -/
theorem refColumn_window (i : ℕ) (hi : i < inst.segmentLength.toNat)
    (hstart : (startingIndex pos).toNat ≤ i) (pseudoRand : UInt64) :
    (refLane inst pos pseudoRand = pos.lane →
      refColumn inst pos i pseudoRand + 2 ≤
          pos.slice.toNat * inst.segmentLength.toNat + i ∨
        (pos.pass ≠ 0 ∧
          (pos.slice.toNat + 1) * inst.segmentLength.toNat ≤ refColumn inst pos i pseudoRand ∧
          (pos.slice.toNat * inst.segmentLength.toNat + i = 0 →
            refColumn inst pos i pseudoRand + 2 ≤ inst.laneLength.toNat))) ∧
    (refLane inst pos pseudoRand ≠ pos.lane →
      refColumn inst pos i pseudoRand < pos.slice.toNat * inst.segmentLength.toNat ∨
        (pos.pass ≠ 0 ∧
          (pos.slice.toNat + 1) * inst.segmentLength.toNat ≤ refColumn inst pos i pseudoRand)) := by
  have hpass := zero_iff_toNat pos.pass
  have hsz := zero_iff_toNat pos.slice
  rw [ne_eq pos.pass, hpass, wf.lane_eq]
  unfold refColumn
  constructor
  · intro hl
    rw [decide_eq_true hl]
    refine column_same _ _ _ _ _ wf.segment_ge hs.slice_lt hi ?_
    intro hp h0
    rw [startingIndex_toNat, if_pos ⟨hpass.mpr hp, hsz.mpr h0⟩] at hstart
    exact hstart
  · intro hl
    rw [decide_eq_false hl]
    refine column_cross _ _ _ _ _ wf.segment_ge hs.slice_lt hi ?_
    intro hp
    refine Nat.pos_of_ne_zero fun h0 => hl ?_
    exact of_decide_eq_true (refLane_first inst pos pseudoRand (hpass.mpr hp) (hsz.mpr h0))

end Window

theorem columnOfOffset (l z L : ℕ) (hz : z < L) : (l * L + z) / L = l ∧ (l * L + z) % L = z := by
  have hL : 0 < L := by omega
  constructor
  · rw [Nat.add_comm, Nat.add_mul_div_right _ _ hL, Nat.div_eq_of_lt hz, Nat.zero_add]
  · rw [Nat.mul_comm, Nat.mul_add_mod, Nat.mod_eq_of_lt hz]

theorem column_inj (l l' z z' L : ℕ) (hz : z < L) (hz' : z' < L) (h : l * L + z = l' * L + z') :
    l = l' ∧ z = z' := by
  obtain ⟨hd, hm⟩ := columnOfOffset l z L hz
  obtain ⟨hd', hm'⟩ := columnOfOffset l' z' L hz'
  rw [h] at hd hm
  exact ⟨hd.symm.trans hd', hm.symm.trans hm'⟩

section Window
variable {inst : Instance} {pos : Position} (wf : WellFormed inst) (hs : InSlice inst pos)
include wf hs

theorem prevBlockOffset_column (i : ℕ) (hi : i < inst.segmentLength.toNat) :
    ∃ z < inst.laneLength.toNat,
      prevBlockOffset inst pos i = pos.lane.toNat * inst.laneLength.toNat + z ∧
      ((1 ≤ pos.slice.toNat * inst.segmentLength.toNat + i ∧
          z + 1 = pos.slice.toNat * inst.segmentLength.toNat + i) ∨
        (pos.slice.toNat * inst.segmentLength.toNat + i = 0 ∧ z + 1 = inst.laneLength.toNat)) := by
  have hslice := slice_le wf hs
  unfold prevBlockOffset blockOffset
  by_cases h0 : pos.slice.toNat * inst.segmentLength.toNat + i = 0
  · refine ⟨inst.laneLength.toNat - 1, by omega, ?_, by omega⟩
    rw [if_pos h0]
    omega
  · refine ⟨pos.slice.toNat * inst.segmentLength.toNat + i - 1, by omega, ?_, by omega⟩
    rw [if_neg h0]
    omega

section Iteration
variable (n : ℕ) (hn : n < segmentBlocks inst pos) (pseudoRand : UInt64)
include hn

theorem accessAt_curr :
    (accessAt inst pos n pseudoRand).currOffset.toNat =
      blockOffset inst pos ((startingIndex pos).toNat + n) := by
  unfold segmentBlocks at hn
  exact ((cursorOk_at wf hs n (by unfold segmentBlocks; omega)).rotate wf hs (by omega)).2.1

theorem accessAt_prev :
    (accessAt inst pos n pseudoRand).prevOffset.toNat =
      prevBlockOffset inst pos ((startingIndex pos).toNat + n) := by
  unfold segmentBlocks at hn
  exact ((cursorOk_at wf hs n (by unfold segmentBlocks; omega)).rotate wf hs (by omega)).2.2

theorem accessAt_ref :
    (accessAt inst pos n pseudoRand).refOffset.toNat =
      (refLane inst pos pseudoRand).toNat * inst.laneLength.toNat +
        refColumn inst pos ((startingIndex pos).toNat + n) pseudoRand := by
  unfold segmentBlocks at hn
  have hi := ((cursorOk_at wf hs n (by unfold segmentBlocks; omega)).rotate wf hs (by omega)).1
  have href := refOffset_toNat wf hs ((Cursor.at inst pos n).rotate inst).i (by omega) (by omega)
    pseudoRand
  rw [hi] at href
  exact href

theorem accessAt_columns :
    ∃ z < inst.laneLength.toNat,
      (accessAt inst pos n pseudoRand).prevOffset.toNat =
        pos.lane.toNat * inst.laneLength.toNat + z ∧
      (accessAt inst pos n pseudoRand).currOffset.toNat =
        pos.lane.toNat * inst.laneLength.toNat +
          (pos.slice.toNat * inst.segmentLength.toNat + ((startingIndex pos).toNat + n)) ∧
      ((1 ≤ pos.slice.toNat * inst.segmentLength.toNat + ((startingIndex pos).toNat + n) ∧
          z + 1 = pos.slice.toNat * inst.segmentLength.toNat + ((startingIndex pos).toNat + n)) ∨
        (pos.slice.toNat * inst.segmentLength.toNat + ((startingIndex pos).toNat + n) = 0 ∧
          z + 1 = inst.laneLength.toNat)) ∧
      pos.slice.toNat * inst.segmentLength.toNat + ((startingIndex pos).toNat + n) <
        (pos.slice.toNat + 1) * inst.segmentLength.toNat ∧
      (pos.slice.toNat + 1) * inst.segmentLength.toNat ≤ inst.laneLength.toNat := by
  have hcurr := accessAt_curr wf hs n hn pseudoRand
  have hprev := accessAt_prev wf hs n hn pseudoRand
  have hslice := slice_le wf hs
  have hslen : (pos.slice.toNat + 1) * inst.segmentLength.toNat =
      pos.slice.toNat * inst.segmentLength.toNat + inst.segmentLength.toNat := Nat.succ_mul _ _
  unfold segmentBlocks at hn
  obtain ⟨z, hz, hpz, hzc⟩ := prevBlockOffset_column wf hs ((startingIndex pos).toNat + n)
    (by omega)
  unfold blockOffset at hcurr
  rw [Nat.add_assoc] at hcurr
  exact ⟨z, hz, hprev.trans hpz, hcurr, hzc, by omega, by omega⟩

theorem accessAt_bounds :
    (accessAt inst pos n pseudoRand).currOffset.toNat < inst.memoryBlocks.toNat ∧
      (accessAt inst pos n pseudoRand).prevOffset.toNat < inst.memoryBlocks.toNat ∧
      (accessAt inst pos n pseudoRand).refOffset.toNat < inst.memoryBlocks.toNat := by
  obtain ⟨z, hz, hprev, hcurr, -, hlt, hle⟩ := accessAt_columns wf hs n hn pseudoRand
  have href := accessAt_ref wf hs n hn pseudoRand
  have hcol := @refColumn_lt inst pos wf ((startingIndex pos).toNat + n) pseudoRand
  have hrfit := lane_fits wf _ (refLane_lt wf hs pseudoRand)
  have hlane := lane_fits wf _ hs.lane_lt
  omega

theorem accessAt_distinct :
    (accessAt inst pos n pseudoRand).currOffset ≠ (accessAt inst pos n pseudoRand).prevOffset ∧
      (accessAt inst pos n pseudoRand).currOffset ≠ (accessAt inst pos n pseudoRand).refOffset ∧
      (accessAt inst pos n pseudoRand).refOffset ≠
        (accessAt inst pos n pseudoRand).prevOffset := by
  obtain ⟨z, hz, hprev, hcurr, hzc, hlt, hle⟩ := accessAt_columns wf hs n hn pseudoRand
  have href := accessAt_ref wf hs n hn pseudoRand
  have hcol := @refColumn_lt inst pos wf ((startingIndex pos).toNat + n) pseudoRand
  have hL := wf.lane_eq
  have hseg := wf.segment_ge
  unfold segmentBlocks at hn
  have hwin := (refColumn_window wf hs _ (show (startingIndex pos).toNat + n < _ by omega)
    (by omega) pseudoRand).1
  refine ⟨?_, ?_, ?_⟩
  · intro h
    have hz' := column_inj _ _ _ _ _ (by omega) hz
      (hcurr.symm.trans ((congrArg UInt32.toNat h).trans hprev))
    omega
  · intro h
    have hz' := column_inj _ _ _ _ _ (by omega) hcol
      (hcurr.symm.trans ((congrArg UInt32.toNat h).trans href))
    have hw := hwin (UInt32.toNat_inj.mp hz'.1.symm)
    omega
  · intro h
    have hz' := column_inj _ _ _ _ _ hcol hz
      (href.symm.trans ((congrArg UInt32.toNat h).trans hprev))
    have hw := hwin (UInt32.toNat_inj.mp hz'.1)
    omega

/-- In pass 0 both blocks read are final when the iteration starts. -/
theorem accessAt_written (hp : pos.pass = 0) :
    WrittenBefore inst pos ((startingIndex pos).toNat + n)
        (accessAt inst pos n pseudoRand).refOffset.toNat ∧
      WrittenBefore inst pos ((startingIndex pos).toNat + n)
        (accessAt inst pos n pseudoRand).prevOffset.toNat := by
  obtain ⟨z, hz, hprev, -, hzc, -, -⟩ := accessAt_columns wf hs n hn pseudoRand
  have href := accessAt_ref wf hs n hn pseudoRand
  have hbounds := accessAt_bounds wf hs n hn pseudoRand
  have hcol := @refColumn_lt inst pos wf ((startingIndex pos).toNat + n) pseudoRand
  have hseg := wf.segment_ge
  obtain ⟨hrd, hrm⟩ := columnOfOffset (refLane inst pos pseudoRand).toNat _ _ hcol
  obtain ⟨hpd, hpm⟩ := columnOfOffset pos.lane.toNat z _ hz
  unfold segmentBlocks at hn
  have hwin := refColumn_window wf hs _ (show (startingIndex pos).toNat + n < _ by omega)
    (by omega) pseudoRand
  refine ⟨⟨hbounds.2.2, ?_⟩, ⟨hbounds.2.1, ?_⟩⟩
  · rw [href, hrd, hrm]
    by_cases hl : refLane inst pos pseudoRand = pos.lane
    · rcases hwin.1 hl with hw | ⟨hne, -⟩
      · exact Or.inr (Or.inr ⟨congrArg UInt32.toNat hl, by omega⟩)
      · exact absurd hp hne
    · rcases hwin.2 hl with hw | ⟨hne, -⟩
      · exact Or.inr (Or.inl hw)
      · exact absurd hp hne
  · rw [hprev, hpd, hpm]
    rcases hzc with ⟨-, hzc⟩ | ⟨hzero, -⟩
    · exact Or.inr (Or.inr ⟨rfl, by omega⟩)
    · have hs0 : pos.slice = 0 := by
        rw [← UInt32.toNat_inj]
        rcases Nat.eq_zero_or_pos pos.slice.toNat with h | h
        · exact h
        · have := Nat.le_mul_of_pos_left inst.segmentLength.toNat h
          omega
      rw [startingIndex_toNat, if_pos ⟨hp, hs0⟩] at hzero
      omega

/-- The referenced block is outside the current slice of every other lane, and
at least two blocks back in the own one. -/
theorem accessAt_slice :
    ((accessAt inst pos n pseudoRand).refOffset.toNat / inst.laneLength.toNat ≠ pos.lane.toNat →
      (accessAt inst pos n pseudoRand).refOffset.toNat % inst.laneLength.toNat <
          pos.slice.toNat * inst.segmentLength.toNat ∨
        (pos.slice.toNat + 1) * inst.segmentLength.toNat ≤
          (accessAt inst pos n pseudoRand).refOffset.toNat % inst.laneLength.toNat) ∧
    ((accessAt inst pos n pseudoRand).refOffset.toNat / inst.laneLength.toNat = pos.lane.toNat →
      (accessAt inst pos n pseudoRand).refOffset.toNat % inst.laneLength.toNat + 2 ≤
          pos.slice.toNat * inst.segmentLength.toNat + ((startingIndex pos).toNat + n) ∨
        (pos.slice.toNat + 1) * inst.segmentLength.toNat ≤
          (accessAt inst pos n pseudoRand).refOffset.toNat % inst.laneLength.toNat) := by
  have href := accessAt_ref wf hs n hn pseudoRand
  have hcol := @refColumn_lt inst pos wf ((startingIndex pos).toNat + n) pseudoRand
  obtain ⟨hrd, hrm⟩ := columnOfOffset (refLane inst pos pseudoRand).toNat _ _ hcol
  unfold segmentBlocks at hn
  have hwin := refColumn_window wf hs _ (show (startingIndex pos).toNat + n < _ by omega)
    (by omega) pseudoRand
  rw [href, hrd, hrm]
  constructor
  · intro hl
    rcases hwin.2 (fun h => hl (congrArg UInt32.toNat h)) with hw | ⟨-, hw⟩
    · exact Or.inl hw
    · exact Or.inr hw
  · intro hl
    rcases hwin.1 (UInt32.toNat_inj.mp hl) with hw | ⟨-, hw, -⟩
    · exact Or.inl hw
    · exact Or.inr hw

theorem accessAt_ok :
    AccessOk inst pos ((startingIndex pos).toNat + n) (accessAt inst pos n pseudoRand) where
  curr_eq := accessAt_curr wf hs n hn pseudoRand
  prev_eq := accessAt_prev wf hs n hn pseudoRand
  curr_lt := (accessAt_bounds wf hs n hn pseudoRand).1
  prev_lt := (accessAt_bounds wf hs n hn pseudoRand).2.1
  ref_lt := (accessAt_bounds wf hs n hn pseudoRand).2.2
  curr_ne_prev := (accessAt_distinct wf hs n hn pseudoRand).1
  curr_ne_ref := (accessAt_distinct wf hs n hn pseudoRand).2.1
  ref_ne_prev := (accessAt_distinct wf hs n hn pseudoRand).2.2
  written := fun hp => (accessAt_written wf hs n hn pseudoRand hp).1
  prev_written := fun hp => (accessAt_written wf hs n hn pseudoRand hp).2
  other_lane := (accessAt_slice wf hs n hn pseudoRand).1
  own_slice := (accessAt_slice wf hs n hn pseudoRand).2

end Iteration

end Window

end Argon2Rust.ReferenceWindow
