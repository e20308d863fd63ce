import Argon2Rust.Interleaving
import Argon2Rust.ReferenceWindow

set_option autoImplicit false

/-!
# The fill, sequential and scheduled

`fillMemoryBlocksSt` is the single-threaded nest of passes, slices and lanes. A
`Schedule` of a slice is an order in which its lanes take their block steps, the
steps of one lane staying in their own order; `fillSliceWith` runs one. The
steps of two lanes of a slice commute, because neither lane reads or writes a
block of the segment that the other lane is filling.
-/
namespace Argon2Rust.Fill
open Parameters Compression IndexAlpha Segment ReferenceWindow Interleaving

def lanePosition (pass slice : UInt32) (lane : ℕ) : Position := ⟨pass, UInt32.ofNat lane, slice, 0⟩

def fillSliceSt (inst : Instance) (pass slice : UInt32) (arena : Arena) : Arena :=
  (List.range inst.lanes.toNat).foldl
    (fun arena lane => fillSegment inst (lanePosition pass slice lane) arena) arena

def fillPass (inst : Instance) (pass : UInt32) (arena : Arena) : Arena :=
  (List.range syncPoints.toNat).foldl
    (fun arena slice => fillSliceSt inst pass (UInt32.ofNat slice) arena) arena

def fillPasses (inst : Instance) (arena : Arena) : Arena :=
  (List.range inst.passes.toNat).foldl
    (fun arena pass => fillPass inst (UInt32.ofNat pass) arena) arena

def fillMemoryBlocksSt (inst : Instance) (arena : Arena) : Except Error Arena :=
  if inst.lanes = 0 then .error .incorrectParameter else .ok (fillPasses inst arena)

structure Schedule (inst : Instance) (pass slice : UInt32) where
  order : List (Fin inst.lanes.toNat)
  complete : ∀ lane, order.count lane = segmentBlocks inst (lanePosition pass slice lane)

def laneStep (inst : Instance) (pass slice : UInt32) (lane : Fin inst.lanes.toNat) :
    SegmentState × Arena → SegmentState × Arena :=
  blockStep inst (lanePosition pass slice lane)

def sliceStart (inst : Instance) (pass slice : UInt32) (arena : Arena) :
    World (Fin inst.lanes.toNat) SegmentState Arena :=
  ⟨fun lane => segmentStart inst (lanePosition pass slice lane), arena⟩

def fillSliceWith (inst : Instance) (pass slice : UInt32) (schedule : Schedule inst pass slice)
    (arena : Arena) : Arena :=
  ((sliceStart inst pass slice arena).run (laneStep inst pass slice) schedule.order).shared

def fillPassWith (inst : Instance) (schedules : ∀ pass slice, Schedule inst pass slice)
    (pass : UInt32) (arena : Arena) : Arena :=
  (List.range syncPoints.toNat).foldl
    (fun arena slice =>
      fillSliceWith inst pass (UInt32.ofNat slice) (schedules pass (UInt32.ofNat slice)) arena) arena

def fillPassesWith (inst : Instance) (schedules : ∀ pass slice, Schedule inst pass slice)
    (arena : Arena) : Arena :=
  (List.range inst.passes.toNat).foldl
    (fun arena pass => fillPassWith inst schedules (UInt32.ofNat pass) arena) arena

/-- `fill_memory_blocks_traced` with the `parallel` feature: the pool's run is any schedule. -/
def fillMemoryBlocks (inst : Instance) (schedules : ∀ pass slice, Schedule inst pass slice)
    (arena : Arena) : Except Error Arena :=
  if inst.lanes = 0 then .error .incorrectParameter
  else if inst.threads > 1 ∧ inst.lanes > 1 then .ok (fillPassesWith inst schedules arena)
  else .ok (fillPasses inst arena)

theorem block_store_of_ne (arena : Arena) (o o' : UInt32) (b : Block) (h : o ≠ o') :
    (arena.store o b).block o' = arena.block o' := by
  unfold Arena.block Arena.store
  rw [Array.getD_eq_getD_getElem?, Array.getD_eq_getD_getElem?, Array.getElem?_setIfInBounds_ne]
  exact fun hn => h (UInt32.toNat_inj.mp hn)

theorem store_comm (arena : Arena) (o o' : UInt32) (b b' : Block) (h : o ≠ o') :
    (arena.store o b).store o' b' = (arena.store o' b').store o b :=
  Array.setIfInBounds_comm b b' fun hn => h (UInt32.toNat_inj.mp hn)

theorem access_prevOffset (inst : Instance) (pos : Position) (s : SegmentState) (arena : Arena) :
    (access inst pos s arena).prevOffset = (s.cursor.rotate inst).prevOffset :=
  congrArg Cursor.prevOffset (draw_cursor inst pos s arena)

theorem draw_store (inst : Instance) (pos : Position) (s : SegmentState) (arena : Arena)
    (o : UInt32) (b : Block) (h : o ≠ (s.cursor.rotate inst).prevOffset) :
    draw inst pos s (arena.store o b) = draw inst pos s arena := by
  unfold draw
  dsimp only
  rw [block_store_of_ne _ _ _ _ h]

theorem access_store (inst : Instance) (pos : Position) (s : SegmentState) (arena : Arena)
    (o : UInt32) (b : Block) (h : o ≠ (s.cursor.rotate inst).prevOffset) :
    access inst pos s (arena.store o b) = access inst pos s arena := by
  unfold access
  rw [draw_store _ _ _ _ _ _ h]

def newBlock (inst : Instance) (pos : Position) (s : SegmentState) (arena : Arena) : Block :=
  let a := access inst pos s arena
  fillBlock (arena.block a.prevOffset) (arena.block a.refOffset) (arena.block a.currOffset)
    (withXor inst pos.pass)

def nextSegment (inst : Instance) (pos : Position) (s : SegmentState) (arena : Arena) :
    SegmentState :=
  let d := draw inst pos s arena
  ⟨d.2.cursor.next, d.2.addressBlock, d.2.inputBlock⟩

theorem blockStep_active (inst : Instance) (pos : Position) (s : SegmentState) (arena : Arena)
    (h : s.cursor.i < inst.segmentLength) :
    blockStep inst pos (s, arena) = (nextSegment inst pos s arena,
      arena.store (access inst pos s arena).currOffset (newBlock inst pos s arena)) := if_pos h

theorem nextSegment_store (inst : Instance) (pos : Position) (s : SegmentState) (arena : Arena)
    (o : UInt32) (b : Block) (h : o ≠ (s.cursor.rotate inst).prevOffset) :
    nextSegment inst pos s (arena.store o b) = nextSegment inst pos s arena := by
  unfold nextSegment
  rw [draw_store _ _ _ _ _ _ h]

theorem newBlock_store (inst : Instance) (pos : Position) (s : SegmentState) (arena : Arena)
    (o : UInt32) (b : Block) (hp : o ≠ (access inst pos s arena).prevOffset)
    (hr : o ≠ (access inst pos s arena).refOffset)
    (hc : o ≠ (access inst pos s arena).currOffset) :
    newBlock inst pos s (arena.store o b) = newBlock inst pos s arena := by
  have hprev := access_prevOffset inst pos s arena
  unfold newBlock
  rw [access_store _ _ _ _ _ _ (hprev ▸ hp)]
  dsimp only
  rw [block_store_of_ne _ _ _ _ hp, block_store_of_ne _ _ _ _ hr, block_store_of_ne _ _ _ _ hc]

/-- The local invariant of a lane: some number of its blocks is done. -/
def LaneProgress (inst : Instance) (pos : Position) (s : SegmentState) : Prop :=
  ∃ n ≤ segmentBlocks inst pos, s.cursor = Cursor.at inst pos n

section Lanes
variable {inst : Instance} (wf : WellFormed inst)
include wf

theorem active_iff {pos : Position} {s : SegmentState} {n : ℕ} (hs : InSlice inst pos)
    (hn : n ≤ segmentBlocks inst pos) (hc : s.cursor = Cursor.at inst pos n) :
    s.cursor.i < inst.segmentLength ↔ n < segmentBlocks inst pos := by
  have hi := (cursorOk_at wf hs n hn).index
  have hle := @startingIndex_le inst pos wf
  unfold segmentBlocks at hn ⊢
  rw [hc, UInt32.lt_iff_toNat_lt, hi]
  omega

theorem laneProgress_step {pos : Position} {s : SegmentState} (hs : InSlice inst pos)
    (h : LaneProgress inst pos s) (arena : Arena) :
    LaneProgress inst pos (blockStep inst pos (s, arena)).1 := by
  obtain ⟨n, hn, hc⟩ := h
  by_cases hlt : s.cursor.i < inst.segmentLength
  · refine ⟨n + 1, (active_iff wf hs hn hc).mp hlt, ?_⟩
    rw [blockStep_cursor _ _ _ hlt, hc, Cursor.at_succ]
  · rw [blockStep_done _ _ _ hlt]
    exact ⟨n, hn, hc⟩

section Pair
variable {pos pos' : Position} (hs : InSlice inst pos) (hs' : InSlice inst pos')
  (hslice : pos'.slice = pos.slice) (hne : pos.lane ≠ pos'.lane) {s s' : SegmentState}
  (h : LaneProgress inst pos s) (h' : LaneProgress inst pos' s')
include hs hs' hslice hne h h'

/-- The block one lane is writing is none of the three that another lane touches. -/
theorem access_other_lane (ha : s.cursor.i < inst.segmentLength)
    (ha' : s'.cursor.i < inst.segmentLength) (arena arena' : Arena) :
    (access inst pos' s' arena').currOffset ≠ (access inst pos s arena).prevOffset ∧
      (access inst pos' s' arena').currOffset ≠ (access inst pos s arena).refOffset ∧
      (access inst pos' s' arena').currOffset ≠ (access inst pos s arena).currOffset := by
  obtain ⟨n, hn, hc⟩ := h
  obtain ⟨n', hn', hc'⟩ := h'
  have hlt := (active_iff wf hs hn hc).mp ha
  have hlt' := (active_iff wf hs' hn' hc').mp ha'
  rw [access_eq_accessAt _ _ _ _ n hc, access_eq_accessAt _ _ _ _ n' hc']
  generalize (draw inst pos s arena).1 = r
  generalize (draw inst pos' s' arena').1 = r'
  have hlane : ¬ pos.lane.toNat = pos'.lane.toNat := fun hl => hne (UInt32.toNat_inj.mp hl)
  obtain ⟨z, hz, hprev, hcurr, -, hub, hle⟩ := accessAt_columns wf hs n hlt r
  obtain ⟨-, -, -, hcurr', -, hub', -⟩ := accessAt_columns wf hs' n' hlt' r'
  have hslices := accessAt_slice wf hs n hlt r
  rw [hslice] at hcurr' hub'
  obtain ⟨hd', hm'⟩ := columnOfOffset pos'.lane.toNat _ _ (hub'.trans_le hle)
  refine ⟨?_, ?_, ?_⟩
  · intro heq
    have hcol := column_inj _ _ _ _ _ (by omega) hz
      (hcurr'.symm.trans ((congrArg UInt32.toNat heq).trans hprev))
    exact hlane hcol.1.symm
  · intro heq
    rw [← heq, hcurr', hd', hm'] at hslices
    rcases hslices.1 (Ne.symm hlane) with hw | hw
    · omega
    · omega
  · intro heq
    have hcol := column_inj _ _ _ _ _ (by omega) (by omega)
      (hcurr'.symm.trans ((congrArg UInt32.toNat heq).trans hcurr))
    exact hlane hcol.1.symm

theorem blockStep_other_lane (arena : Arena) :
    blockStep inst pos (s, (blockStep inst pos' (s', arena)).2) =
      ((blockStep inst pos (s, arena)).1,
        (blockStep inst pos' (s', (blockStep inst pos (s, arena)).2)).2) := by
  by_cases ha : s.cursor.i < inst.segmentLength
  · by_cases ha' : s'.cursor.i < inst.segmentLength
    · obtain ⟨hp, hr, hc⟩ := access_other_lane wf hs hs' hslice hne h h' ha ha' arena arena
      obtain ⟨hp', hr', hc'⟩ := access_other_lane wf hs' hs hslice.symm (Ne.symm hne) h' h ha' ha
        arena arena
      have hprev := access_prevOffset inst pos s arena
      have hprev' := access_prevOffset inst pos' s' arena
      rw [blockStep_active _ _ _ _ ha', blockStep_active _ _ _ _ ha, blockStep_active _ _ _ _ ha]
      dsimp only
      rw [blockStep_active _ _ _ _ ha', nextSegment_store _ _ _ _ _ _ (hprev ▸ hp),
        newBlock_store _ _ _ _ _ _ hp hr hc, newBlock_store _ _ _ _ _ _ hp' hr' hc',
        access_store _ _ _ _ _ _ (hprev ▸ hp), access_store _ _ _ _ _ _ (hprev' ▸ hp')]
      exact Prod.ext rfl (store_comm _ _ _ _ _ hc)
    · rw [blockStep_done inst pos' _ ha', blockStep_done inst pos' _ ha']
  · rw [blockStep_done inst pos _ ha, blockStep_done inst pos _ ha]

end Pair

variable {pass slice : UInt32} (hslice : slice.toNat < 4)

omit wf in
theorem lanePosition_lane (lane : ℕ) (hl : lane < inst.lanes.toNat) :
    (lanePosition pass slice lane).lane.toNat = lane :=
  UInt32.toNat_ofNat_of_lt' (hl.trans inst.lanes.toNat_lt)

include hslice

omit wf in
theorem lanePosition_inSlice (lane : ℕ) (hl : lane < inst.lanes.toNat) :
    InSlice inst (lanePosition pass slice lane) where
  lane_lt := by
    rw [lanePosition_lane lane hl]
    exact hl
  slice_lt := hslice

theorem laneStep_commuting :
    Commuting (laneStep inst pass slice)
      (fun lane => LaneProgress inst (lanePosition pass slice lane)) := by
  have hin : ∀ a : Fin inst.lanes.toNat, InSlice inst (lanePosition pass slice a) :=
    fun a => lanePosition_inSlice hslice a a.isLt
  have hstep : ∀ a b : Fin inst.lanes.toNat, a ≠ b → ∀ la lb sh,
      LaneProgress inst (lanePosition pass slice a) la →
      LaneProgress inst (lanePosition pass slice b) lb →
      laneStep inst pass slice a (la, (laneStep inst pass slice b (lb, sh)).2) =
        ((laneStep inst pass slice a (la, sh)).1,
          (laneStep inst pass slice b (lb, (laneStep inst pass slice a (la, sh)).2)).2) := by
    intro a b hab la lb sh hla hlb
    refine blockStep_other_lane wf (hin a) (hin b) rfl ?_ hla hlb sh
    intro heq
    have hv := congrArg UInt32.toNat heq
    rw [lanePosition_lane a.val a.isLt, lanePosition_lane b.val b.isLt] at hv
    exact hab (Fin.ext hv)
  refine ⟨?_, ?_, ?_⟩
  · intro a l sh hl
    exact laneProgress_step wf (hin a) hl sh
  · intro a b hab la lb sh hla hlb
    rw [hstep a b hab la lb sh hla hlb]
  · intro a b hab la lb sh hla hlb
    rw [hstep a b hab la lb sh hla hlb]

omit hslice in
/-- A loop that stands still after `segmentBlocks` iterations has run its course by then. -/
theorem iterate_segmentLength {α : Type*} {pos : Position} {f : α → α} {x : α}
    (h : f (f^[segmentBlocks inst pos] x) = f^[segmentBlocks inst pos] x) :
    f^[inst.segmentLength.toNat] x = f^[segmentBlocks inst pos] x := by
  have hle := @startingIndex_le inst pos wf
  have hsplit : inst.segmentLength.toNat =
      (startingIndex pos).toNat + segmentBlocks inst pos := by
    unfold segmentBlocks
    omega
  rw [hsplit, Function.iterate_add_apply]
  exact Function.iterate_fixed h _

omit hslice in
/-- The guard of the loop stops a segment after `segmentBlocks` iterations. -/
theorem fillSegment_eq {pos : Position} (hs : InSlice inst pos) (arena : Arena) :
    fillSegment inst pos arena =
      ((blockStep inst pos)^[segmentBlocks inst pos] (segmentStart inst pos, arena)).2 := by
  have hc := iterate_cursor inst pos arena (segmentBlocks inst pos) le_rfl wf hs
  have hdone := (active_iff wf hs le_rfl hc).not.mpr (Nat.lt_irrefl _)
  unfold fillSegment
  rw [if_neg wf.not_degenerate, iterate_segmentLength wf (blockStep_done inst pos _ hdone)]

theorem fillSliceWith_eq (schedule : Schedule inst pass slice) (arena : Arena) :
    fillSliceWith inst pass slice schedule arena = fillSliceSt inst pass slice arena := by
  have hrun := run_shared_of_count (@laneStep_commuting inst wf pass slice hslice)
    (fun lane => segmentBlocks inst (lanePosition pass slice lane)) (List.finRange inst.lanes.toNat)
    (List.nodup_finRange _) List.mem_finRange schedule.order schedule.complete
    (sliceStart inst pass slice arena) ?_
  · unfold fillSliceWith fillSliceSt
    rw [hrun, ← List.map_coe_finRange_eq_range, List.foldl_map]
    refine List.foldl_ext _ _ _ fun sh lane _ => ?_
    exact (fillSegment_eq wf (lanePosition_inSlice hslice lane lane.isLt) sh).symm
  · intro lane
    refine ⟨0, Nat.zero_le _, ?_⟩
    have hs := @lanePosition_inSlice inst pass slice hslice lane lane.isLt
    exact iterate_cursor inst _ arena 0 (Nat.zero_le _) wf hs

end Lanes

theorem fillPassWith_eq {inst : Instance} (wf : WellFormed inst)
    (schedules : ∀ pass slice, Schedule inst pass slice) (pass : UInt32) (arena : Arena) :
    fillPassWith inst schedules pass arena = fillPass inst pass arena := by
  refine List.foldl_ext _ _ _ fun sh slice hmem => ?_
  have hlt := List.mem_range.mp hmem
  refine fillSliceWith_eq wf ?_ _ sh
  rw [UInt32.toNat_ofNat_of_lt' (hlt.trans (by decide))]
  exact hlt

theorem fillPassesWith_eq {inst : Instance} (wf : WellFormed inst)
    (schedules : ∀ pass slice, Schedule inst pass slice) (arena : Arena) :
    fillPassesWith inst schedules arena = fillPasses inst arena :=
  List.foldl_ext _ _ _ fun sh pass _ => fillPassWith_eq wf schedules (UInt32.ofNat pass) sh

/-- The whole fill does not depend on the schedules of its slices. -/
theorem fillMemoryBlocks_eq {inst : Instance} (wf : WellFormed inst)
    (schedules : ∀ pass slice, Schedule inst pass slice) (arena : Arena) :
    fillMemoryBlocks inst schedules arena = fillMemoryBlocksSt inst arena := by
  unfold fillMemoryBlocks fillMemoryBlocksSt
  rw [fillPassesWith_eq wf, ite_self]

end Argon2Rust.Fill
