import Argon2Rust.Compression
import Argon2Rust.IndexAlpha

set_option autoImplicit false

/-!
# `fill_segment` of the scalar backend

The loop is `blockStep`, one iteration on the segment's own variables and the
shared arena; a finished segment stays put, so iterating it `segment_length`
times is the whole `while` loop. `draw` is the part of an iteration up to the
pseudo-random value and `access` the three offsets the iteration touches. Reads
outside the arena would be undefined in the source; they are given a value here
and shown never to happen.
-/
namespace Argon2Rust.Segment
open Parameters Compression IndexAlpha

abbrev Arena := Array Block

def Arena.block (arena : Arena) (offset : UInt32) : Block := arena.getD offset.toNat Block.zero

def Arena.store (arena : Arena) (offset : UInt32) (b : Block) : Arena :=
  arena.setIfInBounds offset.toNat b

/-- An arena in which no word is zero and no two words are equal. -/
def countedArena (blocks : ℕ) : Arena :=
  Array.ofFn fun o : Fin blocks => Vector.ofFn fun w : Fin 128 =>
    UInt64.ofNat (128 * o.val + w.val + 1)

theorem countedArena_size (blocks : ℕ) : (countedArena blocks).size = blocks := Array.size_ofFn

def dataIndependentAddressing (inst : Instance) (pos : Position) : Bool :=
  inst.algorithm = .argon2i ||
    (inst.algorithm = .argon2id && pos.pass = 0 && pos.slice < syncPoints / 2)

def withXor (inst : Instance) (pass : UInt32) : Bool := inst.version ≠ .v0x10 && pass ≠ 0

def addressInputBlock (inst : Instance) (pos : Position) : Block :=
  (((((Block.zero.set 0 pos.pass.toUInt64).set 1 pos.lane.toUInt64).set 2 pos.slice.toUInt64).set 3
    inst.memoryBlocks.toUInt64).set 4 inst.passes.toUInt64).set 5 inst.algorithm.asU32.toUInt64

def startingIndex (pos : Position) : UInt32 := if pos.pass = 0 ∧ pos.slice = 0 then 2 else 0

structure Cursor where
  i : UInt32
  currOffset : UInt32
  prevOffset : UInt32
  deriving DecidableEq, Repr

def Cursor.start (inst : Instance) (pos : Position) : Cursor :=
  let currOffset := pos.lane * inst.laneLength + pos.slice * inst.segmentLength + startingIndex pos
  { i := startingIndex pos
    currOffset := currOffset
    prevOffset :=
      if currOffset % inst.laneLength = 0 then currOffset + inst.laneLength - 1 else currOffset - 1 }

def Cursor.rotate (inst : Instance) (c : Cursor) : Cursor :=
  if c.currOffset % inst.laneLength = 1 then { c with prevOffset := c.currOffset - 1 } else c

def Cursor.next (c : Cursor) : Cursor := ⟨c.i + 1, c.currOffset + 1, c.prevOffset + 1⟩

structure SegmentState where
  cursor : Cursor
  addressBlock : Block
  inputBlock : Block

def segmentStart (inst : Instance) (pos : Position) : SegmentState :=
  let inputBlock :=
    if dataIndependentAddressing inst pos then addressInputBlock inst pos else Block.zero
  if pos.pass = 0 ∧ pos.slice = 0 ∧ dataIndependentAddressing inst pos then
    let r := nextAddresses Block.zero inputBlock
    ⟨Cursor.start inst pos, r.1, r.2⟩
  else ⟨Cursor.start inst pos, Block.zero, inputBlock⟩

theorem slot_lt (i : UInt32) : (i % 128).toNat < 128 := by
  rw [UInt32.toNat_mod]
  exact Nat.mod_lt _ (by decide)

def slotWord (addressBlock : Block) (i : UInt32) : UInt64 :=
  addressBlock.get ⟨(i % 128).toNat, slot_lt i⟩

def draw (inst : Instance) (pos : Position) (s : SegmentState) (arena : Arena) :
    UInt64 × SegmentState :=
  let c := s.cursor.rotate inst
  if dataIndependentAddressing inst pos then
    let r :=
      if c.i % 128 = 0 then nextAddresses s.addressBlock s.inputBlock
      else (s.addressBlock, s.inputBlock)
    (slotWord r.1 c.i, ⟨c, r.1, r.2⟩)
  else ((arena.block c.prevOffset)[0], ⟨c, s.addressBlock, s.inputBlock⟩)

def refLane (inst : Instance) (pos : Position) (pseudoRand : UInt64) : UInt32 :=
  if pos.pass = 0 ∧ pos.slice = 0 then pos.lane
  else ((pseudoRand >>> 32) % inst.lanes.toUInt64).toUInt32

def refOffset (inst : Instance) (pos : Position) (i : UInt32) (pseudoRand : UInt64) : UInt32 :=
  let lane := refLane inst pos pseudoRand
  let refIndex := indexAlpha inst { pos with index := i } (pseudoRand &&& 0xFFFFFFFF).toUInt32
    (lane = pos.lane)
  (inst.laneLength.toUInt64 * lane.toUInt64 + refIndex.toUInt64).toUInt32

structure Access where
  prevOffset : UInt32
  refOffset : UInt32
  currOffset : UInt32
  deriving DecidableEq, Repr

def access (inst : Instance) (pos : Position) (s : SegmentState) (arena : Arena) : Access :=
  let d := draw inst pos s arena
  ⟨d.2.cursor.prevOffset, refOffset inst pos d.2.cursor.i d.1, d.2.cursor.currOffset⟩

def blockStep (inst : Instance) (pos : Position) (x : SegmentState × Arena) : SegmentState × Arena :=
  if x.1.cursor.i < inst.segmentLength then
    let d := draw inst pos x.1 x.2
    let a := access inst pos x.1 x.2
    let curr := fillBlock (x.2.block a.prevOffset) (x.2.block a.refOffset)
      (x.2.block a.currOffset) (withXor inst pos.pass)
    (⟨d.2.cursor.next, d.2.addressBlock, d.2.inputBlock⟩, x.2.store a.currOffset curr)
  else x

def fillSegment (inst : Instance) (pos : Position) (arena : Arena) : Arena :=
  if inst.laneLength = 0 ∨ inst.lanes = 0 then arena
  else ((blockStep inst pos)^[inst.segmentLength.toNat] (segmentStart inst pos, arena)).2

/-- The number of iterations the loop of `fillSegment` really makes. -/
def segmentBlocks (inst : Instance) (pos : Position) : ℕ :=
  inst.segmentLength.toNat - (startingIndex pos).toNat

/-- The accesses of the segment, in the order the loop makes them. -/
def segmentTrace (inst : Instance) (pos : Position) (arena : Arena) : List Access :=
  (List.range (segmentBlocks inst pos)).map fun n =>
    let x := (blockStep inst pos)^[n] (segmentStart inst pos, arena)
    access inst pos x.1 x.2

def blockOffset (inst : Instance) (pos : Position) (i : ℕ) : ℕ :=
  pos.lane.toNat * inst.laneLength.toNat + pos.slice.toNat * inst.segmentLength.toNat + i

/-- The block before the `i`-th of the segment; the last one of the lane before the first. -/
def prevBlockOffset (inst : Instance) (pos : Position) (i : ℕ) : ℕ :=
  if pos.slice.toNat * inst.segmentLength.toNat + i = 0 then
    pos.lane.toNat * inst.laneLength.toNat + inst.laneLength.toNat - 1
  else blockOffset inst pos i - 1

def Cursor.at (inst : Instance) (pos : Position) (n : ℕ) : Cursor :=
  (fun c => (c.rotate inst).next)^[n] (Cursor.start inst pos)

theorem startingIndex_toNat (pos : Position) :
    (startingIndex pos).toNat = if pos.pass = 0 ∧ pos.slice = 0 then 2 else 0 := by
  unfold startingIndex
  split_ifs <;> rfl

theorem draw_cursor (inst : Instance) (pos : Position) (s : SegmentState) (arena : Arena) :
    (draw inst pos s arena).2.cursor = s.cursor.rotate inst := by
  unfold draw
  dsimp only
  split_ifs <;> rfl

theorem blockStep_cursor (inst : Instance) (pos : Position) (x : SegmentState × Arena)
    (h : x.1.cursor.i < inst.segmentLength) :
    (blockStep inst pos x).1.cursor = (x.1.cursor.rotate inst).next := by
  unfold blockStep
  rw [if_pos h]
  dsimp only
  rw [draw_cursor]

theorem blockStep_done (inst : Instance) (pos : Position) (x : SegmentState × Arena)
    (h : ¬ x.1.cursor.i < inst.segmentLength) : blockStep inst pos x = x := if_neg h

theorem Cursor.at_succ (inst : Instance) (pos : Position) (n : ℕ) :
    Cursor.at inst pos (n + 1) = ((Cursor.at inst pos n).rotate inst).next :=
  Function.iterate_succ_apply' _ _ _

/-- A lane and a slice of a well formed instance. -/
structure InSlice (inst : Instance) (pos : Position) : Prop where
  lane_lt : pos.lane.toNat < inst.lanes.toNat
  slice_lt : pos.slice.toNat < 4

theorem blockOffset_mod {inst : Instance} {pos : Position} (c : UInt32) (i : ℕ)
    (h : c.toNat = blockOffset inst pos i)
    (hi : pos.slice.toNat * inst.segmentLength.toNat + i < inst.laneLength.toNat) :
    (c % inst.laneLength).toNat = pos.slice.toNat * inst.segmentLength.toNat + i := by
  rw [UInt32.toNat_mod, h]
  unfold blockOffset
  rw [Nat.add_assoc, Nat.mul_add_mod_self_right, Nat.mod_eq_of_lt hi]

theorem blockOffset_mod_eq {inst : Instance} {pos : Position} (c k : UInt32) (i : ℕ)
    (h : c.toNat = blockOffset inst pos i)
    (hi : pos.slice.toNat * inst.segmentLength.toNat + i < inst.laneLength.toNat) :
    c % inst.laneLength = k ↔ pos.slice.toNat * inst.segmentLength.toNat + i = k.toNat := by
  rw [← UInt32.toNat_inj, blockOffset_mod c i h hi]

section Cursors
variable {inst : Instance} {pos : Position} (wf : WellFormed inst) (hs : InSlice inst pos)
include wf

theorem startingIndex_le : (startingIndex pos).toNat ≤ inst.segmentLength.toNat := by
  have h := wf.segment_ge
  rw [startingIndex_toNat]
  split_ifs <;> omega

include hs

theorem slice_le : pos.slice.toNat * inst.segmentLength.toNat + inst.segmentLength.toNat ≤
    inst.laneLength.toNat := by
  have h : (pos.slice.toNat + 1) * inst.segmentLength.toNat ≤ 4 * inst.segmentLength.toNat :=
    Nat.mul_le_mul_right _ (by have := hs.slice_lt; omega)
  rw [Nat.succ_mul] at h
  rw [wf.lane_eq]
  exact h

theorem start_currOffset :
    (Cursor.start inst pos).currOffset.toNat = blockOffset inst pos (startingIndex pos).toNat := by
  have hlane := lane_fits wf _ hs.lane_lt
  have hslice := slice_le wf hs
  have hidx := @startingIndex_le inst pos wf
  have hm := inst.memoryBlocks.toNat_lt
  have hmul : (pos.lane * inst.laneLength).toNat = pos.lane.toNat * inst.laneLength.toNat := by
    rw [UInt32.toNat_mul, Nat.mod_eq_of_lt (by omega)]
  have hmul' : (pos.slice * inst.segmentLength).toNat =
      pos.slice.toNat * inst.segmentLength.toNat := by
    rw [UInt32.toNat_mul, Nat.mod_eq_of_lt (by omega)]
  change (pos.lane * inst.laneLength + pos.slice * inst.segmentLength + startingIndex pos).toNat = _
  rw [UInt32.toNat_add, UInt32.toNat_add, hmul, hmul']
  unfold blockOffset
  omega

end Cursors

/-- The loop variables at the start of iteration `i`. After the wrap-around
iteration `prevOffset` runs one lane ahead until the next rotation. -/
structure CursorOk (inst : Instance) (pos : Position) (i : ℕ) (c : Cursor) : Prop where
  index : c.i.toNat = i
  curr : c.currOffset.toNat = blockOffset inst pos i
  prev : (1 ≤ pos.slice.toNat * inst.segmentLength.toNat + i ∧
      c.prevOffset.toNat = blockOffset inst pos i - 1) ∨
    (pos.slice.toNat * inst.segmentLength.toNat + i ≤ 1 ∧
      c.prevOffset.toNat = blockOffset inst pos i + inst.laneLength.toNat - 1)

section CursorRun
variable {inst : Instance} {pos : Position} (wf : WellFormed inst) (hs : InSlice inst pos)
include wf hs

theorem cursorOk_start : CursorOk inst pos (startingIndex pos).toNat (Cursor.start inst pos) := by
  have hcurr := start_currOffset wf hs
  have hlane := lane_fits wf _ hs.lane_lt
  have hslice := slice_le wf hs
  have hseg := wf.segment_ge
  have hL := wf.lane_eq
  have hm := inst.memoryBlocks.toNat_lt
  have hidx := @startingIndex_le inst pos wf
  have hcol : pos.slice.toNat * inst.segmentLength.toNat + (startingIndex pos).toNat <
      inst.laneLength.toNat := by
    rw [startingIndex_toNat]
    split_ifs with h0
    · rw [h0.2]
      simp only [UInt32.reduceToNat]
      omega
    · omega
  have hmod := blockOffset_mod_eq _ 0 _ hcurr hcol
  have hprev : (Cursor.start inst pos).prevOffset =
      if (Cursor.start inst pos).currOffset % inst.laneLength = 0 then
        (Cursor.start inst pos).currOffset + inst.laneLength - 1
      else (Cursor.start inst pos).currOffset - 1 := rfl
  refine ⟨rfl, hcurr, ?_⟩
  unfold blockOffset at hcurr ⊢
  by_cases h0 : (Cursor.start inst pos).currOffset % inst.laneLength = 0
  · have hc := hmod.mp h0
    simp only [UInt32.reduceToNat] at hc
    right
    rw [hprev, if_pos h0, UInt32.toNat_sub, UInt32.toNat_add, hcurr]
    simp only [UInt32.reduceToNat]
    omega
  · have hc : ¬ pos.slice.toNat * inst.segmentLength.toNat + (startingIndex pos).toNat = 0 :=
      fun h => h0 (hmod.mpr h)
    left
    rw [hprev, if_neg h0, UInt32.toNat_sub, hcurr]
    simp only [UInt32.reduceToNat]
    omega

theorem CursorOk.rotate {i : ℕ} {c : Cursor} (h : CursorOk inst pos i c)
    (hi : i < inst.segmentLength.toNat) :
    (c.rotate inst).i.toNat = i ∧ (c.rotate inst).currOffset.toNat = blockOffset inst pos i ∧
      (c.rotate inst).prevOffset.toNat = prevBlockOffset inst pos i := by
  have hslice := slice_le wf hs
  have hlane := lane_fits wf _ hs.lane_lt
  have hm := inst.memoryBlocks.toNat_lt
  have hmod := blockOffset_mod_eq _ 1 _ h.curr (by omega)
  obtain ⟨hidx, hcurr, hprev⟩ := h
  unfold Cursor.rotate prevBlockOffset
  unfold blockOffset at hcurr hprev ⊢
  by_cases h1 : c.currOffset % inst.laneLength = 1
  · have hc := hmod.mp h1
    simp only [UInt32.reduceToNat] at hc
    rw [if_pos h1, if_neg (by omega)]
    refine ⟨hidx, hcurr, ?_⟩
    change (c.currOffset - 1).toNat = _
    rw [UInt32.toNat_sub, hcurr]
    simp only [UInt32.reduceToNat]
    omega
  · have hc : ¬ pos.slice.toNat * inst.segmentLength.toNat + i = 1 := fun h => h1 (hmod.mpr h)
    rw [if_neg h1]
    refine ⟨hidx, hcurr, ?_⟩
    split_ifs with h0
    · omega
    · omega

theorem CursorOk.next {i : ℕ} {c : Cursor} (h : CursorOk inst pos i c)
    (hi : i < inst.segmentLength.toNat) : CursorOk inst pos (i + 1) (c.rotate inst).next := by
  obtain ⟨hidx, hcurr, hprev⟩ := h.rotate wf hs hi
  have hslice := slice_le wf hs
  have hlane := lane_fits wf _ hs.lane_lt
  have hm := inst.memoryBlocks.toNat_lt
  unfold prevBlockOffset at hprev
  unfold blockOffset at hcurr hprev
  refine ⟨?_, ?_, ?_⟩
  · change ((c.rotate inst).i + 1).toNat = _
    rw [UInt32.toNat_add, hidx]
    simp only [UInt32.reduceToNat]
    omega
  · change ((c.rotate inst).currOffset + 1).toNat = _
    rw [UInt32.toNat_add, hcurr]
    simp only [UInt32.reduceToNat, blockOffset]
    omega
  · change _ ∧ ((c.rotate inst).prevOffset + 1).toNat = _ ∨
      _ ∧ ((c.rotate inst).prevOffset + 1).toNat = _
    rw [UInt32.toNat_add, hprev]
    simp only [UInt32.reduceToNat, blockOffset]
    split_ifs <;> omega

theorem cursorOk_at (n : ℕ) (hn : n ≤ segmentBlocks inst pos) :
    CursorOk inst pos ((startingIndex pos).toNat + n) (Cursor.at inst pos n) := by
  induction n with
  | zero => exact cursorOk_start wf hs
  | succ n ih =>
    unfold segmentBlocks at hn ih
    rw [Cursor.at_succ]
    exact (ih (by omega)).next wf hs (by omega)

end CursorRun

end Argon2Rust.Segment
