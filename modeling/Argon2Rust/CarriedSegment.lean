import Argon2Rust.Fill
import Argon2Rust.PlainSegment
import Argon2Rust.RegisterBlock

set_option autoImplicit false

namespace Argon2Rust.CarriedSegment
open Parameters Compression IndexAlpha Segment ReferenceWindow RegisterBlock

/-- The variables of the segment and the register-resident previous block. -/
structure CarriedState (n m : ℕ) extends SegmentState where
  state : Registers n m

section Definitions
variable {n m : ℕ} (p : Passes n m) (inst : Instance) (pos : Position)

def segmentVariables : SegmentState := PlainSegment.segmentStart (nextAddresses p) inst pos

def segmentStart (arena : Arena) : CarriedState n m :=
  let s := segmentVariables p inst pos
  ⟨s, load (arena.block s.cursor.prevOffset)⟩

def draw (s : SegmentState) (arena : Arena) : UInt64 × SegmentState :=
  PlainSegment.draw (nextAddresses p) inst pos s arena

def blockStep (x : CarriedState n m × Arena) : CarriedState n m × Arena :=
  if x.1.cursor.i < inst.segmentLength then
    let d := draw p inst pos x.1.toSegmentState x.2
    let c := d.2.cursor
    let r := fillBlock p x.1.state (x.2.block (refOffset inst pos c.i d.1))
      (x.2.block c.currOffset) (withXor inst pos.pass)
    (⟨⟨c.next, d.2.addressBlock, d.2.inputBlock⟩, r.1⟩, x.2.store c.currOffset r.2)
  else x

def iteration (arena : Arena) (k : ℕ) : CarriedState n m × Arena :=
  (blockStep p inst pos)^[k] (segmentStart p inst pos arena, arena)

def fillSegment (arena : Arena) : Arena :=
  if inst.laneLength = 0 ∨ inst.lanes = 0 then arena
  else (iteration p inst pos arena inst.segmentLength.toNat).2

end Definitions

theorem blockStep_done {n m : ℕ} (p : Passes n m) (inst : Instance) (pos : Position)
    (x : CarriedState n m × Arena) (h : ¬ x.1.cursor.i < inst.segmentLength) :
    blockStep p inst pos x = x := if_neg h

/-- In every iteration of a loop the state holds `memory[prev_offset]`, a block of the
instance's memory: once `prev_offset` is rotated, and before that if no rotation is due. -/
def CarriesPrevious {n m : ℕ} (inst : Instance) (pos : Position)
    (loop : ℕ → CarriedState n m × Arena) : Prop :=
  ∀ k < segmentBlocks inst pos,
    let x := loop k
    let c := x.1.cursor.rotate inst
    x.1.cursor.i < inst.segmentLength ∧ c.prevOffset.toNat < inst.memoryBlocks.toNat ∧
      store x.1.state = x.2.block c.prevOffset ∧
      (x.1.cursor.currOffset % inst.laneLength ≠ 1 →
        store x.1.state = x.2.block x.1.cursor.prevOffset)

/-- The block an iteration calls previous: `memory[prev_offset]` with `prev_offset` rotated. -/
def prevBlock (inst : Instance) (c : Cursor) (arena : Arena) : Block :=
  arena.block (c.rotate inst).prevOffset

def scalarPart {n m : ℕ} (x : CarriedState n m × Arena) : SegmentState × Arena :=
  (x.1.toSegmentState, x.2)

section Steps
variable {n m : ℕ} {p : Passes n m} (hp : p.Scalar)
include hp

theorem nextAddresses_scalar : nextAddresses p = Compression.nextAddresses := by
  funext addressBlock inputBlock
  exact nextAddresses_eq hp addressBlock inputBlock

variable (inst : Instance) (pos : Position)

theorem segmentVariables_eq : segmentVariables p inst pos = Segment.segmentStart inst pos := by
  unfold segmentVariables
  rw [nextAddresses_scalar hp]
  rfl

theorem draw_eq (s : SegmentState) (arena : Arena) :
    draw p inst pos s arena = Segment.draw inst pos s arena := by
  unfold draw
  rw [nextAddresses_scalar hp]
  rfl

theorem fillBlock_carried (x : CarriedState n m × Arena)
    (hcarried : store x.1.state = prevBlock inst x.1.cursor x.2) :
    let d := Segment.draw inst pos x.1.toSegmentState x.2
    store (fillBlock p x.1.state (x.2.block (refOffset inst pos d.2.cursor.i d.1))
      (x.2.block d.2.cursor.currOffset) (withXor inst pos.pass)).1 =
        Fill.newBlock inst pos x.1.toSegmentState x.2 := by
  intro d
  rw [store_fillBlock hp, hcarried]
  unfold Fill.newBlock prevBlock
  dsimp only
  rw [Fill.access_prevOffset]
  rfl

theorem blockStep_active {x : CarriedState n m × Arena} (h : x.1.cursor.i < inst.segmentLength)
    (hcarried : store x.1.state = prevBlock inst x.1.cursor x.2) :
    scalarPart (blockStep p inst pos x) = Segment.blockStep inst pos (scalarPart x) ∧
      store (blockStep p inst pos x).1.state =
        Fill.newBlock inst pos x.1.toSegmentState x.2 := by
  have hblock := fillBlock_carried hp inst pos x hcarried
  have hscalar := Fill.blockStep_active inst pos x.1.toSegmentState x.2 h
  unfold blockStep
  rw [if_pos h]
  dsimp only
  rw [draw_eq hp inst pos]
  refine ⟨?_, hblock⟩
  unfold scalarPart
  rw [hscalar]
  refine Prod.ext rfl ?_
  exact congrArg (x.2.store _) hblock

end Steps

theorem block_store_self (arena : Arena) (o : UInt32) (b : Block) (h : o.toNat < arena.size) :
    (arena.store o b).block o = b := by
  unfold Arena.block Arena.store
  rw [Array.getD_eq_getD_getElem?, Array.getElem?_setIfInBounds_self_of_lt h]
  rfl

theorem blockStep_size (inst : Instance) (pos : Position) (x : SegmentState × Arena) :
    (Segment.blockStep inst pos x).2.size = x.2.size := by
  unfold Segment.blockStep Arena.store
  split_ifs
  · exact Array.size_setIfInBounds
  · rfl

theorem iterate_size (inst : Instance) (pos : Position) (x : SegmentState × Arena) (k : ℕ) :
    ((Segment.blockStep inst pos)^[k] x).2.size = x.2.size := by
  induction k with
  | zero => rfl
  | succ k ih => rw [Function.iterate_succ_apply', blockStep_size, ih]

section Offsets
variable {inst : Instance} {pos : Position} (wf : WellFormed inst) (hs : InSlice inst pos)
include wf hs

theorem start_rotate (h : 0 < segmentBlocks inst pos) :
    ((Cursor.start inst pos).rotate inst).prevOffset = (Cursor.start inst pos).prevOffset := by
  have hok := cursorOk_start wf hs
  have hi : (startingIndex pos).toNat < inst.segmentLength.toNat := by
    unfold segmentBlocks at h
    omega
  have hrotate := (hok.rotate wf hs hi).2.2
  have hcolumn : pos.slice.toNat * inst.segmentLength.toNat + (startingIndex pos).toNat ≠ 1 := by
    have hseg := wf.segment_ge
    have hstart := startingIndex_toNat pos
    rcases Nat.eq_zero_or_pos pos.slice.toNat with h0 | h0
    · rw [h0, Nat.zero_mul]
      split_ifs at hstart <;> omega
    · have hmul := Nat.le_mul_of_pos_left inst.segmentLength.toNat h0
      omega
  apply UInt32.toNat_inj.mp
  rw [hrotate]
  unfold prevBlockOffset
  rcases hok.prev with ⟨h1, hprev⟩ | ⟨h1, hprev⟩
  · rw [if_neg (by omega), hprev]
  · rw [if_pos (by omega), hprev]
    unfold blockOffset
    omega

/-- The block made last is the previous one of the next iteration. -/
theorem prevOffset_next (k : ℕ) (hk : k + 1 < segmentBlocks inst pos) :
    ((Cursor.at inst pos (k + 1)).rotate inst).prevOffset =
      ((Cursor.at inst pos k).rotate inst).currOffset := by
  have hi : (startingIndex pos).toNat + (k + 1) < inst.segmentLength.toNat := by
    unfold segmentBlocks at hk
    omega
  have hnext := ((cursorOk_at wf hs (k + 1) (by omega)).rotate wf hs hi).2.2
  have hlast := ((cursorOk_at wf hs k (by omega)).rotate wf hs (by omega)).2.1
  apply UInt32.toNat_inj.mp
  rw [hnext, hlast]
  unfold prevBlockOffset blockOffset
  rw [if_neg (by omega)]
  omega

end Offsets

section Run
variable {n m : ℕ} {p : Passes n m} (hp : p.Scalar) {inst : Instance} {pos : Position}
  (wf : WellFormed inst) (hs : InSlice inst pos) (arena : Arena)
  (hsize : inst.memoryBlocks.toNat ≤ arena.size)
include hp wf hs hsize

/-- The carried loop is the scalar one, and its state is the block the next iteration reads. -/
theorem iteration_scalar (k : ℕ) (hk : k ≤ segmentBlocks inst pos) :
    scalarPart (iteration p inst pos arena k) =
        (Segment.blockStep inst pos)^[k] (Segment.segmentStart inst pos, arena) ∧
      (k < segmentBlocks inst pos →
        store (iteration p inst pos arena k).1.state =
          prevBlock inst (iteration p inst pos arena k).1.cursor
            (iteration p inst pos arena k).2) := by
  induction k with
  | zero =>
    have hvariables := segmentVariables_eq hp inst pos
    refine ⟨Prod.ext hvariables rfl, fun hlt => ?_⟩
    have hcursor : (segmentVariables p inst pos).cursor = Cursor.start inst pos := by
      rw [hvariables]
      exact iterate_cursor inst pos arena 0 (Nat.zero_le _) wf hs
    change store (load (arena.block (segmentVariables p inst pos).cursor.prevOffset)) =
      arena.block ((segmentVariables p inst pos).cursor.rotate inst).prevOffset
    rw [store_load hp.size, hcursor, start_rotate wf hs hlt]
  | succ k ih =>
    obtain ⟨hscalar, hcarried⟩ := ih (by omega)
    have hold := hcarried (by omega)
    have hcursor : (iteration p inst pos arena k).1.cursor = Cursor.at inst pos k := by
      rw [← iterate_cursor inst pos arena k (by omega) wf hs, ← hscalar]
      rfl
    have hactive := (Fill.active_iff wf hs (by omega) hcursor).mpr (by omega)
    have hsizek : (iteration p inst pos arena k).2.size = arena.size := by
      have hiter := iterate_size inst pos (Segment.segmentStart inst pos, arena) k
      rw [← hscalar] at hiter
      exact hiter
    obtain ⟨hstep, hstate⟩ := blockStep_active hp inst pos hactive hold
    have hsucc : iteration p inst pos arena (k + 1) =
        blockStep p inst pos (iteration p inst pos arena k) :=
      Function.iterate_succ_apply' _ _ _
    have hnext : scalarPart (iteration p inst pos arena (k + 1)) =
        (Segment.blockStep inst pos)^[k + 1] (Segment.segmentStart inst pos, arena) := by
      rw [hsucc, hstep, hscalar, Function.iterate_succ_apply']
    refine ⟨hnext, fun hlt => ?_⟩
    have hcursor' : (iteration p inst pos arena (k + 1)).1.cursor = Cursor.at inst pos (k + 1) := by
      rw [← iterate_cursor inst pos arena (k + 1) (by omega) wf hs, ← hnext]
      rfl
    have hstored : (iteration p inst pos arena (k + 1)).2 =
        (iteration p inst pos arena k).2.store ((Cursor.at inst pos k).rotate inst).currOffset
          (Fill.newBlock inst pos (iteration p inst pos arena k).1.toSegmentState
            (iteration p inst pos arena k).2) := by
      have harena := congrArg Prod.snd hstep
      rw [← hsucc, scalarPart, scalarPart, Fill.blockStep_active _ _ _ _ hactive] at harena
      rw [harena]
      dsimp only
      rw [access_eq_accessAt _ _ _ _ k hcursor]
      rfl
    have hbound := (accessAt_bounds wf hs k (by omega) 0).1
    unfold prevBlock
    rw [hcursor', hstored, prevOffset_next wf hs k hlt, block_store_self _ _ _ (by
      rw [hsizek]
      exact hbound.trans_le hsize), hsucc, hstate]

theorem iteration_cursor (k : ℕ) (hk : k ≤ segmentBlocks inst pos) :
    (iteration p inst pos arena k).1.cursor = Cursor.at inst pos k := by
  rw [← iterate_cursor inst pos arena k hk wf hs,
    ← (iteration_scalar hp wf hs arena hsize k hk).1]
  rfl

theorem carriesPrevious : CarriesPrevious inst pos (iteration p inst pos arena) := by
  intro k hk x c
  have hcursor := iteration_cursor hp wf hs arena hsize k hk.le
  have hcarried := (iteration_scalar hp wf hs arena hsize k hk.le).2 hk
  have hbound := (accessAt_bounds wf hs k hk 0).2.1
  refine ⟨(Fill.active_iff wf hs hk.le hcursor).mpr hk, ?_, hcarried, fun hkeep => ?_⟩
  · change ((iteration p inst pos arena k).1.cursor.rotate inst).prevOffset.toNat < _
    rw [hcursor]
    exact hbound
  · have hrotate : x.1.cursor.rotate inst = x.1.cursor := if_neg hkeep
    rw [← hrotate]
    exact hcarried

theorem fillSegment_scalar : fillSegment p inst pos arena = Segment.fillSegment inst pos arena := by
  obtain ⟨hscalar, -⟩ := iteration_scalar hp wf hs arena hsize (segmentBlocks inst pos) le_rfl
  have hcursor := iteration_cursor hp wf hs arena hsize (segmentBlocks inst pos) le_rfl
  have hdone := (Fill.active_iff wf hs le_rfl hcursor).not.mpr (Nat.lt_irrefl _)
  have hall : iteration p inst pos arena inst.segmentLength.toNat =
      iteration p inst pos arena (segmentBlocks inst pos) :=
    Fill.iterate_segmentLength wf (blockStep_done p inst pos _ hdone)
  unfold fillSegment
  rw [if_neg wf.not_degenerate, Fill.fillSegment_eq wf hs, ← hscalar, hall]
  rfl

end Run

end Argon2Rust.CarriedSegment
