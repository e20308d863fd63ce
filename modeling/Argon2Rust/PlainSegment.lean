import Argon2Rust.Segment

set_option autoImplicit false

namespace Argon2Rust.PlainSegment
open Parameters Compression IndexAlpha Segment

/-- What a backend puts under the skeleton. -/
structure BlockOps where
  fillBlock : Block → Block → Block → Bool → Block
  nextAddresses : Block → Block → Block × Block

def BlockOps.scalar : BlockOps := ⟨Compression.fillBlock, Compression.nextAddresses⟩

section Variables
variable (nextAddresses : Block → Block → Block × Block) (inst : Instance) (pos : Position)

def segmentStart : SegmentState :=
  let inputBlock :=
    if dataIndependentAddressing inst pos then addressInputBlock inst pos else Block.zero
  if pos.pass = 0 ∧ pos.slice = 0 ∧ dataIndependentAddressing inst pos then
    let r := nextAddresses Block.zero inputBlock
    ⟨Cursor.start inst pos, r.1, r.2⟩
  else ⟨Cursor.start inst pos, Block.zero, inputBlock⟩

def draw (s : SegmentState) (arena : Arena) : UInt64 × SegmentState :=
  let c := s.cursor.rotate inst
  if dataIndependentAddressing inst pos then
    let r :=
      if c.i % 128 = 0 then nextAddresses s.addressBlock s.inputBlock
      else (s.addressBlock, s.inputBlock)
    (slotWord r.1 c.i, ⟨c, r.1, r.2⟩)
  else ((arena.block c.prevOffset).get ⟨0, firstWord_lt⟩, ⟨c, s.addressBlock, s.inputBlock⟩)

end Variables

section Definitions
variable (ops : BlockOps) (inst : Instance) (pos : Position)

def blockStep (x : SegmentState × Arena) : SegmentState × Arena :=
  if x.1.cursor.i < inst.segmentLength then
    let d := draw ops.nextAddresses inst pos x.1 x.2
    let c := d.2.cursor
    let curr := ops.fillBlock (x.2.block c.prevOffset) (x.2.block (refOffset inst pos c.i d.1))
      (x.2.block c.currOffset) (withXor inst pos.pass)
    (⟨c.next, d.2.addressBlock, d.2.inputBlock⟩, x.2.store c.currOffset curr)
  else x

def fillSegment (arena : Arena) : Arena :=
  if inst.laneLength = 0 ∨ inst.lanes = 0 then arena
  else ((blockStep ops inst pos)^[inst.segmentLength.toNat]
    (segmentStart ops.nextAddresses inst pos, arena)).2

end Definitions

section
variable (inst : Instance) (pos : Position)

theorem blockStep_scalar : blockStep BlockOps.scalar inst pos = Segment.blockStep inst pos := by
  funext x
  rfl

/-- Over the scalar block functions the skeleton is the scalar `fill_segment`. -/
theorem fillSegment_scalar : fillSegment BlockOps.scalar inst pos = Segment.fillSegment inst pos := by
  funext arena
  unfold fillSegment Segment.fillSegment
  rw [blockStep_scalar]
  rfl

end

end Argon2Rust.PlainSegment
