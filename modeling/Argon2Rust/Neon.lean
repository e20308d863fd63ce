import Argon2Rust.FusedBlock
import Argon2Rust.PairedRound
import Argon2Rust.PlainSegment
import Argon2Rust.Sse2

set_option autoImplicit false

namespace Argon2Rust.Neon
open Parameters Bytes Compression IndexAlpha Segment ReferenceWindow Simd LaneRounds RoundCells
  RegisterBlock RegisterTurns PairedRound CarriedSegment FusedBlock Numerals

section Instructions

/-- The top `n` bits of `a` above `b` shifted right by `n`. -/
def sri (n : ℕ) (a b : UInt64) : UInt64 :=
  ⟨(a.toBitVec &&& ~~~(BitVec.allOnes 64 >>> n)) ||| (b.toBitVec >>> n)⟩

def vaddqU64 (x y : Register 2) : Register 2 := addEpi64 x y

def veorqU64 (x y : Register 2) : Register 2 := xorSi x y

def vshlqNU64 (n : ℕ) (x : Register 2) : Register 2 := slliEpi64 n x

def vshrqNU64 (n : ℕ) (x : Register 2) : Register 2 := srliEpi64 n x

def vsriqNU64 (n : ℕ) (a b : Register 2) : Register 2 := ofLanes fun l => sri n (lane a l) (lane b l)

/-- Lanes `n` and onwards of `x`, then those of `y`. -/
def vextqU64 (n : ℕ) (x y : Register 2) : Register 2 :=
  ofLanes fun l => if l + n < 2 then lane x (l + n) else lane y (l + n - 2)

def vrev64qU32 (x : Register 2) : Register 2 :=
  ofLanes fun l => ofDwords fun j => dword x (2 * l + (1 - j))

/-- A table lookup of bytes: an index past the table gives zero. -/
def vqtbl1qU8 (x index : Register 2) : Register 2 :=
  ofLanes fun l => ofBytes fun j =>
    let k := (byte index (8 * l + j)).toNat
    if k < 16 then byte x k else 0

def vuzp1qU32 (x y : Register 2) : Register 2 := evenDwords x y

def vgetLowU32 (x : Register 2) : Register 1 := ofLanes fun _ => lane x 0

def vgetHighU32 (x : Register 2) : Register 1 := ofLanes fun _ => lane x 1

def vmovnU64 (x : Register 2) : Register 1 :=
  ofLanes fun l => ofDwords fun j => dword x (2 * (2 * l + j))

def vmullU32 (x y : Register 1) : Register 2 :=
  ofLanes fun l => extend (dword x l) * extend (dword y l)

def vmullHighU32 (x y : Register 2) : Register 2 := mulHigh x y

def vmlalU32 (a : Register 2) (x y : Register 1) : Register 2 := vaddqU64 a (vmullU32 x y)

def vmlalHighU32 (a x y : Register 2) : Register 2 := vaddqU64 a (vmullHighU32 x y)

end Instructions

inductive Multiply where
  | umull
  | umlal
  | uzp
  | uzpPair
  | uzpPairMlal
  deriving DecidableEq, Repr

inductive BlockShape where
  | fused
  | fused2
  | fused2Prev
  | fused4
  deriving DecidableEq, Repr

/-- `f_blamka`: the paired spellings behave as `umull` here. -/
def fBlamka (ml : Multiply) (x y : Register 2) : Register 2 :=
  if ml = .uzp then
    let u := vuzp1qU32 x y
    let z := vmullU32 (vgetLowU32 u) (vgetHighU32 u)
    vaddqU64 (vaddqU64 x y) (vaddqU64 z z)
  else
    let lx := vmovnU64 x
    let ly := vmovnU64 y
    if ml = .umlal then
      let s := vaddqU64 x y
      vmlalU32 (vmlalU32 s lx ly) lx ly
    else
      let z := vmullU32 lx ly
      vaddqU64 (vaddqU64 x y) (vaddqU64 z z)

def fBlamka2 (ml : Multiply) (x0 y0 x1 y1 : Register 2) : Register 2 × Register 2 :=
  if ml = .uzpPair ∨ ml = .uzpPairMlal then
    let ux := vuzp1qU32 x0 x1
    let uy := vuzp1qU32 y0 y1
    if ml = .uzpPairMlal then
      let lx := vgetLowU32 ux
      let ly := vgetLowU32 uy
      let s0 := vaddqU64 x0 y0
      let s1 := vaddqU64 x1 y1
      (vmlalU32 (vmlalU32 s0 lx ly) lx ly, vmlalHighU32 (vmlalHighU32 s1 ux uy) ux uy)
    else
      let z0 := vmullU32 (vgetLowU32 ux) (vgetLowU32 uy)
      let z1 := vmullHighU32 ux uy
      (vaddqU64 (vaddqU64 x0 y0) (vaddqU64 z0 z0), vaddqU64 (vaddqU64 x1 y1) (vaddqU64 z1 z1))
  else (fBlamka ml x0 y0, fBlamka ml x1 y1)

def ror32 (xar : Bool) (x : Register 2) : Register 2 :=
  if xar then vsriqNU64 32 (vshlqNU64 32 x) x else vrev64qU32 x

def r24Table : List UInt8 := [3, 4, 5, 6, 7, 0, 1, 2, 11, 12, 13, 14, 15, 8, 9, 10]

def r16Table : List UInt8 := [2, 3, 4, 5, 6, 7, 0, 1, 10, 11, 12, 13, 14, 15, 8, 9]

def ror24 (tbl : Bool) (x : Register 2) : Register 2 :=
  if tbl then vqtbl1qU8 x (loaduBytes r24Table) else vsriqNU64 24 (vshlqNU64 40 x) x

def ror16 (tbl : Bool) (x : Register 2) : Register 2 :=
  if tbl then vqtbl1qU8 x (loaduBytes r16Table) else vsriqNU64 16 (vshlqNU64 48 x) x

def ror63 (x : Register 2) : Register 2 := veorqU64 (vshrqNU64 63 x) (vaddqU64 x x)

def alignr8 (hi lo : Register 2) : Register 2 := vextqU64 1 lo hi

section Variants
variable (tbl : Bool) (ml : Multiply) (x32 : Bool)

def g1 : Octet (Register 2) → Octet (Register 2) := pairedHalf (fBlamka2 ml) (ror32 x32) (ror24 tbl)

def g2 : Octet (Register 2) → Octet (Register 2) := pairedHalf (fBlamka2 ml) (ror16 tbl) ror63

def diagonalize : Octet (Register 2) → Octet (Register 2) := diagonalizeBy alignr8

def undiagonalize : Octet (Register 2) → Octet (Register 2) := undiagonalizeBy alignr8

def round8 (o : Octet (Register 2)) : Octet (Register 2) :=
  let o := g1 tbl ml x32 o
  let o := g2 tbl ml o
  let o := diagonalize o
  let o := g1 tbl ml x32 o
  let o := g2 tbl ml o
  undiagonalize o

def round8x2 (o : Fin 2 → Octet (Register 2)) : Fin 2 → Octet (Register 2) :=
  let a := g1 tbl ml x32 (o 0)
  let e := g1 tbl ml x32 (o 1)
  let a := g2 tbl ml a
  let e := g2 tbl ml e
  let a := diagonalize a
  let e := diagonalize e
  let a := g1 tbl ml x32 a
  let e := g1 tbl ml x32 e
  let a := g2 tbl ml a
  let e := g2 tbl ml e
  let a := undiagonalize a
  let e := undiagonalize e
  ![a, e]

def round8x4 (o : Fin 4 → Octet (Register 2)) : Fin 4 → Octet (Register 2) :=
  let o0 := g1 tbl ml x32 (o 0)
  let o1 := g1 tbl ml x32 (o 1)
  let o2 := g1 tbl ml x32 (o 2)
  let o3 := g1 tbl ml x32 (o 3)
  let o0 := g2 tbl ml o0
  let o1 := g2 tbl ml o1
  let o2 := g2 tbl ml o2
  let o3 := g2 tbl ml o3
  let o0 := diagonalize o0
  let o1 := diagonalize o1
  let o2 := diagonalize o2
  let o3 := diagonalize o3
  let o0 := g1 tbl ml x32 o0
  let o1 := g1 tbl ml x32 o1
  let o2 := g1 tbl ml x32 o2
  let o3 := g1 tbl ml x32 o3
  let o0 := g2 tbl ml o0
  let o1 := g2 tbl ml o1
  let o2 := g2 tbl ml o2
  let o3 := g2 tbl ml o3
  let o0 := undiagonalize o0
  let o1 := undiagonalize o1
  let o2 := undiagonalize o2
  let o3 := undiagonalize o3
  ![o0, o1, o2, o3]

/-- How a shape groups the rounds, and whether it carries the state. -/
def shapeOf (v : BlockShape) : Shape 2 :=
  match v with
  | .fused => ⟨1, 8, by decide, fun o j => round8 tbl ml x32 (o j), true⟩
  | .fused2 => ⟨2, 4, by decide, round8x2 tbl ml x32, true⟩
  | .fused2Prev => ⟨2, 4, by decide, round8x2 tbl ml x32, false⟩
  | .fused4 => ⟨4, 2, by decide, round8x4 tbl ml x32, true⟩

variable (v : BlockShape) (uninit : Registers 2 64)

def fillBlock (state : Registers 2 64) (prevBlock refBlock nextBlock : Block) (withXor : Bool) :
    Registers 2 64 × Block :=
  FusedBlock.fillBlock (shapeOf tbl ml x32 v) Sse2.columnSlots Sse2.rowSlots uninit state prevBlock
    refBlock nextBlock withXor

def fillBlockIsolated (prevBlock refBlock nextBlock : Block) (withXor : Bool) : Block :=
  (fillBlock tbl ml x32 v uninit (load prevBlock) prevBlock refBlock nextBlock withXor).2

def nextAddresses (addressBlock inputBlock : Block) : Block × Block :=
  let inputBlock := inputBlock.set 6 (inputBlock.get ⟨6, counterWord_lt⟩ + 1) counterWord_lt
  let addressBlock :=
    (fillBlock tbl ml x32 v uninit zeroState Block.zero inputBlock addressBlock false).2
  let addressBlock :=
    (fillBlock tbl ml x32 v uninit zeroState Block.zero addressBlock addressBlock false).2
  (addressBlock, inputBlock)

def ops : PlainSegment.BlockOps :=
  ⟨fillBlockIsolated tbl ml x32 v uninit, nextAddresses tbl ml x32 v uninit⟩

variable (inst : Instance) (pos : Position)

/-- The state is loaded unless the shape reads the previous block from memory. -/
def segmentStart (arena : Arena) : CarriedState 2 64 :=
  let s := PlainSegment.segmentStart (ops tbl ml x32 v uninit).nextAddresses inst pos
  ⟨s, if v = .fused2Prev then zeroState else load (arena.block s.cursor.prevOffset)⟩

def blockStep (x : CarriedState 2 64 × Arena) : CarriedState 2 64 × Arena :=
  if x.1.cursor.i < inst.segmentLength then
    let d := PlainSegment.draw (ops tbl ml x32 v uninit).nextAddresses inst pos x.1.toSegmentState x.2
    let c := d.2.cursor
    let r := fillBlock tbl ml x32 v uninit x.1.state (x.2.block c.prevOffset)
      (x.2.block (refOffset inst pos c.i d.1)) (x.2.block c.currOffset) (withXor inst pos.pass)
    (⟨⟨c.next, d.2.addressBlock, d.2.inputBlock⟩, r.1⟩, x.2.store c.currOffset r.2)
  else x

def fillSegmentImpl (arena : Arena) : Arena :=
  if inst.laneLength = 0 ∨ inst.lanes = 0 then arena
  else ((blockStep tbl ml x32 v uninit inst pos)^[inst.segmentLength.toNat]
    (segmentStart tbl ml x32 v uninit inst pos arena, arena)).2

end Variants

/-- `fill_segment`, over whether the build has `sha3`. -/
def fillSegment (sha3 : Bool) (uninit : Registers 2 64) : Instance → Position → Arena → Arena :=
  fillSegmentImpl false .uzpPair sha3 .fused2 uninit

def fillSegmentTblRotates (sha3 : Bool) (uninit : Registers 2 64) :
    Instance → Position → Arena → Arena :=
  fillSegmentImpl true .uzpPair sha3 .fused2 uninit

/-- `fill_segment_variant`: every combination of the tuning parameters. -/
def fillSegmentVariant (tbl : Bool) (ml : Multiply) (x32 : Bool) (v : BlockShape)
    (uninit : Registers 2 64) : Instance → Position → Arena → Arena :=
  fillSegmentImpl tbl ml x32 v uninit

section Multiplies
variable (x y : Register 2)

theorem vmull_vmovn : vmullU32 (vmovnU64 x) (vmovnU64 y) = mulEpu32 x y := by
  apply ext_lanes
  intro l hl
  have hlow (z : Register 2) : extend (dword (vmovnU64 z) l) = lane z l &&& 0xFFFFFFFF := by
    unfold vmovnU64
    rw [dword_ofLanes _ l (by omega), Nat.div_add_mod, extend_even]
  unfold vmullU32 mulEpu32
  rw [lane_ofLanes _ hl, lane_ofLanes _ hl, hlow, hlow]

theorem dword_vgetLow (l : ℕ) (hl : l < 2) : dword (vgetLowU32 x) l = dword x l := by
  unfold vgetLowU32 dword
  rw [lane_ofLanes _ (by omega), Nat.div_eq_of_lt hl]

theorem dword_vgetHigh (l : ℕ) (hl : l < 2) : dword (vgetHighU32 x) l = dword x (2 + l) := by
  unfold vgetHighU32 dword
  rw [lane_ofLanes _ (by omega), Nat.add_mod_left, Nat.add_div_left l (by decide),
    Nat.div_eq_of_lt hl]

theorem vmull_low : vmullU32 (vgetLowU32 x) (vgetLowU32 y) = mulLow x y := by
  apply ext_lanes
  intro l hl
  unfold vmullU32 mulLow
  rw [lane_ofLanes _ hl, lane_ofLanes _ hl, dword_vgetLow x l hl, dword_vgetLow y l hl]

theorem vmull_uzp :
    vmullU32 (vgetLowU32 (vuzp1qU32 x y)) (vgetHighU32 (vuzp1qU32 x y)) = mulEpu32 x y := by
  apply ext_lanes
  intro l hl
  unfold vmullU32 mulEpu32 vuzp1qU32
  rw [lane_ofLanes _ hl, lane_ofLanes _ hl, dword_vgetLow _ l hl, dword_vgetHigh _ l hl,
    dword_evenDwords x y l (by omega), dword_evenDwords x y (2 + l) (by omega), if_pos hl,
    if_neg (by omega), Nat.add_sub_cancel_left, extend_even, extend_even]

/-- Accumulating a product twice adds its double. -/
theorem accumulate_twice (z : Register 2) :
    vaddqU64 (vaddqU64 (vaddqU64 x y) z) z = addEpi64 (addEpi64 x y) (addEpi64 z z) := by
  apply ext_lanes
  intro l hl
  unfold vaddqU64 addEpi64
  simp only [lane_ofLanes _ hl]
  exact UInt64.add_assoc _ _ _

theorem fBlamka_eq (ml : Multiply) : fBlamka ml x y = muladd x y := by
  unfold fBlamka vmlalU32
  dsimp only
  rw [vmull_uzp, vmull_vmovn, accumulate_twice]
  split_ifs <;> rfl

theorem fBlamka2_eq (ml : Multiply) (x0 y0 x1 y1 : Register 2) :
    fBlamka2 ml x0 y0 x1 y1 = (muladd x0 y0, muladd x1 y1) := by
  unfold fBlamka2 vmlalU32 vmlalHighU32 vmullHighU32 vuzp1qU32
  dsimp only
  rw [vmull_low, mulLow_evenDwords, mulHigh_evenDwords, accumulate_twice, accumulate_twice,
    fBlamka_eq, fBlamka_eq]
  split_ifs <;> rfl

end Multiplies

section Rotations

theorem sri_getLsbD (n : ℕ) (a b : UInt64) (i : ℕ) (hi : i < 64) :
    (sri n a b).toBitVec.getLsbD i =
      if n + i < 64 then b.toBitVec.getLsbD (n + i) else a.toBitVec.getLsbD i := by
  unfold sri
  rw [BitVec.getLsbD_or, BitVec.getLsbD_and, BitVec.getLsbD_not, BitVec.getLsbD_ushiftRight,
    BitVec.getLsbD_ushiftRight, BitVec.getLsbD_allOnes, decide_eq_true hi, Bool.true_and]
  split_ifs with h
  · rw [decide_eq_true h, Bool.not_true, Bool.and_false, Bool.false_or]
  · rw [decide_eq_false h, Bool.not_false, Bool.and_true,
      BitVec.getLsbD_of_ge b.toBitVec _ (by omega),
      Bool.or_false]

/-- A left shift with the rest of the word inserted below it is a rotation. -/
theorem lane_insert (n : ℕ) (hn : 0 < n) (hn' : n < 64) (x : Register 2) (l : ℕ) (hl : l < 2) :
    lane (vsriqNU64 n (vshlqNU64 (64 - n) x) x) l = ror (lane x l) n := by
  have hleft : (UInt64.ofNat (64 - n)).toBitVec.toNat % 64 = 64 - n := by
    change (UInt64.ofNat (64 - n)).toNat % 64 = 64 - n
    rw [UInt64.toNat_ofNat_of_lt' (lt_of_le_of_lt (Nat.sub_le 64 n) (by decide))]
    omega
  unfold vsriqNU64 vshlqNU64 slliEpi64
  rw [lane_ofLanes _ hl, lane_ofLanes _ hl, if_neg (by omega)]
  apply eq_of_getLsbD
  intro i hi
  rw [sri_getLsbD n _ _ i hi, ror_getLsbD _ n i hn' hi]
  split_ifs with h
  · rw [Nat.mod_eq_of_lt (by omega), Nat.add_comm]
  · rw [UInt64.toBitVec_shiftLeft, BitVec.shiftLeft_eq', BitVec.getLsbD_shiftLeft]
    change (decide (i < 64) && !decide (i < (UInt64.ofNat (64 - n)).toBitVec.toNat % 64) &&
      (lane x l).toBitVec.getLsbD (i - (UInt64.ofNat (64 - n)).toBitVec.toNat % 64)) = _
    rw [hleft, decide_eq_true hi, decide_eq_false (by omega), Bool.not_false, Bool.true_and,
      Bool.true_and]
    exact congrArg _ (by omega)

/-- A table that moves the bytes of every lane round by `k` rotates it. -/
theorem lane_vqtbl1 (x : Register 2) (bytes : List UInt8) (k : ℕ) (hk : k < 8) {l : ℕ} (hl : l < 2)
    (htable : ∀ j < 8, (bytes.getD (8 * l + j) 0).toNat = 8 * l + (j + k) % 8) :
    lane (vqtbl1qU8 x (loaduBytes bytes)) l = ror (lane x l) (8 * k) := by
  unfold vqtbl1qU8
  rw [lane_ofLanes _ hl, ← ofBytes_rotated (lane x l) k hk]
  apply ofBytes_congr
  intro j hj
  have hindex : (byte (loaduBytes bytes : Register 2) (8 * l + j)).toNat = 8 * l + (j + k) % 8 := by
    unfold loaduBytes
    rw [byte_lane _ l j hj, lane_ofLanes _ hl, byteOf_ofBytes _ j hj, ← htable j hj]
    rfl
  dsimp only
  rw [hindex, if_pos (by omega), byte_lane x l _ (Nat.mod_lt _ (by decide))]

theorem r24_table : ∀ l < 2, ∀ j < 8,
    (r24Table.getD (8 * l + j) 0).toNat = 8 * l + (j + 3) % 8 := by decide

theorem r16_table : ∀ l < 2, ∀ j < 8,
    (r16Table.getD (8 * l + j) 0).toNat = 8 * l + (j + 2) % 8 := by decide

variable (x : Register 2) (l : ℕ) (hl : l < 2)
include hl

theorem lane_ror32 (xar : Bool) : lane (ror32 xar x) l = rotateRight (lane x l) 32 := by
  refine Eq.trans ?_ (ror_eq _ 32 (by decide) (by decide))
  cases xar with
  | true => exact lane_insert 32 (by decide) (by decide) x l hl
  | false =>
    change lane (vrev64qU32 x) l = _
    unfold vrev64qU32
    rw [lane_ofLanes _ hl, ← ofDwords_rotated (lane x l) 1 (by decide)]
    apply ofDwords_congr
    intro j hj
    rw [show 1 - j = (j + 1) % 2 by omega, dword_lane x l _ (Nat.mod_lt _ (by decide))]

theorem lane_ror24 (tbl : Bool) : lane (ror24 tbl x) l = rotateRight (lane x l) 24 := by
  refine Eq.trans ?_ (ror_eq _ 24 (by decide) (by decide))
  cases tbl with
  | true => exact lane_vqtbl1 x r24Table 3 (by decide) hl (r24_table l hl)
  | false => exact lane_insert 24 (by decide) (by decide) x l hl

theorem lane_ror16 (tbl : Bool) : lane (ror16 tbl x) l = rotateRight (lane x l) 16 := by
  refine Eq.trans ?_ (ror_eq _ 16 (by decide) (by decide))
  cases tbl with
  | true => exact lane_vqtbl1 x r16Table 2 (by decide) hl (r16_table l hl)
  | false => exact lane_insert 16 (by decide) (by decide) x l hl

theorem lane_ror63 : lane (ror63 x) l = rotateRight (lane x l) 63 :=
  (lane_shiftDouble x hl).trans (ror_eq _ 63 (by decide) (by decide))

omit x in
theorem lane_alignr8 (hi lo : Register 2) : lane (alignr8 hi lo) l = funnel hi lo l := by
  unfold alignr8 vextqU64
  rw [lane_ofLanes _ hl]
  rcases (by omega : l = 0 ∨ l = 1) with rfl | rfl <;> rfl

end Rotations

section Rounds
variable (tbl : Bool) (ml : Multiply) (x32 : Bool)

theorem cells_g (o : Octet (Register 2)) :
    cells (g2 tbl ml (g1 tbl ml x32 o)) = mix columnValues (cells o) := by
  unfold g1 g2
  rw [cells_pairedHalf (fBlamka2_eq ml) (fun x l hl => lane_ror16 x l hl tbl) lane_ror63,
    cells_pairedHalf (fBlamka2_eq ml) (fun x l hl => lane_ror32 x l hl x32)
      (fun x l hl => lane_ror24 x l hl tbl), mix_mix]
  rfl

theorem round8_cells (o : Octet (Register 2)) :
    cells (round8 tbl ml x32 o) ∘ Prod.map id (pairPlace 0 (by decide)) =
      cellRound (cells o ∘ Prod.map id (pairPlace 0 (by decide))) :=
  pairs_round (cells_g tbl ml x32)
    (diagonalizeBy_turns fun hi lo l hl => lane_alignr8 l hl hi lo)
    (undiagonalizeBy_turns fun hi lo l hl => lane_alignr8 l hl hi lo) 0 (by decide) o

theorem together_eq (v : BlockShape) (o : Fin (shapeOf tbl ml x32 v).rounds → Octet (Register 2))
    (j : Fin (shapeOf tbl ml x32 v).rounds) :
    (shapeOf tbl ml x32 v).together o j = round8 tbl ml x32 (o j) := by
  cases v with
  | fused => rfl
  | fused2 => exact Fin.cases rfl (fun j => by rw [Subsingleton.elim j 0]; rfl) j
  | fused2Prev => exact Fin.cases rfl (fun j => by rw [Subsingleton.elim j 0]; rfl) j
  | fused4 =>
    change Fin 4 at j
    fin_cases j <;> rfl

def passes : Passes 2 64 := FusedBlock.passes (round8 tbl ml x32) Sse2.columnSlots Sse2.rowSlots

theorem passes_scalar : (passes tbl ml x32).Scalar where
  size := rfl
  columns := store_calls covers_columnSlot Sse2.columnLayout _ fun _ => round8_cells tbl ml x32
  rows := store_calls covers_rowSlot Sse2.rowLayout _ fun _ => round8_cells tbl ml x32

theorem columnTiles : Tiles Sse2.columnSlots where
  inj := Sse2.columnLayout.disjoint
  surj := fun r => ⟨⟨r.val / 8, by omega⟩, cellSlot ⟨r.val % 8 / 2, by omega⟩ ⟨r.val % 2, by omega⟩,
    Fin.ext (by rw [Sse2.columnSlots_get]; dsimp only; omega)⟩

theorem rowTiles : Tiles Sse2.rowSlots where
  inj := Sse2.rowLayout.disjoint
  surj := fun r => ⟨⟨r.val % 8, by omega⟩, cellSlot ⟨r.val / 16, by omega⟩ ⟨r.val / 8 % 2, by omega⟩,
    Fin.ext (by rw [Sse2.rowSlots_get]; dsimp only; omega)⟩

end Rounds

section Blocks
variable (tbl : Bool) (ml : Multiply) (x32 : Bool) (v : BlockShape) (uninit : Registers 2 64)

theorem shapeOf_carry : (shapeOf tbl ml x32 v).carry = true ↔ v ≠ .fused2Prev := by
  cases v with
  | fused2Prev => exact ⟨fun h => absurd h Bool.false_ne_true, fun h => absurd rfl h⟩
  | _ => exact ⟨fun _ h => (nomatch h), fun _ => rfl⟩

theorem fillBlock_snd (state : Registers 2 64) (prevBlock refBlock nextBlock : Block)
    (withXor : Bool) :
    (fillBlock tbl ml x32 v uninit state prevBlock refBlock nextBlock withXor).2 =
      Compression.fillBlock (if v = .fused2Prev then prevBlock else store state) refBlock nextBlock
        withXor := by
  have hfused := (fillBlock_eq columnTiles rowTiles (together_eq tbl ml x32 v) uninit state
    prevBlock refBlock nextBlock withXor).1
  have hscalar := RegisterBlock.fillBlock_snd (passes_scalar tbl ml x32)
    (if (shapeOf tbl ml x32 v).carry then state else load prevBlock) refBlock nextBlock withXor
  have hprev : store (if (shapeOf tbl ml x32 v).carry then state else load prevBlock) =
      if v = .fused2Prev then prevBlock else store state := by
    by_cases hv : v = .fused2Prev
    · rw [if_pos hv, if_neg ((shapeOf_carry tbl ml x32 v).not.mpr (not_not.mpr hv)),
        store_load (passes_scalar tbl ml x32).size]
    · rw [if_neg hv, if_pos ((shapeOf_carry tbl ml x32 v).mpr hv)]
  rw [← hprev]
  exact hfused.trans hscalar

theorem fillBlock_carried (hv : v ≠ .fused2Prev) (state : Registers 2 64)
    (prevBlock refBlock nextBlock : Block) (withXor : Bool) :
    fillBlock tbl ml x32 v uninit state prevBlock refBlock nextBlock withXor =
      RegisterBlock.fillBlock (passes tbl ml x32) state refBlock nextBlock withXor := by
  have hcarry := (shapeOf_carry tbl ml x32 v).mpr hv
  obtain ⟨hsnd, hfst⟩ := fillBlock_eq columnTiles rowTiles (together_eq tbl ml x32 v) uninit state
    prevBlock refBlock nextBlock withXor
  rw [if_pos hcarry] at hsnd hfst
  exact Prod.ext (hfst hcarry) hsnd

theorem fillBlockIsolated_eq :
    fillBlockIsolated tbl ml x32 v uninit = Compression.fillBlock := by
  funext prevBlock refBlock nextBlock withXor
  unfold fillBlockIsolated
  rw [fillBlock_snd, store_load (passes_scalar tbl ml x32).size, ite_self]

theorem nextAddresses_eq : nextAddresses tbl ml x32 v uninit = Compression.nextAddresses := by
  funext addressBlock inputBlock
  unfold nextAddresses Compression.nextAddresses
  dsimp only
  rw [fillBlock_snd, fillBlock_snd, store_zeroState (passes_scalar tbl ml x32).size, ite_self]

theorem ops_scalar : ops tbl ml x32 v uninit = PlainSegment.BlockOps.scalar := by
  unfold ops PlainSegment.BlockOps.scalar
  rw [fillBlockIsolated_eq, nextAddresses_eq]

end Blocks

section Segments
variable (tbl : Bool) (ml : Multiply) (x32 : Bool) (v : BlockShape) (uninit : Registers 2 64)
  (inst : Instance) (pos : Position)

theorem draw_scalar :
    PlainSegment.draw (ops tbl ml x32 v uninit).nextAddresses inst pos = Segment.draw inst pos := by
  rw [ops_scalar]
  rfl

theorem variables_scalar :
    PlainSegment.segmentStart (ops tbl ml x32 v uninit).nextAddresses inst pos =
      Segment.segmentStart inst pos := by
  rw [ops_scalar]
  rfl

theorem blockStep_carried (hv : v ≠ .fused2Prev) :
    blockStep tbl ml x32 v uninit inst pos =
      CarriedSegment.blockStep (passes tbl ml x32) inst pos := by
  funext x
  unfold blockStep CarriedSegment.blockStep
  rw [draw_scalar, draw_eq (passes_scalar tbl ml x32)]
  simp only [fillBlock_carried tbl ml x32 v uninit hv]

theorem fillSegmentImpl_carried (hv : v ≠ .fused2Prev) (arena : Arena) :
    fillSegmentImpl tbl ml x32 v uninit inst pos arena =
      CarriedSegment.fillSegment (passes tbl ml x32) inst pos arena := by
  have hstart : segmentStart tbl ml x32 v uninit inst pos arena =
      CarriedSegment.segmentStart (passes tbl ml x32) inst pos arena := by
    unfold segmentStart CarriedSegment.segmentStart
    rw [variables_scalar, segmentVariables_eq (passes_scalar tbl ml x32)]
    dsimp only
    rw [if_neg hv]
  unfold fillSegmentImpl CarriedSegment.fillSegment iteration
  rw [blockStep_carried tbl ml x32 v uninit inst pos hv, hstart]

theorem blockStep_reread (x : CarriedState 2 64 × Arena) :
    scalarPart (blockStep tbl ml x32 .fused2Prev uninit inst pos x) =
      Segment.blockStep inst pos (scalarPart x) := by
  unfold blockStep
  rw [draw_scalar]
  simp only [scalarPart]
  unfold Segment.blockStep
  dsimp only
  split_ifs with hi
  · rw [fillBlock_snd, if_pos rfl]
    rfl
  · rfl

theorem fillSegmentImpl_reread (arena : Arena) :
    fillSegmentImpl tbl ml x32 .fused2Prev uninit inst pos arena =
      Segment.fillSegment inst pos arena := by
  have hsemiconj : Function.Semiconj scalarPart (blockStep tbl ml x32 .fused2Prev uninit inst pos)
      (Segment.blockStep inst pos) := blockStep_reread tbl ml x32 uninit inst pos
  have hrun := hsemiconj.iterate_right inst.segmentLength.toNat
    (segmentStart tbl ml x32 .fused2Prev uninit inst pos arena, arena)
  have hstart : scalarPart (segmentStart tbl ml x32 .fused2Prev uninit inst pos arena, arena) =
      (Segment.segmentStart inst pos, arena) :=
    Prod.ext (variables_scalar tbl ml x32 .fused2Prev uninit inst pos) rfl
  unfold fillSegmentImpl Segment.fillSegment
  rw [← hstart, ← hrun]
  rfl

end Segments

/-- Every variant of the NEON backend fills a segment as the scalar backend does,
whatever `block_XY` holds before it is written. -/
theorem neon_eq_scalar {w : PointerWidth} (algorithm : Algorithm) (version : Version)
    (p : Params w) (pos : Position) (hs : InSlice (Instance.new algorithm version p) pos)
    (arena : Arena) (hsize : p.memoryBlocks.toNat ≤ arena.size) :
    let inst := Instance.new algorithm version p
    (∀ tbl ml x32 v uninit,
        fillSegmentVariant tbl ml x32 v uninit inst pos arena =
          Segment.fillSegment inst pos arena) ∧
      (∀ sha3 uninit,
        fillSegment sha3 uninit inst pos arena = Segment.fillSegment inst pos arena ∧
          fillSegmentTblRotates sha3 uninit inst pos arena =
            Segment.fillSegment inst pos arena) ∧
      ∀ tbl ml x32 v uninit,
        fillBlockIsolated tbl ml x32 v uninit = Compression.fillBlock ∧
          nextAddresses tbl ml x32 v uninit = Compression.nextAddresses := by
  intro inst
  have wf := new_wellFormed algorithm version p
  have hvariant (tbl : Bool) (ml : Multiply) (x32 : Bool) (v : BlockShape)
      (uninit : Registers 2 64) : fillSegmentImpl tbl ml x32 v uninit inst pos arena =
        Segment.fillSegment inst pos arena := by
    by_cases hv : v = .fused2Prev
    · rw [hv]
      exact fillSegmentImpl_reread tbl ml x32 uninit inst pos arena
    · rw [fillSegmentImpl_carried tbl ml x32 v uninit inst pos hv]
      exact fillSegment_scalar (passes_scalar tbl ml x32) wf hs arena hsize
  exact ⟨hvariant, fun sha3 uninit => ⟨hvariant _ _ _ _ _, hvariant _ _ _ _ _⟩,
    fun tbl ml x32 v uninit =>
      ⟨fillBlockIsolated_eq tbl ml x32 v uninit, nextAddresses_eq tbl ml x32 v uninit⟩⟩

theorem neon_eq_scalar_least :
    fillSegment false zeroState (Instance.new .argon2id .v0x13 Params.least) ⟨1, 0, 0, 0⟩
        (countedArena 8) =
      Segment.fillSegment (Instance.new .argon2id .v0x13 Params.least) ⟨1, 0, 0, 0⟩
        (countedArena 8) :=
  ((neon_eq_scalar .argon2id .v0x13 Params.least ⟨1, 0, 0, 0⟩ ⟨by decide, by decide⟩
    (countedArena 8) (countedArena_size 8).ge).2.1 false zeroState).1

end Argon2Rust.Neon
