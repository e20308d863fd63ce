import Argon2Rust.Addressing
import Argon2Rust.CarriedSegment
import Argon2Rust.RegisterTurns

set_option autoImplicit false

namespace Argon2Rust.Avx512
open Parameters Bytes Compression IndexAlpha Segment ReferenceWindow Addressing Simd LaneRounds RoundCells
  RegisterBlock RegisterTurns CarriedSegment

def quarterIdx : List UInt64 := [0, 1, 4, 5, 2, 3, 6, 7]

def muladd (x y : Register 8) : Register 8 :=
  let z := mulEpu32 x y
  addEpi64 (addEpi64 x y) (addEpi64 z z)

def g1 : Octet (Register 8) → Octet (Register 8) := halfRound muladd (rorEpi64 32) (rorEpi64 24)

def g2 : Octet (Register 8) → Octet (Register 8) := halfRound muladd (rorEpi64 16) (rorEpi64 63)

def diagonalize : Octet (Register 8) → Octet (Register 8) :=
  turnRows permutexEpi64 0b00111001 0b01001110 0b10010011

def undiagonalize : Octet (Register 8) → Octet (Register 8) :=
  turnRows permutexEpi64 0b10010011 0b01001110 0b00111001

def blake2Round (o : Octet (Register 8)) : Octet (Register 8) :=
  undiagonalize (g2 (g1 (diagonalize (g2 (g1 o)))))

def swapHalves (x y : Register 8) : Fin 2 → Register 8 :=
  ![shuffleI64x2 0b01000100 x y, shuffleI64x2 0b11101110 x y]

def swapQuarters (x y : Register 8) : Fin 2 → Register 8 :=
  let s := swapHalves x y
  let idx := loaduWords quarterIdx
  ![permutexvarEpi64 idx (s 0), permutexvarEpi64 idx (s 1)]

def unswapQuarters (x y : Register 8) : Fin 2 → Register 8 :=
  let idx := loaduWords quarterIdx
  swapHalves (permutexvarEpi64 idx x) (permutexvarEpi64 idx y)

def swapHalvesAll (o : Octet (Register 8)) : Octet (Register 8) :=
  let ab0 := swapHalves o.a0 o.b0
  let cd0 := swapHalves o.c0 o.d0
  let ab1 := swapHalves o.a1 o.b1
  let cd1 := swapHalves o.c1 o.d1
  ⟨ab0 0, ab1 0, ab0 1, ab1 1, cd0 0, cd1 0, cd0 1, cd1 1⟩

def swapRows (swap : Register 8 → Register 8 → Fin 2 → Register 8) (o : Octet (Register 8)) :
    Octet (Register 8) :=
  let a := swap o.a0 o.a1
  let b := swap o.b0 o.b1
  let c := swap o.c0 o.c1
  let d := swap o.d0 o.d1
  ⟨a 0, a 1, b 0, b 1, c 0, c 1, d 0, d 1⟩

def blake2Round1 (o : Octet (Register 8)) : Octet (Register 8) :=
  swapHalvesAll (blake2Round (swapHalvesAll o))

def blake2Round2 (o : Octet (Register 8)) : Octet (Register 8) :=
  swapRows unswapQuarters (blake2Round (swapRows swapQuarters o))

/-- `round_1!(8 * i)`: the parameters of the round are named `a0 c0 b0 d0 a1 c1 b1 d1`. -/
def columnSlots (i : Fin 2) : Octet (Fin 16) where
  a0 := ⟨8 * i.val, by omega⟩
  c0 := ⟨8 * i.val + 1, by omega⟩
  b0 := ⟨8 * i.val + 2, by omega⟩
  d0 := ⟨8 * i.val + 3, by omega⟩
  a1 := ⟨8 * i.val + 4, by omega⟩
  c1 := ⟨8 * i.val + 5, by omega⟩
  b1 := ⟨8 * i.val + 6, by omega⟩
  d1 := ⟨8 * i.val + 7, by omega⟩

/-- `round_2!(i)`. -/
def rowSlots (i : Fin 2) : Octet (Fin 16) where
  a0 := ⟨i.val, by omega⟩
  a1 := ⟨2 + i.val, by omega⟩
  b0 := ⟨4 + i.val, by omega⟩
  b1 := ⟨6 + i.val, by omega⟩
  c0 := ⟨8 + i.val, by omega⟩
  c1 := ⟨10 + i.val, by omega⟩
  d0 := ⟨12 + i.val, by omega⟩
  d1 := ⟨14 + i.val, by omega⟩

def passes : Passes 8 16 where
  columns := fun s => Fin.foldl 2 (fun s i => roundOn blake2Round1 (columnSlots i) s) s
  rows := fun s => Fin.foldl 2 (fun s i => roundOn blake2Round2 (rowSlots i) s) s

def fillBlock (state : Registers 8 16) (refBlock nextBlock : Block) (withXor : Bool) :
    Registers 8 16 × Block := RegisterBlock.fillBlock passes state refBlock nextBlock withXor

def prefetchDistance : UInt32 := 2

def refOffsetFor (inst : Instance) (pos : Position) (index : UInt32) (pseudoRand : UInt64) :
    UInt32 := refOffset inst pos index pseudoRand

def nextAddresses (addressBlock inputBlock : Block) : Block × Block :=
  RegisterBlock.nextAddresses passes addressBlock inputBlock

/-- The block an iteration asks `prefetch_block` for, if any. -/
def lookAhead (inst : Instance) (pos : Position) (s : SegmentState) : List UInt32 :=
  if dataIndependentAddressing inst pos then
    let slot := s.cursor.i % 128
    let ahead := s.cursor.i + prefetchDistance
    let slotAhead := ahead % 128
    if ahead < inst.segmentLength ∧ slotAhead > slot then
      [refOffsetFor inst pos ahead (slotWord s.addressBlock ahead)]
    else []
  else []

/-- The segment, the arena, and the offsets prefetched so far. -/
abbrev Run := (CarriedState 8 16 × Arena) × List UInt32

section Loop
variable (inst : Instance) (pos : Position)

def blockStep (x : Run) : Run :=
  let s := x.1.1
  let arena := x.1.2
  if s.cursor.i < inst.segmentLength then
    let d := draw passes inst pos s.toSegmentState arena
    let c := d.2.cursor
    let refOffset := refOffsetFor inst pos c.i d.1
    let prefetched := lookAhead inst pos d.2
    let r := fillBlock s.state (arena.block refOffset) (arena.block c.currOffset)
      (withXor inst pos.pass)
    ((⟨⟨c.next, d.2.addressBlock, d.2.inputBlock⟩, r.1⟩, arena.store c.currOffset r.2),
      x.2 ++ prefetched)
  else x

def loop (arena : Arena) (k : ℕ) : Run :=
  (blockStep inst pos)^[k] ((segmentStart passes inst pos arena, arena), [])

/-- `fill_segment_impl`: the arena it leaves, and the offsets it prefetched. -/
def fillSegmentImpl (arena : Arena) : Arena × List UInt32 :=
  if inst.laneLength = 0 ∨ inst.lanes = 0 then (arena, [])
  else
    let x := loop inst pos arena inst.segmentLength.toNat
    (x.1.2, x.2)

def fillSegment (arena : Arena) : Arena := (fillSegmentImpl inst pos arena).1

end Loop

section Lanes

theorem lane_muladd (x y : Register 8) (l : ℕ) (hl : l < 8) :
    lane (muladd x y) l = fBlamka (lane x l) (lane y l) := by
  unfold muladd fBlamka addEpi64 mulEpu32
  simp only [lane_ofLanes _ hl]
  exact (muladd_eq _ _ _).1

theorem lane_ror {r : ℕ} (hr : 0 < r) (hr' : r < 64) (x : Register 8) (l : ℕ) (hl : l < 8) :
    lane (rorEpi64 r x) l = rotateRight (lane x l) (UInt64.ofNat r) :=
  (lane_ofLanes _ hl).trans (ror_eq _ r hr hr')

theorem cells_g (o : Octet (Register 8)) : cells (g2 (g1 o)) = mix columnValues (cells o) := by
  unfold g1 g2
  rw [cells_halfRound lane_muladd (lane_ror (by decide) (by decide))
      (lane_ror (by decide) (by decide)),
    cells_halfRound lane_muladd (lane_ror (by decide) (by decide))
      (lane_ror (by decide) (by decide)), mix_mix]
  rfl

theorem lane_shuffleI64x2 (imm : ℕ) (x y : Register 8) (s t : Fin 2) (j : Fin 4)
    (himm : 2 * select imm ((4 * t.val + j.val) / 2) + (4 * t.val + j.val) % 2 =
      4 * s.val + j.val) :
    lane (shuffleI64x2 imm x y) (4 * t.val + j.val) =
      lane ((![x, y] : Fin 2 → Register 8) t) (4 * s.val + j.val) := by
  unfold shuffleI64x2
  rw [lane_ofLanes _ (by omega), himm]
  refine congrArg (fun r => lane r (4 * s.val + j.val)) ?_
  fin_cases t
  · exact if_pos (by dsimp only; omega)
  · exact if_neg (by dsimp only; omega)

theorem lane_swapHalves (x y : Register 8) (s t : Fin 2) (j : Fin 4) :
    lane (swapHalves x y s) (4 * t.val + j.val) =
      lane ((![x, y] : Fin 2 → Register 8) t) (4 * s.val + j.val) := by
  have hlow : ∀ (t : Fin 2) (j : Fin 4),
      2 * select 0b01000100 ((4 * t.val + j.val) / 2) + (4 * t.val + j.val) % 2 =
        4 * (0 : Fin 2).val + j.val := by decide
  have hhigh : ∀ (t : Fin 2) (j : Fin 4),
      2 * select 0b11101110 ((4 * t.val + j.val) / 2) + (4 * t.val + j.val) % 2 =
        4 * (1 : Fin 2).val + j.val := by decide
  fin_cases s
  · exact lane_shuffleI64x2 _ x y 0 t j (hlow t j)
  · exact lane_shuffleI64x2 _ x y 1 t j (hhigh t j)

/-- Where `QUARTER_IDX` finds a word: the middle two pairs of lanes change places. -/
def quarter (t : Fin 2) (j : Fin 4) : Fin 8 := ⟨4 * (j.val / 2) + (2 * t.val + j.val % 2), by omega⟩

theorem lane_quarterIdx (x : Register 8) (t : Fin 2) (j : Fin 4) :
    lane (permutexvarEpi64 (loaduWords quarterIdx) x) (4 * t.val + j.val) =
      lane x (quarter t j).val ∧
    lane (permutexvarEpi64 (loaduWords quarterIdx) x) (quarter t j).val =
      lane x (4 * t.val + j.val) := by
  have hindex : ∀ l < 8, lane (permutexvarEpi64 (loaduWords quarterIdx) x) l =
      lane x ((quarterIdx.getD l 0).toNat % 8) := by
    intro l hl
    unfold permutexvarEpi64
    rw [lane_ofLanes _ hl]
    unfold loaduWords
    rw [lane_ofLanes _ hl]
  have htable : ∀ (t : Fin 2) (j : Fin 4),
      (quarterIdx.getD (4 * t.val + j.val) 0).toNat % 8 = (quarter t j).val ∧
        (quarterIdx.getD (quarter t j).val 0).toNat % 8 = 4 * t.val + j.val := by decide
  rw [hindex _ (by omega), hindex _ (quarter t j).isLt, (htable t j).1, (htable t j).2]
  exact ⟨rfl, rfl⟩

theorem lane_swapQuarters (x y : Register 8) (h t : Fin 2) (j : Fin 4) :
    lane (swapQuarters x y h) (4 * t.val + j.val) = pairRow x y (2 * h.val + t.val) j := by
  have hquarter : lane (swapQuarters x y h) (4 * t.val + j.val) =
      lane (swapHalves x y h) (quarter t j).val := by
    fin_cases h
    · exact (lane_quarterIdx (swapHalves x y 0) t j).1
    · exact (lane_quarterIdx (swapHalves x y 1) t j).1
  have hhalves := lane_swapHalves x y h ⟨j.val / 2, by omega⟩ ⟨2 * t.val + j.val % 2, by omega⟩
  have hpair := pairRow_eq ![x, y] (2 * h.val + t.val) j
  refine hquarter.trans (hhalves.trans (Eq.trans ?_ hpair.symm))
  exact congrArg (lane _) (by dsimp only; omega)

theorem lane_unswapQuarters (x y : Register 8) (h t : Fin 2) (j : Fin 4) :
    pairRow (unswapQuarters x y 0) (unswapQuarters x y 1) (2 * h.val + t.val) j =
      lane ((![x, y] : Fin 2 → Register 8) h) (4 * t.val + j.val) := by
  have hhalves := lane_swapHalves (permutexvarEpi64 (loaduWords quarterIdx) x)
    (permutexvarEpi64 (loaduWords quarterIdx) y) ⟨j.val / 2, by omega⟩ h
    ⟨2 * t.val + j.val % 2, by omega⟩
  have hplace : 2 * (2 * h.val + t.val) + j.val % 2 = 4 * h.val + (2 * t.val + j.val % 2) := by
    omega
  rw [pairRow_eq (unswapQuarters x y), hplace]
  refine hhalves.trans ?_
  fin_cases h
  · exact (lane_quarterIdx x t j).2
  · exact (lane_quarterIdx y t j).2

/-- Cells of a column round before the exchange: rows `2 r` and `2 r + 1` share registers. -/
def columnPlace (half t : Fin 2) (c : Fin 4 × Fin 4) : Fin 4 × (Fin 2 × Fin 8) :=
  (⟨2 * (c.1.val / 2) + t.val, by omega⟩, (half, ⟨4 * (c.1.val % 2) + c.2.val, by omega⟩))

theorem row_lt (r s : Fin 2) : 2 * r.val + s.val < 4 := by omega

theorem swapHalvesAll_cells (o : Octet (Register 8)) (r half s t : Fin 2) (j : Fin 4) :
    cells (swapHalvesAll o)
        (⟨2 * r.val + s.val, row_lt r s⟩, (half, ⟨4 * t.val + j.val, by omega⟩)) =
      cells o (⟨2 * r.val + t.val, row_lt r t⟩, (half, ⟨4 * s.val + j.val, by omega⟩)) := by
  fin_cases r <;> fin_cases half
  · refine Eq.trans ?_ ((lane_swapHalves o.a0 o.b0 s t j).trans ?_)
    · fin_cases s <;> rfl
    · fin_cases t <;> rfl
  · refine Eq.trans ?_ ((lane_swapHalves o.a1 o.b1 s t j).trans ?_)
    · fin_cases s <;> rfl
    · fin_cases t <;> rfl
  · refine Eq.trans ?_ ((lane_swapHalves o.c0 o.d0 s t j).trans ?_)
    · fin_cases s <;> rfl
    · fin_cases t <;> rfl
  · refine Eq.trans ?_ ((lane_swapHalves o.c1 o.d1 s t j).trans ?_)
    · fin_cases s <;> rfl
    · fin_cases t <;> rfl

end Lanes

section Rounds

theorem row_split (row : Fin 4) :
    (⟨2 * (row.val / 2) + row.val % 2, by omega⟩ : Fin 4) = row :=
  Fin.ext (Nat.div_add_mod row.val 2)

theorem swapHalvesAll_in (half t : Fin 2) (o : Octet (Register 8)) :
    cells (swapHalvesAll o) ∘ Prod.map id (quadPlace half t.val (by omega)) =
      cells o ∘ columnPlace half t := by
  funext c
  obtain ⟨row, j⟩ := c
  have hswap := swapHalvesAll_cells o ⟨row.val / 2, by omega⟩ half ⟨row.val % 2, by omega⟩ t j
  simp only [row_split] at hswap
  exact hswap

theorem swapHalvesAll_out (half t : Fin 2) (o : Octet (Register 8)) :
    cells (swapHalvesAll o) ∘ columnPlace half t =
      cells o ∘ Prod.map id (quadPlace half t.val (by omega)) := by
  funext c
  obtain ⟨row, j⟩ := c
  have hswap := swapHalvesAll_cells o ⟨row.val / 2, by omega⟩ half t ⟨row.val % 2, by omega⟩ j
  simp only [row_split] at hswap
  exact hswap

theorem swapRows_get (swap : Register 8 → Register 8 → Fin 2 → Register 8)
    (o : Octet (Register 8)) (row : Fin 4) (half : Fin 2) :
    (swapRows swap o).get (cellSlot row half) =
      swap (o.get (cellSlot row 0)) (o.get (cellSlot row 1)) half := by
  fin_cases row <;> fin_cases half <;> rfl

theorem swapQuarters_in (h t : Fin 2) (o : Octet (Register 8)) :
    cells (swapRows swapQuarters o) ∘ Prod.map id (quadPlace h t.val (by omega)) =
      cells o ∘ Prod.map id (pairPlace (2 * h.val + t.val) (by omega)) := by
  funext c
  obtain ⟨row, j⟩ := c
  have hget := swapRows_get swapQuarters o row h
  have hpair := cells_pairPlace o (2 * h.val + t.val) (by omega) row j
  refine Eq.trans ?_ hpair.symm
  refine Eq.trans (congrArg (fun r => lane r (4 * t.val + j.val)) hget) ?_
  exact lane_swapQuarters _ _ h t j

theorem unswapQuarters_out (h t : Fin 2) (o : Octet (Register 8)) :
    cells (swapRows unswapQuarters o) ∘ Prod.map id (pairPlace (2 * h.val + t.val) (by omega)) =
      cells o ∘ Prod.map id (quadPlace h t.val (by omega)) := by
  funext c
  obtain ⟨row, j⟩ := c
  have hpair := cells_pairPlace (swapRows unswapQuarters o) (2 * h.val + t.val) (by omega) row j
  rw [swapRows_get, swapRows_get, lane_unswapQuarters] at hpair
  refine hpair.trans ?_
  fin_cases h <;> rfl

theorem blake2Round_cells (half t : Fin 2) (o : Octet (Register 8)) :
    cells (blake2Round o) ∘ Prod.map id (quadPlace half t.val (by omega)) =
      cellRound (cells o ∘ Prod.map id (quadPlace half t.val (by omega))) :=
  quads_round cells_g half t.val (by omega) o

theorem blake2Round1_cells (half t : Fin 2) (o : Octet (Register 8)) :
    cells (blake2Round1 o) ∘ columnPlace half t = cellRound (cells o ∘ columnPlace half t) := by
  unfold blake2Round1
  rw [swapHalvesAll_out, blake2Round_cells, swapHalvesAll_in]

theorem blake2Round2_cells (h t : Fin 2) (o : Octet (Register 8)) :
    cells (blake2Round2 o) ∘ Prod.map id (pairPlace (2 * h.val + t.val) (by omega)) =
      cellRound (cells o ∘ Prod.map id (pairPlace (2 * h.val + t.val) (by omega))) := by
  unfold blake2Round2
  rw [unswapQuarters_out, blake2Round_cells, swapQuarters_in]

theorem columnSlots_get (i : Fin 2) (row : Fin 4) (half : Fin 2) :
    ((columnSlots i).get (cellSlot row half)).val =
      8 * i.val + 4 * half.val + (2 * (row.val % 2) + row.val / 2) := by
  fin_cases row <;> fin_cases half <;> rfl

theorem rowSlots_get (i : Fin 2) (row : Fin 4) (half : Fin 2) :
    ((rowSlots i).get (cellSlot row half)).val = 4 * row.val + 2 * half.val + i.val := by
  fin_cases row <;> fin_cases half <;> first | rfl | exact (Nat.zero_add _).symm

def columnLayout : Layout 8 16 2 columnSlot where
  slots := columnSlots
  call := fun q => ⟨q.val / 4, by omega⟩
  place := fun q => columnPlace ⟨q.val % 4 / 2, by omega⟩ (parity q)
  disjoint := @slots_disjoint _ _ _
    (fun i row half => 8 * i + 4 * half + (2 * (row % 2) + row / 2)) columnSlots_get (by
      intro i _ j _ row hrow row' hrow' half _ half' _ h
      have hσ : 2 * (row % 2) + row / 2 < 4 := by omega
      have hσ' : 2 * (row' % 2) + row' / 2 < 4 := by omega
      have hi : i = j := by omega
      have hhalf : half = half' := by omega
      exact ⟨hi, by omega, hhalf⟩)
  word := by
    intro q c
    rw [columnSlots_get]
    unfold columnSlot wordIndex columnPlace parity
    dsimp only
    omega

def rowLayout : Layout 8 16 2 rowSlot where
  slots := rowSlots
  call := fun q => ⟨q.val / 4, by omega⟩
  place := fun q => Prod.map id (pairPlace (2 * (q.val % 4 / 2) + (parity q).val) (by omega))
  disjoint := @slots_disjoint _ _ _ (fun i row half => 4 * row + 2 * half + i) rowSlots_get
    (by omega)
  word := by
    intro q c
    rw [rowSlots_get]
    unfold rowSlot wordIndex pairPlace parity
    dsimp only [Prod.map, id]
    omega

theorem passes_scalar : passes.Scalar where
  size := rfl
  columns := store_calls covers_columnSlot columnLayout _ fun q => blake2Round1_cells _ _
  rows := store_calls covers_rowSlot rowLayout _ fun q =>
    blake2Round2_cells ⟨q.val % 4 / 2, by omega⟩ (parity q)

end Rounds

section Prefetching
variable {inst : Instance} {pos : Position}

theorem blockStep_fst (x : Run) :
    (blockStep inst pos x).1 = CarriedSegment.blockStep passes inst pos x.1 := by
  unfold blockStep CarriedSegment.blockStep
  dsimp only
  by_cases h : x.1.1.cursor.i < inst.segmentLength
  · rw [if_pos h, if_pos h]
    rfl
  · rw [if_neg h, if_neg h]

theorem draw_index (s : SegmentState) (arena : Arena) :
    (draw passes inst pos s arena).2.cursor.i = s.cursor.i := by
  rw [draw_eq passes_scalar inst pos, draw_cursor]
  unfold Cursor.rotate
  split_ifs <;> rfl

theorem blockStep_done (x : Run) (h : ¬ x.1.1.cursor.i < inst.segmentLength) :
    blockStep inst pos x = x := if_neg h

theorem loop_fst (arena : Arena) (k : ℕ) :
    (loop inst pos arena k).1 = iteration passes inst pos arena k := by
  induction k with
  | zero => rfl
  | succ k ih =>
    unfold loop iteration at ih ⊢
    rw [Function.iterate_succ_apply', Function.iterate_succ_apply', blockStep_fst, ih]

section Ahead
variable (wf : WellFormed inst) (i : UInt32) (hi : i.toNat < inst.segmentLength.toNat)
include wf hi

theorem ahead_toNat : (i + prefetchDistance).toNat = i.toNat + 2 := by
  have hlane := wf.lane_eq
  have hL := inst.laneLength.toNat_lt
  rw [UInt32.toNat_add]
  exact Nat.mod_eq_of_lt (by
    change i.toNat + 2 < _
    omega)

theorem ahead_group (hslot : (i + prefetchDistance) % 128 > i % 128) :
    (i.toNat + 2) / 128 = i.toNat / 128 := by
  have hlt := UInt32.lt_iff_toNat_lt.mp hslot
  rw [UInt32.toNat_mod, UInt32.toNat_mod, ahead_toNat wf i hi] at hlt
  simp only [UInt32.reduceToNat] at hlt
  omega

end Ahead

variable (wf : WellFormed inst) (hs : InSlice inst pos)
include wf hs

/-- A block two iterations ahead in the segment has its reference in memory. -/
theorem lookAhead_lt (s : SegmentState) (hi : s.cursor.i < inst.segmentLength)
    (hstart : (startingIndex pos).toNat ≤ s.cursor.i.toNat) :
    ∀ o ∈ lookAhead inst pos s, o.toNat < inst.memoryBlocks.toNat := by
  intro o ho
  unfold lookAhead at ho
  dsimp only at ho
  split_ifs at ho with hindependent hahead
  · have hnat := ahead_toNat wf s.cursor.i (UInt32.lt_iff_toNat_lt.mp hi)
    have hlt := UInt32.lt_iff_toNat_lt.mp hahead.1
    have hoffset := refOffset_toNat wf hs (s.cursor.i + prefetchDistance) hlt (by omega)
      (slotWord s.addressBlock (s.cursor.i + prefetchDistance))
    have hcolumn := @refColumn_lt inst pos wf (s.cursor.i + prefetchDistance).toNat
      (slotWord s.addressBlock (s.cursor.i + prefetchDistance))
    have hfits := lane_fits wf _ (refLane_lt wf hs
      (slotWord s.addressBlock (s.cursor.i + prefetchDistance)))
    rw [List.mem_singleton.mp ho]
    change (refOffset inst pos _ _).toNat < _
    omega
  · exact absurd ho List.not_mem_nil
  · exact absurd ho List.not_mem_nil

variable (arena : Arena) (hsize : inst.memoryBlocks.toNat ≤ arena.size)
include hsize

theorem loop_prefetched (k : ℕ) (hk : k ≤ segmentBlocks inst pos) :
    ∀ o ∈ (loop inst pos arena k).2, o.toNat < inst.memoryBlocks.toNat := by
  induction k with
  | zero =>
    intro o ho
    exact absurd ho List.not_mem_nil
  | succ k ih =>
    intro o ho
    have hcursor := iteration_cursor passes_scalar wf hs arena hsize k (by omega)
    have hindex := (cursorOk_at wf hs k (by omega)).index
    rw [← hcursor, ← loop_fst] at hindex
    rw [← loop_fst] at hcursor
    have hactive := (Fill.active_iff wf hs (by omega) hcursor).mpr (by omega)
    have hsucc : loop inst pos arena (k + 1) = blockStep inst pos (loop inst pos arena k) :=
      Function.iterate_succ_apply' _ _ _
    rw [hsucc] at ho
    unfold blockStep at ho
    dsimp only at ho
    rw [if_pos hactive] at ho
    rcases List.mem_append.mp ho with hold | hnew
    · exact ih (by omega) o hold
    · refine lookAhead_lt wf hs _ ?_ ?_ o hnew
      · rw [draw_index]
        exact hactive
      · rw [draw_index, hindex]
        exact Nat.le_add_right _ _

/-- What the look-ahead asks for is the reference block of the iteration after next. -/
theorem lookAhead_exact (k : ℕ) (hk : k < segmentBlocks inst pos) :
    let x := loop inst pos arena k
    ∀ o ∈ lookAhead inst pos (draw passes inst pos x.1.1.toSegmentState x.1.2).2,
      k + 2 < segmentBlocks inst pos ∧
        let y := (Segment.blockStep inst pos)^[k + 2] (Segment.segmentStart inst pos, arena)
        o = (access inst pos y.1 y.2).refOffset := by
  intro x o ho
  have hscalar := (iteration_scalar passes_scalar wf hs arena hsize k hk.le).1
  rw [← loop_fst] at hscalar
  have hcursor : x.1.1.cursor = Cursor.at inst pos k := by
    rw [← iterate_cursor inst pos arena k hk.le wf hs, ← hscalar]
    rfl
  have hi : (startingIndex pos).toNat + k < inst.segmentLength.toNat := by
    unfold segmentBlocks at hk
    omega
  have hindex := ((cursorOk_at wf hs k hk.le).rotate wf hs hi).1
  rw [← hcursor] at hindex
  by_cases hd : dataIndependentAddressing inst pos = true
  · have haddresses : AddressesOk inst pos ((startingIndex pos).toNat + k)
        x.1.1.toSegmentState := by
      have hok := addressesOk_iterate wf hs hd arena k hk.le
      rw [← hscalar] at hok
      exact hok
    have hdraw := draw_independent hd haddresses hindex x.1.2
    rw [draw_eq passes_scalar inst pos, hdraw] at ho
    unfold lookAhead at ho
    dsimp only at ho
    rw [if_pos hd] at ho
    split_ifs at ho with hahead
    · have hnat := ahead_toNat wf _ (hindex.trans_lt hi)
      have hgroup := ahead_group wf _ (hindex.trans_lt hi) hahead.2
      rw [hindex, Nat.add_assoc] at hnat hgroup
      have hi' : (startingIndex pos).toNat + (k + 2) < inst.segmentLength.toNat :=
        hnat.symm.trans_lt (UInt32.lt_iff_toNat_lt.mp hahead.1)
      have hlater : k + 2 < segmentBlocks inst pos := by
        unfold segmentBlocks
        omega
      have hindex' : ((Cursor.at inst pos (k + 2)).rotate inst).i =
          (x.1.1.cursor.rotate inst).i + prefetchDistance := by
        apply UInt32.toNat_inj.mp
        rw [hnat, ((cursorOk_at wf hs (k + 2) hlater.le).rotate wf hs hi').1]
      have hvalue := draw_iterate wf hs hd arena (k + 2) hlater
      refine ⟨hlater, ?_⟩
      dsimp only at hvalue ⊢
      rw [access_eq_accessAt _ _ _ _ (k + 2) (iterate_cursor inst pos arena _ hlater.le wf hs),
        hvalue, hgroup, hindex', List.mem_singleton.mp ho]
      unfold accessAt refOffsetFor
      dsimp only
      rw [hindex']
    · exact absurd ho List.not_mem_nil
  · unfold lookAhead at ho
    rw [if_neg hd] at ho
    exact absurd ho List.not_mem_nil

theorem fillSegmentImpl_eq :
    (fillSegmentImpl inst pos arena).1 = CarriedSegment.fillSegment passes inst pos arena ∧
      ∀ o ∈ (fillSegmentImpl inst pos arena).2, o.toNat < inst.memoryBlocks.toNat := by
  have hcursor := iteration_cursor passes_scalar wf hs arena hsize (segmentBlocks inst pos) le_rfl
  rw [← loop_fst] at hcursor
  have hdone := (Fill.active_iff wf hs le_rfl hcursor).not.mpr (Nat.lt_irrefl _)
  have hall : loop inst pos arena inst.segmentLength.toNat =
      loop inst pos arena (segmentBlocks inst pos) :=
    Fill.iterate_segmentLength wf (blockStep_done _ hdone)
  unfold fillSegmentImpl CarriedSegment.fillSegment
  rw [if_neg wf.not_degenerate, if_neg wf.not_degenerate]
  dsimp only
  refine ⟨by rw [loop_fst], ?_⟩
  rw [hall]
  exact loop_prefetched wf hs arena hsize _ le_rfl

end Prefetching

/-- The AVX-512 backend fills a segment as the scalar backend does: the previous
block stays in its registers, and its blocks and address words are the scalar
ones. Its look-ahead asks for blocks of the instance only, and without the hints
the loop is the same. -/
theorem avx512_eq_scalar {w : PointerWidth} (algorithm : Algorithm) (version : Version)
    (p : Params w) (pos : Position) (hs : InSlice (Instance.new algorithm version p) pos)
    (arena : Arena) (hsize : p.memoryBlocks.toNat ≤ arena.size) :
    let inst := Instance.new algorithm version p
    fillSegment inst pos arena = Segment.fillSegment inst pos arena ∧
      CarriesPrevious inst pos (fun k => (loop inst pos arena k).1) ∧
      (∀ o ∈ (fillSegmentImpl inst pos arena).2, o.toNat < inst.memoryBlocks.toNat) ∧
      (∀ k, (loop inst pos arena k).1 = iteration passes inst pos arena k) ∧
      (∀ state refBlock nextBlock withXor, (fillBlock state refBlock nextBlock withXor).2 =
        Compression.fillBlock (store state) refBlock nextBlock withXor) ∧
      ∀ addressBlock inputBlock, nextAddresses addressBlock inputBlock =
        Compression.nextAddresses addressBlock inputBlock := by
  intro inst
  have wf := new_wellFormed algorithm version p
  obtain ⟨hfill, hprefetched⟩ := fillSegmentImpl_eq wf hs arena hsize
  refine ⟨hfill.trans (fillSegment_scalar passes_scalar wf hs arena hsize), ?_, hprefetched,
    loop_fst arena, fillBlock_snd passes_scalar, nextAddresses_eq passes_scalar⟩
  have hloop : (fun k => (loop inst pos arena k).1) = iteration passes inst pos arena := by
    funext k
    exact loop_fst arena k
  rw [hloop]
  exact carriesPrevious passes_scalar wf hs arena hsize

theorem avx512_eq_scalar_least :
    fillSegment (Instance.new .argon2i .v0x13 Params.least) ⟨1, 0, 0, 0⟩
        (countedArena 8) =
      Segment.fillSegment (Instance.new .argon2i .v0x13 Params.least) ⟨1, 0, 0, 0⟩
        (countedArena 8) :=
  (avx512_eq_scalar .argon2i .v0x13 Params.least ⟨1, 0, 0, 0⟩ ⟨by decide, by decide⟩
    (countedArena 8) (countedArena_size 8).ge).1

end Argon2Rust.Avx512
