import Argon2Rust.CarriedSegment
import Argon2Rust.RegisterTurns

set_option autoImplicit false

namespace Argon2Rust.Avx2
open Parameters Bytes Compression IndexAlpha Segment Simd LaneRounds RoundCells RegisterBlock
  RegisterTurns CarriedSegment

def r24 : List UInt8 :=
  [3, 4, 5, 6, 7, 0, 1, 2, 11, 12, 13, 14, 15, 8, 9, 10,
    3, 4, 5, 6, 7, 0, 1, 2, 11, 12, 13, 14, 15, 8, 9, 10]

def r16 : List UInt8 :=
  [2, 3, 4, 5, 6, 7, 0, 1, 10, 11, 12, 13, 14, 15, 8, 9,
    2, 3, 4, 5, 6, 7, 0, 1, 10, 11, 12, 13, 14, 15, 8, 9]

def rotr32 (x : Register 4) : Register 4 := shuffleEpi32 0b10110001 x

def rotr24 (x : Register 4) : Register 4 := shuffleEpi8 x (loaduBytes r24)

def rotr16 (x : Register 4) : Register 4 := shuffleEpi8 x (loaduBytes r16)

def rotr63 (x : Register 4) : Register 4 := xorSi (srliEpi64 63 x) (addEpi64 x x)

def muladd (a b : Register 4) : Register 4 :=
  let ml := mulEpu32 a b
  let ml := addEpi64 ml ml
  addEpi64 a (addEpi64 b ml)

def g1 : Octet (Register 4) → Octet (Register 4) := halfRound muladd rotr32 rotr24

def g2 : Octet (Register 4) → Octet (Register 4) := halfRound muladd rotr16 rotr63

def diagonalize1 : Octet (Register 4) → Octet (Register 4) :=
  turnRows permute4x64Epi64 0b00111001 0b01001110 0b10010011

def undiagonalize1 : Octet (Register 4) → Octet (Register 4) :=
  turnRows permute4x64Epi64 0b10010011 0b01001110 0b00111001

def diagonalize2 (o : Octet (Register 4)) : Octet (Register 4) :=
  { o with
    b1 := permute4x64Epi64 0b10110001 (blendEpi32 0xCC o.b0 o.b1)
    b0 := permute4x64Epi64 0b10110001 (blendEpi32 0x33 o.b0 o.b1)
    c0 := o.c1
    c1 := o.c0
    d0 := permute4x64Epi64 0b10110001 (blendEpi32 0xCC o.d0 o.d1)
    d1 := permute4x64Epi64 0b10110001 (blendEpi32 0x33 o.d0 o.d1) }

def undiagonalize2 (o : Octet (Register 4)) : Octet (Register 4) :=
  { o with
    b0 := permute4x64Epi64 0b10110001 (blendEpi32 0xCC o.b0 o.b1)
    b1 := permute4x64Epi64 0b10110001 (blendEpi32 0x33 o.b0 o.b1)
    c0 := o.c1
    c1 := o.c0
    d0 := permute4x64Epi64 0b10110001 (blendEpi32 0x33 o.d0 o.d1)
    d1 := permute4x64Epi64 0b10110001 (blendEpi32 0xCC o.d0 o.d1) }

def blake2Round1 (o : Octet (Register 4)) : Octet (Register 4) :=
  undiagonalize1 (g2 (g1 (diagonalize1 (g2 (g1 o)))))

def blake2Round2 (o : Octet (Register 4)) : Octet (Register 4) :=
  undiagonalize2 (g2 (g1 (diagonalize2 (g2 (g1 o)))))

/-- The arguments of the `i`-th column round, which the source does not pass in order. -/
def columnSlots (i : Fin 4) : Octet (Fin 32) where
  a0 := ⟨8 * i.val, by omega⟩
  a1 := ⟨8 * i.val + 4, by omega⟩
  b0 := ⟨8 * i.val + 1, by omega⟩
  b1 := ⟨8 * i.val + 5, by omega⟩
  c0 := ⟨8 * i.val + 2, by omega⟩
  c1 := ⟨8 * i.val + 6, by omega⟩
  d0 := ⟨8 * i.val + 3, by omega⟩
  d1 := ⟨8 * i.val + 7, by omega⟩

def rowSlots (i : Fin 4) : Octet (Fin 32) where
  a0 := ⟨i.val, by omega⟩
  a1 := ⟨4 + i.val, by omega⟩
  b0 := ⟨8 + i.val, by omega⟩
  b1 := ⟨12 + i.val, by omega⟩
  c0 := ⟨16 + i.val, by omega⟩
  c1 := ⟨20 + i.val, by omega⟩
  d0 := ⟨24 + i.val, by omega⟩
  d1 := ⟨28 + i.val, by omega⟩

def passes : Passes 4 32 where
  columns := fun s => Fin.foldl 4 (fun s i => roundOn blake2Round1 (columnSlots i) s) s
  rows := fun s => Fin.foldl 4 (fun s i => roundOn blake2Round2 (rowSlots i) s) s

def fillBlock (state : Registers 4 32) (refBlock nextBlock : Block) (withXor : Bool) :
    Registers 4 32 × Block := RegisterBlock.fillBlock passes state refBlock nextBlock withXor

def nextAddresses (addressBlock inputBlock : Block) : Block × Block :=
  RegisterBlock.nextAddresses passes addressBlock inputBlock

def fillSegment (inst : Instance) (pos : Position) (arena : Arena) : Arena :=
  CarriedSegment.fillSegment passes inst pos arena

section Lanes

theorem lane_muladd (x y : Register 4) (l : ℕ) (hl : l < 4) :
    lane (muladd x y) l = fBlamka (lane x l) (lane y l) := by
  unfold muladd fBlamka addEpi64 mulEpu32
  simp only [lane_ofLanes _ hl]
  exact (muladd_eq _ _ _).2

theorem r24_table : ∀ l < 4, ∀ j < 8,
    r24.getD (8 * l + j) 0 = UInt8.ofNat (8 * (l % 2) + (j + 3) % 8) := by decide

theorem r16_table : ∀ l < 4, ∀ j < 8,
    r16.getD (8 * l + j) 0 = UInt8.ofNat (8 * (l % 2) + (j + 2) % 8) := by decide

theorem lane_rotr32 (x : Register 4) (l : ℕ) (hl : l < 4) :
    lane (rotr32 x) l = rotateRight (lane x l) 32 :=
  (lane_shuffleEpi32 x hl).trans (ror_eq _ 32 (by decide) (by decide))

theorem lane_rotr24 (x : Register 4) (l : ℕ) (hl : l < 4) :
    lane (rotr24 x) l = rotateRight (lane x l) 24 :=
  (lane_shuffleEpi8 x r24 3 (by decide) hl (r24_table l hl)).trans
    (ror_eq _ 24 (by decide) (by decide))

theorem lane_rotr16 (x : Register 4) (l : ℕ) (hl : l < 4) :
    lane (rotr16 x) l = rotateRight (lane x l) 16 :=
  (lane_shuffleEpi8 x r16 2 (by decide) hl (r16_table l hl)).trans
    (ror_eq _ 16 (by decide) (by decide))

theorem lane_rotr63 (x : Register 4) (l : ℕ) (hl : l < 4) :
    lane (rotr63 x) l = rotateRight (lane x l) 63 :=
  (lane_shiftDouble x hl).trans (ror_eq _ 63 (by decide) (by decide))

theorem lane_swap (x : Register 4) (l : ℕ) (hl : l < 4) :
    lane (permute4x64Epi64 0b10110001 x) l = if l % 2 = 0 then lane x (l + 1) else lane x (l - 1) := by
  have hselect : ∀ l < 4, 4 * (l / 4) + select 0b10110001 (l % 4) =
      if l % 2 = 0 then l + 1 else l - 1 := by decide
  unfold permute4x64Epi64 permutexEpi64
  rw [lane_ofLanes _ hl, hselect l hl]
  split_ifs <;> rfl

theorem lane_blendParity {imm parity : ℕ}
    (hmask : ∀ l < 4, Nat.testBit imm (2 * l + 1) = Nat.testBit imm (2 * l))
    (htest : ∀ l < 4, Nat.testBit imm (2 * l) = true ↔ l % 2 = parity)
    (x y : Register 4) (l : ℕ) (hl : l < 4) :
    lane (blendEpi32 imm x y) l = if l % 2 = parity then lane y l else lane x l := by
  rw [lane_blendEpi32 _ _ _ hl (hmask l hl)]
  simp only [htest l hl]

theorem lane_funnelOdd (x y : Register 4) (l : ℕ) (hl : l < 4) :
    lane (permute4x64Epi64 0b10110001 (blendEpi32 0xCC x y)) l = funnel x y l := by
  have hblend := @lane_blendParity 0xCC 1 (by decide) (by decide) x y
  rw [lane_swap _ l hl]
  unfold funnel
  by_cases h : l % 2 = 0
  · rw [if_pos h, if_pos h, hblend _ (by omega), if_pos (by omega)]
  · rw [if_neg h, if_neg h, hblend _ (by omega), if_neg (by omega)]

theorem lane_funnelEven (x y : Register 4) (l : ℕ) (hl : l < 4) :
    lane (permute4x64Epi64 0b10110001 (blendEpi32 0x33 x y)) l = funnel y x l := by
  have hblend := @lane_blendParity 0x33 0 (by decide) (by decide) x y
  rw [lane_swap _ l hl]
  unfold funnel
  by_cases h : l % 2 = 0
  · rw [if_pos h, if_pos h, hblend _ (by omega), if_neg (by omega)]
  · rw [if_neg h, if_neg h, hblend _ (by omega), if_pos (by omega)]

end Lanes

section Rounds

theorem cells_g (o : Octet (Register 4)) : cells (g2 (g1 o)) = mix columnValues (cells o) := by
  unfold g1 g2
  rw [cells_halfRound lane_muladd lane_rotr16 lane_rotr63,
    cells_halfRound lane_muladd lane_rotr32 lane_rotr24, mix_mix]
  rfl

/-- A column round is one round in each register set. -/
theorem blake2Round1_cells (half : Fin 2) (o : Octet (Register 4)) :
    cells (blake2Round1 o) ∘ Prod.map id (quadPlace half 0 (by decide)) =
      cellRound (cells o ∘ Prod.map id (quadPlace half 0 (by decide))) :=
  quads_round cells_g half 0 (by decide) o

theorem diagonalize2_turns (o : Octet (Register 4)) : PairsTurned o (diagonalize2 o) where
  a0 := rfl
  a1 := rfl
  b0 := fun l hl => lane_funnelEven o.b0 o.b1 l hl
  b1 := fun l hl => lane_funnelOdd o.b0 o.b1 l hl
  c0 := rfl
  c1 := rfl
  d0 := fun l hl => lane_funnelOdd o.d0 o.d1 l hl
  d1 := fun l hl => lane_funnelEven o.d0 o.d1 l hl

theorem undiagonalize2_turns (o : Octet (Register 4)) : PairsUndone o (undiagonalize2 o) where
  a0 := rfl
  a1 := rfl
  b0 := fun l hl => lane_funnelOdd o.b0 o.b1 l hl
  b1 := fun l hl => lane_funnelEven o.b0 o.b1 l hl
  c0 := rfl
  c1 := rfl
  d0 := fun l hl => lane_funnelEven o.d0 o.d1 l hl
  d1 := fun l hl => lane_funnelOdd o.d0 o.d1 l hl

theorem blake2Round2_cells (g : Fin 2) (o : Octet (Register 4)) :
    cells (blake2Round2 o) ∘ Prod.map id (pairPlace g.val (by omega)) =
      cellRound (cells o ∘ Prod.map id (pairPlace g.val (by omega))) :=
  pairs_round cells_g diagonalize2_turns undiagonalize2_turns g.val (by omega) o

theorem columnSlots_get (i : Fin 4) (row : Fin 4) (half : Fin 2) :
    ((columnSlots i).get (cellSlot row half)).val = 8 * i.val + 4 * half.val + row.val := by
  fin_cases row <;> fin_cases half <;> rfl

theorem rowSlots_get (i : Fin 4) (row : Fin 4) (half : Fin 2) :
    ((rowSlots i).get (cellSlot row half)).val = 8 * row.val + 4 * half.val + i.val := by
  fin_cases row <;> fin_cases half <;> first | rfl | exact (Nat.zero_add _).symm

def columnLayout : Layout 4 32 4 columnSlot where
  slots := columnSlots
  call := fun q => ⟨q.val / 2, by omega⟩
  place := fun q => Prod.map id (quadPlace (parity q) 0 (by decide))
  disjoint := @slots_disjoint _ _ _ (fun i row half => 8 * i + 4 * half + row) columnSlots_get
    (by omega)
  word := by
    intro q c
    rw [columnSlots_get]
    unfold columnSlot wordIndex quadPlace parity
    dsimp only [Prod.map, id]
    omega

def rowLayout : Layout 4 32 4 rowSlot where
  slots := rowSlots
  call := fun q => ⟨q.val / 2, by omega⟩
  place := fun q => Prod.map id (pairPlace (parity q).val (by omega))
  disjoint := @slots_disjoint _ _ _ (fun i row half => 8 * row + 4 * half + i) rowSlots_get
    (by omega)
  word := by
    intro q c
    rw [rowSlots_get]
    unfold rowSlot wordIndex pairPlace parity
    dsimp only [Prod.map, id]
    omega

theorem passes_scalar : passes.Scalar where
  size := rfl
  columns := store_calls covers_columnSlot columnLayout _ fun _ => blake2Round1_cells _
  rows := store_calls covers_rowSlot rowLayout _ fun q => blake2Round2_cells (parity q)

end Rounds

/-- The AVX2 backend fills a segment as the scalar backend does: the previous block
stays in its registers, and its blocks and address words are the scalar ones. -/
theorem avx2_eq_scalar {w : PointerWidth} (algorithm : Algorithm) (version : Version)
    (p : Params w) (pos : Position) (hs : InSlice (Instance.new algorithm version p) pos)
    (arena : Arena) (hsize : p.memoryBlocks.toNat ≤ arena.size) :
    let inst := Instance.new algorithm version p
    fillSegment inst pos arena = Segment.fillSegment inst pos arena ∧
      CarriesPrevious inst pos (iteration passes inst pos arena) ∧
      (∀ state refBlock nextBlock withXor, (fillBlock state refBlock nextBlock withXor).2 =
        Compression.fillBlock (store state) refBlock nextBlock withXor) ∧
      ∀ addressBlock inputBlock, nextAddresses addressBlock inputBlock =
        Compression.nextAddresses addressBlock inputBlock := by
  intro inst
  have wf := new_wellFormed algorithm version p
  exact ⟨fillSegment_scalar passes_scalar wf hs arena hsize,
    carriesPrevious passes_scalar wf hs arena hsize, fillBlock_snd passes_scalar,
    nextAddresses_eq passes_scalar⟩

theorem avx2_eq_scalar_least :
    fillSegment (Instance.new .argon2d .v0x13 Params.least) ⟨1, 0, 0, 0⟩
        (countedArena 8) =
      Segment.fillSegment (Instance.new .argon2d .v0x13 Params.least) ⟨1, 0, 0, 0⟩
        (countedArena 8) :=
  (avx2_eq_scalar .argon2d .v0x13 Params.least ⟨1, 0, 0, 0⟩ ⟨by decide, by decide⟩
    (countedArena 8) (countedArena_size 8).ge).1

end Argon2Rust.Avx2
