import Argon2Rust.CarriedSegment
import Argon2Rust.RegisterTurns

set_option autoImplicit false

namespace Argon2Rust.Sse2
open Parameters Bytes Compression IndexAlpha Segment Simd LaneRounds RoundCells RegisterBlock
  RegisterTurns CarriedSegment

def r24 : List UInt8 := [3, 4, 5, 6, 7, 0, 1, 2, 11, 12, 13, 14, 15, 8, 9, 10]

def r16 : List UInt8 := [2, 3, 4, 5, 6, 7, 0, 1, 10, 11, 12, 13, 14, 15, 8, 9]

def fBlamka (x y : Register 2) : Register 2 :=
  let z := mulEpu32 x y
  addEpi64 (addEpi64 x y) (addEpi64 z z)

section Modes
variable (ssse3 : Bool)

def rot32 (x : Register 2) : Register 2 :=
  if ssse3 then shuffleEpi32 0b10110001 x else xorSi (srliEpi64 32 x) (slliEpi64 32 x)

def rot24 (x : Register 2) : Register 2 :=
  if ssse3 then shuffleEpi8 x (loaduBytes r24) else xorSi (srliEpi64 24 x) (slliEpi64 40 x)

def rot16 (x : Register 2) : Register 2 :=
  if ssse3 then shuffleEpi8 x (loaduBytes r16) else xorSi (srliEpi64 16 x) (slliEpi64 48 x)

def rot63 (x : Register 2) : Register 2 :=
  if ssse3 then xorSi (srliEpi64 63 x) (addEpi64 x x)
  else xorSi (srliEpi64 63 x) (slliEpi64 1 x)

def g1 : Octet (Register 2) → Octet (Register 2) := halfRound fBlamka (rot32 ssse3) (rot24 ssse3)

def g2 : Octet (Register 2) → Octet (Register 2) := halfRound fBlamka (rot16 ssse3) (rot63 ssse3)

def diagonalize (o : Octet (Register 2)) : Octet (Register 2) :=
  if ssse3 then
    { o with
      b0 := alignrEpi8 8 o.b1 o.b0
      b1 := alignrEpi8 8 o.b0 o.b1
      c0 := o.c1
      c1 := o.c0
      d0 := alignrEpi8 8 o.d0 o.d1
      d1 := alignrEpi8 8 o.d1 o.d0 }
  else
    { o with
      b0 := unpackhiEpi64 o.b0 (unpackloEpi64 o.b1 o.b1)
      b1 := unpackhiEpi64 o.b1 (unpackloEpi64 o.b0 o.b0)
      c0 := o.c1
      c1 := o.c0
      d0 := unpackhiEpi64 o.d1 (unpackloEpi64 o.d0 o.d0)
      d1 := unpackhiEpi64 o.d0 (unpackloEpi64 o.d1 o.d1) }

def undiagonalize (o : Octet (Register 2)) : Octet (Register 2) :=
  if ssse3 then
    { o with
      b0 := alignrEpi8 8 o.b0 o.b1
      b1 := alignrEpi8 8 o.b1 o.b0
      c0 := o.c1
      c1 := o.c0
      d0 := alignrEpi8 8 o.d1 o.d0
      d1 := alignrEpi8 8 o.d0 o.d1 }
  else
    { o with
      b0 := unpackhiEpi64 o.b1 (unpackloEpi64 o.b0 o.b0)
      b1 := unpackhiEpi64 o.b0 (unpackloEpi64 o.b1 o.b1)
      c0 := o.c1
      c1 := o.c0
      d0 := unpackhiEpi64 o.d0 (unpackloEpi64 o.d1 o.d1)
      d1 := unpackhiEpi64 o.d1 (unpackloEpi64 o.d0 o.d0) }

def blake2Round (o : Octet (Register 2)) : Octet (Register 2) :=
  undiagonalize ssse3 (g2 ssse3 (g1 ssse3 (diagonalize ssse3 (g2 ssse3 (g1 ssse3 o)))))

end Modes

def columnSlots (i : Fin 8) : Octet (Fin 64) where
  a0 := ⟨8 * i.val, by omega⟩
  a1 := ⟨8 * i.val + 1, by omega⟩
  b0 := ⟨8 * i.val + 2, by omega⟩
  b1 := ⟨8 * i.val + 3, by omega⟩
  c0 := ⟨8 * i.val + 4, by omega⟩
  c1 := ⟨8 * i.val + 5, by omega⟩
  d0 := ⟨8 * i.val + 6, by omega⟩
  d1 := ⟨8 * i.val + 7, by omega⟩

def rowSlots (i : Fin 8) : Octet (Fin 64) where
  a0 := ⟨i.val, by omega⟩
  a1 := ⟨8 + i.val, by omega⟩
  b0 := ⟨16 + i.val, by omega⟩
  b1 := ⟨24 + i.val, by omega⟩
  c0 := ⟨32 + i.val, by omega⟩
  c1 := ⟨40 + i.val, by omega⟩
  d0 := ⟨48 + i.val, by omega⟩
  d1 := ⟨56 + i.val, by omega⟩

section Modes
variable (ssse3 : Bool)

def passes : Passes 2 64 where
  columns := fun s => Fin.foldl 8 (fun s i => roundOn (blake2Round ssse3) (columnSlots i) s) s
  rows := fun s => Fin.foldl 8 (fun s i => roundOn (blake2Round ssse3) (rowSlots i) s) s

def fillBlock (state : Registers 2 64) (refBlock nextBlock : Block) (withXor : Bool) :
    Registers 2 64 × Block := RegisterBlock.fillBlock (passes ssse3) state refBlock nextBlock withXor

def nextAddresses (addressBlock inputBlock : Block) : Block × Block :=
  RegisterBlock.nextAddresses (passes ssse3) addressBlock inputBlock

def fillSegmentImpl (inst : Instance) (pos : Position) (arena : Arena) : Arena :=
  CarriedSegment.fillSegment (passes ssse3) inst pos arena

end Modes

def fillSegmentSsse3 : Instance → Position → Arena → Arena := fillSegmentImpl true

def fillSegmentSse2Only : Instance → Position → Arena → Arena := fillSegmentImpl false

/-- `fill_segment`, over what `have_ssse3` answers. -/
def fillSegment (haveSsse3 : Bool) (inst : Instance) (pos : Position) (arena : Arena) : Arena :=
  if haveSsse3 then fillSegmentSsse3 inst pos arena else fillSegmentSse2Only inst pos arena

section Lanes
variable (ssse3 : Bool)

theorem lane_fBlamka (x y : Register 2) (l : ℕ) (hl : l < 2) :
    lane (fBlamka x y) l = Compression.fBlamka (lane x l) (lane y l) := by
  unfold fBlamka Compression.fBlamka addEpi64 mulEpu32
  simp only [lane_ofLanes _ hl]
  exact (muladd_eq _ _ _).1

theorem r24_table : ∀ l < 2, ∀ j < 8,
    r24.getD (8 * l + j) 0 = UInt8.ofNat (8 * (l % 2) + (j + 3) % 8) := by decide

theorem r16_table : ∀ l < 2, ∀ j < 8,
    r16.getD (8 * l + j) 0 = UInt8.ofNat (8 * (l % 2) + (j + 2) % 8) := by decide

theorem lane_rot32 (x : Register 2) (l : ℕ) (hl : l < 2) :
    lane (rot32 ssse3 x) l = rotateRight (lane x l) 32 := by
  refine Eq.trans ?_ (ror_eq _ 32 (by decide) (by decide))
  cases ssse3 with
  | true => exact lane_shuffleEpi32 x hl
  | false => exact lane_shifts x 32 (by decide) (by decide) hl

theorem lane_rot24 (x : Register 2) (l : ℕ) (hl : l < 2) :
    lane (rot24 ssse3 x) l = rotateRight (lane x l) 24 := by
  refine Eq.trans ?_ (ror_eq _ 24 (by decide) (by decide))
  cases ssse3 with
  | true => exact lane_shuffleEpi8 x r24 3 (by decide) hl (r24_table l hl)
  | false => exact lane_shifts x 24 (by decide) (by decide) hl

theorem lane_rot16 (x : Register 2) (l : ℕ) (hl : l < 2) :
    lane (rot16 ssse3 x) l = rotateRight (lane x l) 16 := by
  refine Eq.trans ?_ (ror_eq _ 16 (by decide) (by decide))
  cases ssse3 with
  | true => exact lane_shuffleEpi8 x r16 2 (by decide) hl (r16_table l hl)
  | false => exact lane_shifts x 16 (by decide) (by decide) hl

theorem lane_rot63 (x : Register 2) (l : ℕ) (hl : l < 2) :
    lane (rot63 ssse3 x) l = rotateRight (lane x l) 63 := by
  refine Eq.trans ?_ (ror_eq _ 63 (by decide) (by decide))
  cases ssse3 with
  | true => exact lane_shiftDouble x hl
  | false => exact lane_shifts x 63 (by decide) (by decide) hl

end Lanes

section Rounds
variable (ssse3 : Bool)

theorem cells_g (o : Octet (Register 2)) :
    cells (g2 ssse3 (g1 ssse3 o)) = mix columnValues (cells o) := by
  unfold g1 g2
  rw [cells_halfRound lane_fBlamka (lane_rot16 ssse3) (lane_rot63 ssse3),
    cells_halfRound lane_fBlamka (lane_rot32 ssse3) (lane_rot24 ssse3), mix_mix]
  rfl

theorem diagonalize_turns (o : Octet (Register 2)) : PairsTurned o (diagonalize ssse3 o) := by
  cases ssse3 with
  | true =>
    exact ⟨rfl, rfl, fun l hl => lane_alignrEpi8 _ _ hl, fun l hl => lane_alignrEpi8 _ _ hl, rfl,
      rfl, fun l hl => lane_alignrEpi8 _ _ hl, fun l hl => lane_alignrEpi8 _ _ hl⟩
  | false =>
    exact ⟨rfl, rfl, fun l hl => lane_unpack _ _ rfl hl, fun l hl => lane_unpack _ _ rfl hl, rfl,
      rfl, fun l hl => lane_unpack _ _ rfl hl, fun l hl => lane_unpack _ _ rfl hl⟩

theorem undiagonalize_turns (o : Octet (Register 2)) :
    PairsUndone o (undiagonalize ssse3 o) := by
  cases ssse3 with
  | true =>
    exact ⟨rfl, rfl, fun l hl => lane_alignrEpi8 _ _ hl, fun l hl => lane_alignrEpi8 _ _ hl, rfl,
      rfl, fun l hl => lane_alignrEpi8 _ _ hl, fun l hl => lane_alignrEpi8 _ _ hl⟩
  | false =>
    exact ⟨rfl, rfl, fun l hl => lane_unpack _ _ rfl hl, fun l hl => lane_unpack _ _ rfl hl, rfl,
      rfl, fun l hl => lane_unpack _ _ rfl hl, fun l hl => lane_unpack _ _ rfl hl⟩

theorem blake2Round_cells (o : Octet (Register 2)) :
    cells (blake2Round ssse3 o) ∘ Prod.map id (pairPlace 0 (by decide)) =
      cellRound (cells o ∘ Prod.map id (pairPlace 0 (by decide))) :=
  pairs_round (cells_g ssse3) (diagonalize_turns ssse3) (undiagonalize_turns ssse3) 0 (by decide) o

theorem columnSlots_get (i : Fin 8) (row : Fin 4) (half : Fin 2) :
    ((columnSlots i).get (cellSlot row half)).val = 8 * i.val + 2 * row.val + half.val := by
  fin_cases row <;> fin_cases half <;> rfl

theorem rowSlots_get (i : Fin 8) (row : Fin 4) (half : Fin 2) :
    ((rowSlots i).get (cellSlot row half)).val = 16 * row.val + 8 * half.val + i.val := by
  fin_cases row <;> fin_cases half <;> first | rfl | exact (Nat.zero_add _).symm

def columnLayout : Layout 2 64 8 columnSlot where
  slots := columnSlots
  call := id
  place := fun _ => Prod.map id (pairPlace 0 (by decide))
  disjoint := @slots_disjoint _ _ _ (fun i row half => 8 * i + 2 * row + half) columnSlots_get
    (by omega)
  word := by
    intro q c
    rw [columnSlots_get]
    unfold columnSlot wordIndex pairPlace
    dsimp only [Prod.map, id]
    omega

def rowLayout : Layout 2 64 8 rowSlot where
  slots := rowSlots
  call := id
  place := fun _ => Prod.map id (pairPlace 0 (by decide))
  disjoint := @slots_disjoint _ _ _ (fun i row half => 16 * row + 8 * half + i) rowSlots_get
    (by omega)
  word := by
    intro q c
    rw [rowSlots_get]
    unfold rowSlot wordIndex pairPlace
    dsimp only [Prod.map, id]
    omega

theorem passes_scalar : (passes ssse3).Scalar where
  size := rfl
  columns := store_calls covers_columnSlot columnLayout _ fun _ => blake2Round_cells ssse3
  rows := store_calls covers_rowSlot rowLayout _ fun _ => blake2Round_cells ssse3

end Rounds

/-- Both 128-bit modes, and the entry point whatever the probe answers, fill a
segment as the scalar backend does: the previous block stays in their registers,
and their blocks and address words are the scalar ones. -/
theorem sse2_eq_scalar {w : PointerWidth} (algorithm : Algorithm) (version : Version)
    (p : Params w) (pos : Position) (hs : InSlice (Instance.new algorithm version p) pos)
    (arena : Arena) (hsize : p.memoryBlocks.toNat ≤ arena.size) :
    let inst := Instance.new algorithm version p
    fillSegmentSse2Only inst pos arena = Segment.fillSegment inst pos arena ∧
      fillSegmentSsse3 inst pos arena = Segment.fillSegment inst pos arena ∧
      (∀ haveSsse3, fillSegment haveSsse3 inst pos arena = Segment.fillSegment inst pos arena) ∧
      ∀ ssse3, CarriesPrevious inst pos (iteration (passes ssse3) inst pos arena) ∧
        (∀ state refBlock nextBlock withXor,
          (fillBlock ssse3 state refBlock nextBlock withXor).2 =
            Compression.fillBlock (store state) refBlock nextBlock withXor) ∧
        ∀ addressBlock inputBlock, nextAddresses ssse3 addressBlock inputBlock =
          Compression.nextAddresses addressBlock inputBlock := by
  intro inst
  have wf := new_wellFormed algorithm version p
  have hmode : ∀ ssse3, fillSegmentImpl ssse3 inst pos arena = Segment.fillSegment inst pos arena :=
    fun ssse3 => fillSegment_scalar (passes_scalar ssse3) wf hs arena hsize
  refine ⟨hmode false, hmode true, fun haveSsse3 => ?_,
    fun ssse3 => ⟨carriesPrevious (passes_scalar ssse3) wf hs arena hsize,
      fillBlock_snd (passes_scalar ssse3), nextAddresses_eq (passes_scalar ssse3)⟩⟩
  cases haveSsse3 with
  | false => exact hmode false
  | true => exact hmode true

theorem sse2_eq_scalar_least :
    fillSegmentSsse3 (Instance.new .argon2id .v0x13 Params.least) ⟨1, 0, 0, 0⟩
        (countedArena 8) =
      Segment.fillSegment (Instance.new .argon2id .v0x13 Params.least) ⟨1, 0, 0, 0⟩
        (countedArena 8) :=
  (sse2_eq_scalar .argon2id .v0x13 Params.least ⟨1, 0, 0, 0⟩ ⟨by decide, by decide⟩
    (countedArena 8) (countedArena_size 8).ge).2.1

end Argon2Rust.Sse2
