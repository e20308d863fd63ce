import Argon2Rust.PairedRound
import Argon2Rust.PlainSegment
import Argon2Rust.Sse2

set_option autoImplicit false

namespace Argon2Rust.Wasm128
open Parameters Bytes Compression IndexAlpha Segment ReferenceWindow Simd LaneRounds RoundCells
  RegisterBlock RegisterTurns PairedRound

section Instructions

/-- Bytes of the pair `x`, `y` by number: the first sixteen are those of `x`. -/
def i8x16Shuffle (index : List ℕ) (x y : Register 2) : Register 2 :=
  ofLanes fun l => ofBytes fun j =>
    let k := index.getD (8 * l + j) 0
    if k < 16 then byte x k else byte y (k - 16)

def i32x4Shuffle (index : List ℕ) (x y : Register 2) : Register 2 :=
  ofLanes fun l => ofDwords fun j =>
    let k := index.getD (2 * l + j) 0
    if k < 4 then dword x k else dword y (k - 4)

def i64x2Shuffle (index : List ℕ) (x y : Register 2) : Register 2 :=
  ofLanes fun l =>
    let k := index.getD l 0
    if k < 2 then lane x k else lane y (k - 2)

def u64x2ExtmulLowU32x4 (x y : Register 2) : Register 2 := mulLow x y

def u64x2ExtmulHighU32x4 (x y : Register 2) : Register 2 := mulHigh x y

/-- The shift count is taken modulo the width of a lane. -/
def u64x2Shr (x : Register 2) (count : ℕ) : Register 2 := srliEpi64 (count % 64) x

def i64x2Add (x y : Register 2) : Register 2 := addEpi64 x y

def v128Xor (x y : Register 2) : Register 2 := xorSi x y

end Instructions

def fBlamka2 (x0 y0 x1 y1 : Register 2) : Register 2 × Register 2 :=
  let xe := i32x4Shuffle [0, 2, 4, 6] x0 x1
  let ye := i32x4Shuffle [0, 2, 4, 6] y0 y1
  let z0 := u64x2ExtmulLowU32x4 xe ye
  let z1 := u64x2ExtmulHighU32x4 xe ye
  (i64x2Add (i64x2Add x0 y0) (i64x2Add z0 z0), i64x2Add (i64x2Add x1 y1) (i64x2Add z1 z1))

def ror32 (x : Register 2) : Register 2 := i32x4Shuffle [1, 0, 3, 2] x x

def r24 : List ℕ := [3, 4, 5, 6, 7, 0, 1, 2, 11, 12, 13, 14, 15, 8, 9, 10]

def r16 : List ℕ := [2, 3, 4, 5, 6, 7, 0, 1, 10, 11, 12, 13, 14, 15, 8, 9]

def ror24 (x : Register 2) : Register 2 := i8x16Shuffle r24 x x

def ror16 (x : Register 2) : Register 2 := i8x16Shuffle r16 x x

def ror63 (x : Register 2) : Register 2 := v128Xor (u64x2Shr x 63) (i64x2Add x x)

def alignr8 (hi lo : Register 2) : Register 2 := i64x2Shuffle [1, 2] lo hi

def g1 : Octet (Register 2) → Octet (Register 2) := pairedHalf fBlamka2 ror32 ror24

def g2 : Octet (Register 2) → Octet (Register 2) := pairedHalf fBlamka2 ror16 ror63

def diagonalize : Octet (Register 2) → Octet (Register 2) := diagonalizeBy alignr8

def undiagonalize : Octet (Register 2) → Octet (Register 2) := undiagonalizeBy alignr8

def round8 (o : Octet (Register 2)) : Octet (Register 2) :=
  undiagonalize (g2 (g1 (diagonalize (g2 (g1 o)))))

def passes : Passes 2 64 where
  columns := fun s => Fin.foldl 8 (fun s i => roundOn round8 (Sse2.columnSlots i) s) s
  rows := fun s => Fin.foldl 8 (fun s i => roundOn round8 (Sse2.rowSlots i) s) s

/-- `fill_block`: every load of the three blocks precedes the first store. -/
def fillBlock (prevBlock refBlock nextBlock : Block) (withXor : Bool) : Block :=
  let state : Registers 2 64 := Vector.zipWith v128Xor (load prevBlock) (load refBlock)
  let xy := if withXor then Vector.zipWith v128Xor state (load nextBlock) else state
  let state := passes.rows (passes.columns state)
  store (Vector.zipWith v128Xor xy state)

/-- `next_addresses`: the source block of the second call is its destination block. -/
def nextAddresses (addressBlock inputBlock : Block) : Block × Block :=
  let inputBlock := inputBlock.set 6 (inputBlock.get ⟨6, counterWord_lt⟩ + 1) counterWord_lt
  let addressBlock := fillBlock Block.zero inputBlock addressBlock false
  let addressBlock := fillBlock Block.zero addressBlock addressBlock false
  (addressBlock, inputBlock)

section InPlace

/-- Memory by the words that the pointers of `fill_block` count. -/
abbrev Words := ℕ → UInt64

def read (n p : ℕ) (memory : Words) : Vector UInt64 n := Vector.ofFn fun l => memory (p + l.val)

def write {n : ℕ} (p : ℕ) (v : Vector UInt64 n) (memory : Words) : Words := fun a =>
  if p ≤ a then v[a - p]?.getD (memory a) else memory a

def v128Load (p : ℕ) (memory : Words) : Register 2 := read 2 p memory

def v128Store (p : ℕ) (x : Register 2) (memory : Words) : Words := write p x memory

/-- `fill_block` on the pointers it is called with, which may be equal or overlap. -/
def fillBlockAt (prevBlock refBlock nextBlock : ℕ) (withXor : Bool) (memory : Words) : Words :=
  let state : Registers 2 64 := Vector.ofFn fun i =>
    v128Xor (v128Load (prevBlock + 2 * i.val) memory) (v128Load (refBlock + 2 * i.val) memory)
  let xy : Registers 2 64 := Vector.ofFn fun i =>
    if withXor then v128Xor (state.get i) (v128Load (nextBlock + 2 * i.val) memory) else state.get i
  let state := passes.rows (passes.columns state)
  Fin.foldl 64 (fun memory i =>
    v128Store (nextBlock + 2 * i.val) (v128Xor (xy.get i) (state.get i)) memory) memory

/-- Where the two blocks of `next_addresses` and its local zero block lie. -/
structure AddressPointers where
  zero : ℕ
  addressBlock : ℕ
  inputBlock : ℕ
  zero_address : zero + 128 ≤ addressBlock ∨ addressBlock + 128 ≤ zero
  zero_input : zero + 128 ≤ inputBlock ∨ inputBlock + 128 ≤ zero
  address_input : addressBlock + 128 ≤ inputBlock ∨ inputBlock + 128 ≤ addressBlock

/-- `next_addresses` on its pointers: the second call reads the block it writes. -/
def nextAddressesAt (p : AddressPointers) (memory : Words) : Words :=
  let memory := write p.zero Block.zero memory
  let memory := Function.update memory (p.inputBlock + 6) (memory (p.inputBlock + 6) + 1)
  let memory := fillBlockAt p.zero p.inputBlock p.addressBlock false memory
  fillBlockAt p.zero p.addressBlock p.addressBlock false memory

end InPlace

def ops : PlainSegment.BlockOps := ⟨fillBlock, nextAddresses⟩

def fillSegment (inst : Instance) (pos : Position) (arena : Arena) : Arena :=
  PlainSegment.fillSegment ops inst pos arena

section Lanes

theorem even_shuffle (x y : Register 2) : i32x4Shuffle [0, 2, 4, 6] x y = evenDwords x y := by
  apply ext_lanes
  intro l hl
  unfold i32x4Shuffle evenDwords
  rw [lane_ofLanes _ hl, lane_ofLanes _ hl]
  apply ofDwords_congr
  intro j hj
  rcases (by omega : (l = 0 ∧ j = 0) ∨ (l = 0 ∧ j = 1) ∨ (l = 1 ∧ j = 0) ∨ (l = 1 ∧ j = 1)) with
    ⟨rfl, rfl⟩ | ⟨rfl, rfl⟩ | ⟨rfl, rfl⟩ | ⟨rfl, rfl⟩ <;>
    rfl

theorem fBlamka2_eq (x0 y0 x1 y1 : Register 2) :
    fBlamka2 x0 y0 x1 y1 = (muladd x0 y0, muladd x1 y1) := by
  unfold fBlamka2 u64x2ExtmulLowU32x4 u64x2ExtmulHighU32x4
  dsimp only
  rw [even_shuffle, even_shuffle, mulLow_evenDwords, mulHigh_evenDwords]
  rfl

theorem lane_ror32 (x : Register 2) (l : ℕ) (hl : l < 2) :
    lane (ror32 x) l = rotateRight (lane x l) 32 := by
  refine Eq.trans ?_ (ror_eq _ 32 (by decide) (by decide))
  unfold ror32 i32x4Shuffle
  rw [lane_ofLanes _ hl, ← ofDwords_rotated (lane x l) 1 (by decide)]
  apply ofDwords_congr
  intro j hj
  have hindex : ([1, 0, 3, 2] : List ℕ).getD (2 * l + j) 0 = 2 * l + (j + 1) % 2 := by
    revert j
    revert l
    decide
  dsimp only
  rw [hindex, if_pos (by omega), dword_lane x l _ (Nat.mod_lt _ (by decide))]

theorem lane_i8x16Shuffle (x : Register 2) (index : List ℕ) (k : ℕ) (hk : k < 8) {l : ℕ} (hl : l < 2)
    (htable : ∀ j < 8, index.getD (8 * l + j) 0 = 8 * l + (j + k) % 8) :
    lane (i8x16Shuffle index x x) l = ror (lane x l) (8 * k) := by
  unfold i8x16Shuffle
  rw [lane_ofLanes _ hl, ← ofBytes_rotated (lane x l) k hk]
  apply ofBytes_congr
  intro j hj
  dsimp only
  rw [htable j hj, if_pos (by omega), byte_lane x l _ (Nat.mod_lt _ (by decide))]

theorem r24_table : ∀ l < 2, ∀ j < 8, r24.getD (8 * l + j) 0 = 8 * l + (j + 3) % 8 := by decide

theorem r16_table : ∀ l < 2, ∀ j < 8, r16.getD (8 * l + j) 0 = 8 * l + (j + 2) % 8 := by decide

theorem lane_ror24 (x : Register 2) (l : ℕ) (hl : l < 2) :
    lane (ror24 x) l = rotateRight (lane x l) 24 :=
  (lane_i8x16Shuffle x r24 3 (by decide) hl (r24_table l hl)).trans
    (ror_eq _ 24 (by decide) (by decide))

theorem lane_ror16 (x : Register 2) (l : ℕ) (hl : l < 2) :
    lane (ror16 x) l = rotateRight (lane x l) 16 :=
  (lane_i8x16Shuffle x r16 2 (by decide) hl (r16_table l hl)).trans
    (ror_eq _ 16 (by decide) (by decide))

theorem lane_ror63 (x : Register 2) (l : ℕ) (hl : l < 2) :
    lane (ror63 x) l = rotateRight (lane x l) 63 :=
  (lane_shiftDouble x hl).trans (ror_eq _ 63 (by decide) (by decide))

theorem lane_alignr8 (hi lo : Register 2) (l : ℕ) (hl : l < 2) :
    lane (alignr8 hi lo) l = funnel hi lo l := by
  unfold alignr8 i64x2Shuffle
  rw [lane_ofLanes _ hl]
  rcases (by omega : l = 0 ∨ l = 1) with rfl | rfl <;> rfl

end Lanes

section Rounds

theorem cells_g (o : Octet (Register 2)) : cells (g2 (g1 o)) = mix columnValues (cells o) := by
  unfold g1 g2
  rw [cells_pairedHalf fBlamka2_eq lane_ror16 lane_ror63,
    cells_pairedHalf fBlamka2_eq lane_ror32 lane_ror24, mix_mix]
  rfl

theorem round8_cells (o : Octet (Register 2)) :
    cells (round8 o) ∘ Prod.map id (pairPlace 0 (by decide)) =
      cellRound (cells o ∘ Prod.map id (pairPlace 0 (by decide))) :=
  pairs_round cells_g (diagonalizeBy_turns lane_alignr8) (undiagonalizeBy_turns lane_alignr8) 0
    (by decide) o

theorem passes_scalar : passes.Scalar where
  size := rfl
  columns := store_calls covers_columnSlot Sse2.columnLayout _ fun _ => round8_cells
  rows := store_calls covers_rowSlot Sse2.rowLayout _ fun _ => round8_cells

theorem fillBlock_eq (prevBlock refBlock nextBlock : Block) (withXor : Bool) :
    fillBlock prevBlock refBlock nextBlock withXor =
      Compression.fillBlock prevBlock refBlock nextBlock withXor := by
  have hxor (s t : Registers 2 64) : store (Vector.zipWith v128Xor s t) =
      (store s).xorWith (store t) := store_xorRegisters rfl s t
  unfold fillBlock Compression.fillBlock
  dsimp only
  have hstate : store (Vector.zipWith v128Xor (load prevBlock) (load refBlock) : Registers 2 64) =
      refBlock.xorWith prevBlock := by
    rw [hxor, store_load passes_scalar.size, store_load passes_scalar.size, Block.xorWith_comm]
  rw [hxor, passes_scalar.rows, passes_scalar.columns, hstate, ← permute_eq]
  cases withXor with
  | false => rw [if_neg Bool.false_ne_true, if_neg Bool.false_ne_true, hstate]
  | true => rw [if_pos rfl, if_pos rfl, hxor, hstate, store_load passes_scalar.size]

theorem ops_scalar : ops = PlainSegment.BlockOps.scalar := by
  have hfill : fillBlock = Compression.fillBlock := by
    funext prevBlock refBlock nextBlock withXor
    exact fillBlock_eq prevBlock refBlock nextBlock withXor
  have hnext : nextAddresses = Compression.nextAddresses := by
    funext addressBlock inputBlock
    unfold nextAddresses Compression.nextAddresses
    rw [hfill]
  unfold ops PlainSegment.BlockOps.scalar
  rw [hfill, hnext]

end Rounds

section Pointers
variable {n m : ℕ}

theorem read_get (p : ℕ) (memory : Words) (l : Fin n) : (read n p memory).get l = memory (p + l.val) :=
  Vector.getElem_ofFn _

theorem write_in (p : ℕ) (v : Vector UInt64 n) (memory : Words) (l : Fin n) :
    write p v memory (p + l.val) = v.get l := by
  unfold write
  rw [if_pos (Nat.le_add_right _ _), Nat.add_sub_cancel_left, Vector.getElem?_eq_getElem l.isLt,
    Option.getD_some]
  rfl

theorem write_out (p : ℕ) (v : Vector UInt64 n) (memory : Words) (a : ℕ)
    (ha : a < p ∨ p + n ≤ a) : write p v memory a = memory a := by
  unfold write
  split
  · rw [Vector.getElem?_eq_none (by omega), Option.getD_none]
  · rfl

theorem read_write (p : ℕ) (v : Vector UInt64 n) (memory : Words) :
    read n p (write p v memory) = v := by
  apply Vector.ext
  intro l hl
  have hread := read_get p (write p v memory) ⟨l, hl⟩
  rw [write_in p v memory ⟨l, hl⟩] at hread
  exact hread

theorem read_write_apart (p q : ℕ) (v : Vector UInt64 m) (memory : Words)
    (h : p + m ≤ q ∨ q + n ≤ p) : read n q (write p v memory) = read n q memory := by
  apply Vector.ext
  intro l hl
  have hread := read_get q (write p v memory) ⟨l, hl⟩
  have hold := read_get q memory ⟨l, hl⟩
  rw [write_out p v memory (q + l) (by omega)] at hread
  exact hread.trans hold.symm

theorem eq_write {p : ℕ} {v : Vector UInt64 n} {memory memory' : Words}
    (hin : ∀ l : Fin n, memory' (p + l.val) = v.get l)
    (hout : ∀ a, a < p ∨ p + n ≤ a → memory' a = memory a) : memory' = write p v memory := by
  funext a
  by_cases ha : a < p ∨ p + n ≤ a
  · rw [hout a ha, write_out p v memory a ha]
  · have hl := hin ⟨a - p, by omega⟩
    have hr := write_in p v memory ⟨a - p, by omega⟩
    have hpa : p + (a - p) = a := by omega
    simp only [hpa] at hl hr
    rw [hl, hr]

theorem write_write (p : ℕ) (v w : Vector UInt64 n) (memory : Words) :
    write p w (write p v memory) = write p w memory := by
  apply eq_write
  · exact write_in p w _
  · intro a ha
    rw [write_out p w _ a ha, write_out p v _ a ha]

theorem update_eq_write (p k : ℕ) (hk : k < n) (x : UInt64) (memory : Words) :
    Function.update memory (p + k) x = write p ((read n p memory).set k x) memory := by
  apply eq_write
  · intro l
    by_cases hl : k = l.val
    · subst hl
      rw [Function.update_self]
      exact (Vector.getElem_set_self _).symm
    · have hother : p + l.val ≠ p + k := by omega
      rw [Function.update_of_ne hother, ← read_get p memory l]
      exact (Vector.getElem_set_ne _ _ hl).symm
  · intro a ha
    have hother : a ≠ p + k := by omega
    exact Function.update_of_ne hother x memory

theorem zipWith_ofFn {α : Type} (f : α → α → α) (s t : Fin m → α) :
    Vector.zipWith f (Vector.ofFn s) (Vector.ofFn t) = Vector.ofFn fun i => f (s i) (t i) := by
  apply Vector.ext
  intro i hi
  rw [Vector.getElem_zipWith, Vector.getElem_ofFn, Vector.getElem_ofFn, Vector.getElem_ofFn]

theorem load_read (hnm : n * m = 128) (p : ℕ) (memory : Words) :
    (load (read 128 p memory) : Registers n m) =
      Vector.ofFn fun i => read n (p + n * i.val) memory := by
  apply Vector.ext
  intro i hi
  have hword (l : Fin n) : n * i + l.val < 128 := by
    have hle : n * (i + 1) ≤ n * m := Nat.mul_le_mul_left n hi
    rw [Nat.mul_succ] at hle
    have hl := l.isLt
    omega
  apply Vector.ext
  intro l hl
  have hblock := read_get p memory (⟨n * i + l, hword ⟨l, hl⟩⟩ : Fin 128)
  have hregister := read_get (p + n * i) memory (⟨l, hl⟩ : Fin n)
  unfold load ofLanes
  rw [Vector.getElem_ofFn, Vector.getElem_ofFn, Vector.getElem_ofFn]
  dsimp only
  rw [Vector.getElem?_eq_getElem (hword ⟨l, hl⟩), Option.getD_some]
  refine hblock.trans (Eq.trans ?_ hregister.symm)
  rw [Nat.add_assoc]

theorem foldl_write (hnm : n * m = 128) (p : ℕ) (s : Registers n m) (memory : Words) :
    Fin.foldl m (fun memory i => write (p + n * i.val) (s.get i) memory) memory =
      write p (store s) memory := by
  have hwritten := foldl_invariant (fun memory (i : Fin m) => write (p + n * i.val) (s.get i) memory)
    (fun k memory' => ∀ a, memory' a = if a < p + n * k then write p (store s) memory a else memory a)
    memory ?_ ?_
  · funext a
    rw [hwritten a]
    split
    · rfl
    · exact (write_out p _ _ a (Or.inr (by omega))).symm
  · intro a
    split
    · exact (write_out p _ _ a (Or.inl (by omega))).symm
    · rfl
  · intro i memory' hmemory' a
    rw [Nat.mul_succ]
    rcases Nat.lt_or_ge a (p + n * i.val) with hlow | hlow
    · rw [write_out _ _ _ a (Or.inl hlow), hmemory' a, if_pos hlow, if_pos (by omega)]
    · rcases Nat.lt_or_ge a (p + n * i.val + n) with hhigh | hhigh
      · have hle : n * (i.val + 1) ≤ n * m := Nat.mul_le_mul_left n i.isLt
        rw [Nat.mul_succ] at hle
        have hin := write_in (p + n * i.val) (s.get i) memory' ⟨a - (p + n * i.val), by omega⟩
        have hblock := write_in p (store s) memory ⟨a - p, by omega⟩
        have hget := store_get s i ⟨a - (p + n * i.val), by omega⟩ ⟨a - p, by omega⟩
          (by change n * i.val + (a - (p + n * i.val)) = a - p; omega)
        have ha : p + n * i.val + (a - (p + n * i.val)) = a := by omega
        have ha' : p + (a - p) = a := by omega
        simp only [ha] at hin
        simp only [ha'] at hblock
        rw [lane_eq _ (by omega)] at hget
        rw [hin, if_pos (by omega), hblock]
        exact hget.symm
      · rw [write_out _ _ _ a (Or.inr hhigh), hmemory' a, if_neg (by omega), if_neg (by omega)]

/-- Whatever the pointers share, the block written is the one computed from the
blocks that stood there, and no other word changes. -/
theorem fillBlockAt_eq (prevBlock refBlock nextBlock : ℕ) (withXor : Bool) (memory : Words) :
    fillBlockAt prevBlock refBlock nextBlock withXor memory =
      write nextBlock (Compression.fillBlock (read 128 prevBlock memory) (read 128 refBlock memory)
        (read 128 nextBlock memory) withXor) memory := by
  have hload (p : ℕ) : (load (read 128 p memory) : Registers 2 64) =
      Vector.ofFn fun i => v128Load (p + 2 * i.val) memory := load_read passes_scalar.size p memory
  have hstate : Vector.zipWith v128Xor (load (read 128 prevBlock memory))
      (load (read 128 refBlock memory)) = (Vector.ofFn fun i => v128Xor
        (v128Load (prevBlock + 2 * i.val) memory) (v128Load (refBlock + 2 * i.val) memory) :
          Registers 2 64) := by
    rw [hload, hload]
    exact zipWith_ofFn v128Xor _ _
  rw [← fillBlock_eq]
  unfold fillBlock fillBlockAt
  rw [← foldl_write passes_scalar.size]
  dsimp only
  rw [hstate, hload]
  generalize (Vector.ofFn fun i => v128Xor (v128Load (prevBlock + 2 * i.val) memory)
    (v128Load (refBlock + 2 * i.val) memory) : Registers 2 64) = state
  have hxy : (Vector.ofFn fun i => if withXor then
        v128Xor (state.get i) (v128Load (nextBlock + 2 * i.val) memory) else state.get i) =
      if withXor then Vector.zipWith v128Xor state
        (Vector.ofFn fun i => v128Load (nextBlock + 2 * i.val) memory) else state := by
    cases withXor with
    | false => exact Vector.ofFn_getElem
    | true =>
      have hzip := zipWith_ofFn v128Xor state.get
        fun i : Fin 64 => v128Load (nextBlock + 2 * i.val) memory
      have hsame : Vector.ofFn state.get = state := Vector.ofFn_getElem
      rw [hsame] at hzip
      exact hzip.symm
  rw [hxy]
  have hout (i : Fin 64) (s t : Registers 2 64) : (Vector.zipWith v128Xor s t).get i =
      v128Xor (s.get i) (t.get i) := Vector.getElem_zipWith _
  simp only [hout]
  rfl

/-- The two calls in place leave the address words and the counted input block. -/
theorem nextAddressesAt_eq (p : AddressPointers) (memory : Words) :
    nextAddressesAt p memory =
      let blocks := Compression.nextAddresses (read 128 p.addressBlock memory)
        (read 128 p.inputBlock memory)
      write p.addressBlock blocks.1 (write p.inputBlock blocks.2
        (write p.zero Block.zero memory)) := by
  obtain ⟨z, addressBlock, inputBlock, hza, hzi, hai⟩ := p
  unfold nextAddressesAt Compression.nextAddresses
  dsimp only
  have hinput : read 128 inputBlock (write z Block.zero memory) = read 128 inputBlock memory :=
    read_write_apart z inputBlock _ memory hzi
  have hcount : write z Block.zero memory (inputBlock + 6) =
      (read 128 inputBlock memory).get ⟨6, counterWord_lt⟩ := by
    rw [← hinput]
    exact (read_get inputBlock _ ⟨6, counterWord_lt⟩).symm
  rw [hcount, update_eq_write inputBlock 6 counterWord_lt, hinput]
  generalize (read 128 inputBlock memory).set 6
    ((read 128 inputBlock memory).get ⟨6, counterWord_lt⟩ + 1) counterWord_lt = counted
  rw [fillBlockAt_eq z inputBlock, read_write, read_write_apart _ _ _ _ hzi.symm, read_write,
    read_write_apart _ _ _ _ hai.symm, read_write_apart _ _ _ _ hza]
  rw [fillBlockAt_eq, read_write, read_write_apart _ _ _ _ hza.symm,
    read_write_apart _ _ _ _ hzi.symm, read_write, write_write]

end Pointers

/-- The WebAssembly backend fills a segment as the scalar backend does; its blocks and
its address words are the scalar ones, also when they are made in place. -/
theorem wasm128_eq_scalar (inst : Instance) (pos : Position) (arena : Arena) :
    fillSegment inst pos arena = Segment.fillSegment inst pos arena ∧
      (∀ prevBlock refBlock nextBlock withXor,
        fillBlock prevBlock refBlock nextBlock withXor =
          Compression.fillBlock prevBlock refBlock nextBlock withXor) ∧
      (∀ addressBlock inputBlock, nextAddresses addressBlock inputBlock =
        Compression.nextAddresses addressBlock inputBlock) ∧
      (∀ prevBlock refBlock nextBlock withXor memory,
        fillBlockAt prevBlock refBlock nextBlock withXor memory =
          write nextBlock (Compression.fillBlock (read 128 prevBlock memory)
            (read 128 refBlock memory) (read 128 nextBlock memory) withXor) memory) ∧
      ∀ (p : AddressPointers) (memory : Words), nextAddressesAt p memory =
        let blocks := Compression.nextAddresses (read 128 p.addressBlock memory)
          (read 128 p.inputBlock memory)
        write p.addressBlock blocks.1 (write p.inputBlock blocks.2
          (write p.zero Block.zero memory)) := by
  have hops := ops_scalar
  refine ⟨?_, fillBlock_eq, fun addressBlock inputBlock => ?_, fillBlockAt_eq, nextAddressesAt_eq⟩
  · unfold fillSegment
    rw [hops, PlainSegment.fillSegment_scalar]
  · have hnext := congrArg PlainSegment.BlockOps.nextAddresses hops
    exact congrFun (congrFun hnext addressBlock) inputBlock

end Argon2Rust.Wasm128
