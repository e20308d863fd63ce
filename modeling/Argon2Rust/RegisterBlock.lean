import Argon2Rust.RoundCells
import Argon2Rust.Simd

set_option autoImplicit false

/-!
# A block in registers

What the vector backends share: `m` registers of `n` lanes hold the 128 words of
a block in order. Their `fill_block` works on a state that holds the previous
block on entry and the new one on exit; they differ in the two passes, which
call a round on eight registers at a time. A `Layout` says which registers a
call takes and where in them each of the eight rounds of a pass has its cells.
-/
namespace Argon2Rust.RegisterBlock
open Bytes Compression Simd LaneRounds RoundCells Numerals

abbrev Registers (n m : ℕ) := Vector (Register n) m

/-- The eight arguments of a vector round: two registers for each row. -/
structure Octet (α : Type) where
  a0 : α
  a1 : α
  b0 : α
  b1 : α
  c0 : α
  c1 : α
  d0 : α
  d1 : α

namespace Octet
variable {α : Type}

def get (o : Octet α) : Fin 8 → α := ![o.a0, o.a1, o.b0, o.b1, o.c0, o.c1, o.d0, o.d1]

def ofSlots (f : Fin 8 → α) : Octet α := ⟨f 0, f 1, f 2, f 3, f 4, f 5, f 6, f 7⟩

theorem get_ofSlots (f : Fin 8 → α) : (ofSlots f).get = f := by
  funext k
  fin_cases k <;> rfl

end Octet

section Definitions
variable {n m : ℕ}

def load (b : Block) : Registers n m :=
  Vector.ofFn fun i => ofLanes fun l => b[n * i.val + l]?.getD 0

def store (s : Registers n m) : Block :=
  Vector.ofFn fun w => lane (s[w.val / n]?.getD setzero) (w.val % n)

def xorRegisters (s t : Registers n m) : Registers n m := Vector.zipWith xorSi s t

/-- Half of the vector `G`, on one register set. -/
def quarter (muladd : Register n → Register n → Register n) (rotD rotB : Register n → Register n)
    (a b c d : Register n) : Fin 4 → Register n :=
  let a := muladd a b
  let d := rotD (xorSi d a)
  let c := muladd c d
  let b := rotB (xorSi b c)
  ![a, b, c, d]

def halfRound (muladd : Register n → Register n → Register n) (rotD rotB : Register n → Register n)
    (o : Octet (Register n)) : Octet (Register n) :=
  let s0 := quarter muladd rotD rotB o.a0 o.b0 o.c0 o.d0
  let s1 := quarter muladd rotD rotB o.a1 o.b1 o.c1 o.d1
  ⟨s0 0, s1 0, s0 1, s1 1, s0 2, s1 2, s0 3, s1 3⟩

/-- One call of a round: eight registers read, and written back where they were. -/
def roundOn (f : Octet (Register n) → Octet (Register n)) (slots : Octet (Fin m))
    (s : Registers n m) : Registers n m :=
  scatter slots.get (f (Octet.ofSlots (gather slots.get s))).get s

structure Passes (n m : ℕ) where
  columns : Registers n m → Registers n m
  rows : Registers n m → Registers n m

/-- `fill_block`: the new state and the new value of `next_block`. -/
def fillBlock (p : Passes n m) (state : Registers n m) (refBlock nextBlock : Block)
    (withXor : Bool) : Registers n m × Block :=
  let state := xorRegisters state (load refBlock)
  let blockXy := if withXor then xorRegisters state (load nextBlock) else state
  let state := p.rows (p.columns state)
  let state := xorRegisters state blockXy
  (state, store state)

def zeroState : Registers n m := Vector.replicate m setzero

/-- `next_addresses`: the second call reads the block it overwrites. -/
def nextAddresses (p : Passes n m) (addressBlock inputBlock : Block) : Block × Block :=
  let inputBlock := inputBlock.set 6 (inputBlock.get ⟨6, counterWord_lt⟩ + 1) counterWord_lt
  let addressBlock := (fillBlock p zeroState inputBlock addressBlock false).2
  let addressBlock := (fillBlock p zeroState addressBlock addressBlock false).2
  (addressBlock, inputBlock)

end Definitions

section Words
variable {n m : ℕ}

theorem store_get (s : Registers n m) (i : Fin m) (l : Fin n) (w : Fin 128)
    (hw : n * i.val + l.val = w.val) : (store s)[w] = lane s[i] l.val := by
  have hdiv : w.val / n = i.val := by
    rw [← hw, Nat.mul_add_div l.pos, Nat.div_eq_of_lt l.isLt, Nat.add_zero]
  have hmod : w.val % n = l.val := by
    rw [← hw, Nat.mul_add_mod, Nat.mod_eq_of_lt l.isLt]
  have hword : (store s)[w] = lane (s[w.val / n]?.getD setzero) (w.val % n) :=
    Vector.getElem_ofFn _
  rw [hword, hdiv, hmod, Vector.getElem?_eq_getElem i.isLt, Option.getD_some]
  rfl

variable (hnm : n * m = 128)
include hnm

theorem exists_register (w : Fin 128) : ∃ (i : Fin m) (l : Fin n), n * i.val + l.val = w.val := by
  have hn : 0 < n := by
    rcases Nat.eq_zero_or_pos n with h | h
    · rw [h, Nat.zero_mul] at hnm
      omega
    · exact h
  have hdiv : w.val / n < m := by
    rw [Nat.div_lt_iff_lt_mul hn, Nat.mul_comm m n, hnm]
    exact w.isLt
  exact ⟨⟨w.val / n, hdiv⟩, ⟨w.val % n, Nat.mod_lt _ hn⟩, Nat.div_add_mod w.val n⟩

theorem store_ext {b : Block} (s : Registers n m)
    (h : ∀ (i : Fin m) (l : Fin n) (w : Fin 128), n * i.val + l.val = w.val →
      lane s[i] l.val = b[w]) : store s = b := by
  apply Vector.ext
  intro k hk
  obtain ⟨i, l, hw⟩ := exists_register hnm ⟨k, hk⟩
  have hword : (store s)[(⟨k, hk⟩ : Fin 128)] = b[(⟨k, hk⟩ : Fin 128)] := by
    rw [store_get s i l ⟨k, hk⟩ hw]
    exact h i l ⟨k, hk⟩ hw
  exact hword

theorem store_load (b : Block) : store (load b : Registers n m) = b := by
  apply store_ext hnm
  intro i l w hw
  have hload : (load b : Registers n m)[i] = ofLanes fun l => b[n * i.val + l]?.getD 0 :=
    Vector.getElem_ofFn _
  rw [hload, lane_ofLanes _ l.isLt, hw, Vector.getElem?_eq_getElem w.isLt, Option.getD_some]
  rfl

theorem store_xorRegisters (s t : Registers n m) :
    store (xorRegisters s t) = (store s).xorWith (store t) := by
  apply store_ext hnm
  intro i l w hw
  have hxor : (xorRegisters s t)[i] = xorSi s[i] t[i] := Vector.getElem_zipWith _
  have hblock : ((store s).xorWith (store t))[w] = (store s)[w] ^^^ (store t)[w] :=
    Block.xorWith_get _ _ w.val w.isLt
  rw [hxor, hblock, store_get s i l w hw, store_get t i l w hw]
  exact lane_ofLanes _ l.isLt

theorem store_zeroState : store (zeroState : Registers n m) = Block.zero := by
  apply store_ext hnm
  intro i l w hw
  have hzero : (zeroState : Registers n m)[i] = setzero := Vector.getElem_replicate _
  have hblock : Block.zero[w] = 0 := Vector.getElem_replicate _
  rw [hzero, hblock]
  exact lane_ofLanes _ l.isLt

end Words

section Calls
variable {n m N : ℕ}

def cellSlot (row : Fin 4) (half : Fin 2) : Fin 8 := ⟨2 * row.val + half.val, by omega⟩

theorem slots_disjoint {slots : Fin N → Octet (Fin m)} {index : ℕ → ℕ → ℕ → ℕ}
    (hget : ∀ i row half, ((slots i).get (cellSlot row half)).val =
      index i.val row.val half.val)
    (hindex : ∀ i < N, ∀ j < N, ∀ row < 4, ∀ row' < 4, ∀ half < 2, ∀ half' < 2,
      index i row half = index j row' half' → i = j ∧ row = row' ∧ half = half') :
    ∀ i j k l, (slots i).get k = (slots j).get l → i = j ∧ k = l := by
  have hcell (k : Fin 8) : ∃ row half, cellSlot row half = k :=
    ⟨⟨k.val / 2, by omega⟩, ⟨k.val % 2, by omega⟩, Fin.ext (Nat.div_add_mod k.val 2)⟩
  intro i j k l h
  obtain ⟨row, half, rfl⟩ := hcell k
  obtain ⟨row', half', rfl⟩ := hcell l
  have hv := congrArg Fin.val h
  rw [hget, hget] at hv
  obtain ⟨hi, hrow, hhalf⟩ := hindex _ i.isLt _ j.isLt _ row.isLt _ row'.isLt _ half.isLt _
    half'.isLt hv
  rw [Fin.ext hi, Fin.ext hrow, Fin.ext hhalf]
  exact ⟨rfl, rfl⟩

def cells (o : Octet (Register n)) : Cells (Fin 2 × Fin n) UInt64 :=
  fun c => lane (o.get (cellSlot c.1 c.2.1)) c.2.2.val

/-- The calls of one pass: the registers of each, and for every round of the
pass the call that makes it and where its cells lie among the eight registers. -/
structure Layout (n m N : ℕ) (slot : Fin 8 → Fin 16 → Fin 128) where
  slots : Fin N → Octet (Fin m)
  call : Fin 8 → Fin N
  place : Fin 8 → Fin 4 × Fin 4 → Fin 4 × (Fin 2 × Fin n)
  disjoint : ∀ i j k l, (slots i).get k = (slots j).get l → i = j ∧ k = l
  word : ∀ q c, n * ((slots (call q)).get (cellSlot (place q c).1 (place q c).2.1)).val +
    (place q c).2.2.val = (slot q (wordIndex c)).val

/-- The eight rounds of a pass take words apart and miss none. -/
structure Covers (slot : Fin 8 → Fin 16 → Fin 128) : Prop where
  inj : ∀ i j k l, slot i k = slot j l → i = j ∧ k = l
  surj : ∀ w, ∃ q c, slot q (wordIndex c) = w

theorem exists_wordIndex (k : Fin 16) : ∃ c, wordIndex c = k :=
  ⟨(⟨k.val / 4, by omega⟩, ⟨k.val % 4, by omega⟩), Fin.ext (Nat.div_add_mod k.val 4)⟩

theorem covers_columnSlot : Covers columnSlot := by
  refine ⟨columnSlot_inj, ?_⟩
  intro w
  obtain ⟨c, hc⟩ := exists_wordIndex ⟨w.val % 16, by omega⟩
  refine ⟨⟨w.val / 16, by omega⟩, c, ?_⟩
  rw [hc]
  exact Fin.ext (Nat.div_add_mod w.val 16)

theorem covers_rowSlot : Covers rowSlot := by
  refine ⟨rowSlot_inj, ?_⟩
  intro w
  obtain ⟨c, hc⟩ := exists_wordIndex ⟨2 * (w.val / 16) + w.val % 2, by omega⟩
  refine ⟨⟨w.val % 16 / 2, by omega⟩, c, ?_⟩
  rw [hc]
  apply Fin.ext
  unfold rowSlot
  dsimp only
  omega

/-- Calls that make each round where the layout puts it make the scalar pass. -/
theorem store_calls {slot : Fin 8 → Fin 16 → Fin 128} (hslot : Covers slot)
    (L : Layout n m N slot) (f : Octet (Register n) → Octet (Register n))
    (hround : ∀ q o, cells (f o) ∘ L.place q = cellRound (cells o ∘ L.place q))
    (s : Registers n m) :
    store (Fin.foldl N (fun s i => roundOn f (L.slots i) s) s) = pass slot (store s) := by
  apply Vector.ext
  intro k hk
  obtain ⟨q, c, hw⟩ := hslot.surj ⟨k, hk⟩
  have hcells : cells (Octet.ofSlots (gather (L.slots (L.call q)).get s)) ∘ L.place q =
      fun c => (store s)[slot q (wordIndex c)] := by
    funext c
    have hget := store_get s _ _ _ (L.word q c)
    rw [hget]
    change lane ((Octet.ofSlots (gather (L.slots (L.call q)).get s)).get _) _ = _
    rw [Octet.get_ofSlots]
    rfl
  have hregister := foldl_scatter L.disjoint (fun u => (f (Octet.ofSlots u)).get) s (L.call q)
    (cellSlot (L.place q c).1 (L.place q c).2.1)
  have hstore := store_get (Fin.foldl N (fun s i => roundOn f (L.slots i) s) s) _ _ _ (L.word q c)
  have hmade := congrFun (hround q (Octet.ofSlots (gather (L.slots (L.call q)).get s))) c
  have hpass := pass_get hslot.inj (store s) q c
  have hword : (store (Fin.foldl N (fun s i => roundOn f (L.slots i) s) s))[slot q (wordIndex c)] =
      (pass slot (store s))[slot q (wordIndex c)] := by
    rw [hstore, hpass, ← hcells, ← hmade]
    exact congrArg (fun r => lane r (L.place q c).2.2.val) hregister
  simp only [hw] at hword
  exact hword

end Calls

section Blocks
variable {n m : ℕ} {p : Passes n m}

structure Passes.Scalar (p : Passes n m) : Prop where
  size : n * m = 128
  columns : ∀ s, store (p.columns s) = pass columnSlot (store s)
  rows : ∀ s, store (p.rows s) = pass rowSlot (store s)

variable (hp : p.Scalar)
include hp

theorem store_fillBlock (state : Registers n m) (refBlock nextBlock : Block) (withXor : Bool) :
    store (fillBlock p state refBlock nextBlock withXor).1 =
      Compression.fillBlock (store state) refBlock nextBlock withXor := by
  unfold fillBlock Compression.fillBlock
  dsimp only
  have hstate : store (xorRegisters state (load refBlock)) = refBlock.xorWith (store state) := by
    rw [store_xorRegisters hp.size, store_load hp.size, Block.xorWith_comm]
  rw [store_xorRegisters hp.size, hp.rows, hp.columns, hstate, ← permute_eq, Block.xorWith_comm]
  cases withXor with
  | false => rw [if_neg Bool.false_ne_true, if_neg Bool.false_ne_true, hstate]
  | true => rw [if_pos rfl, if_pos rfl, store_xorRegisters hp.size, hstate, store_load hp.size]

theorem fillBlock_snd (state : Registers n m) (refBlock nextBlock : Block) (withXor : Bool) :
    (fillBlock p state refBlock nextBlock withXor).2 =
      Compression.fillBlock (store state) refBlock nextBlock withXor :=
  store_fillBlock hp state refBlock nextBlock withXor

theorem nextAddresses_eq (addressBlock inputBlock : Block) :
    nextAddresses p addressBlock inputBlock =
      Compression.nextAddresses addressBlock inputBlock := by
  unfold nextAddresses Compression.nextAddresses
  dsimp only
  rw [fillBlock_snd hp, fillBlock_snd hp, store_zeroState hp.size]

end Blocks

section Arithmetic
variable {n : ℕ}

theorem rotateRight_getLsbD (x : UInt64) (r i : ℕ) (hr : 0 < r) (hr' : r < 64) (hi : i < 64) :
    (rotateRight x (UInt64.ofNat r)).toBitVec.getLsbD i = x.toBitVec.getLsbD ((i + r) % 64) := by
  have hleft : (64 - UInt64.ofNat r).toBitVec.toNat % 64 = 64 - r := by
    simp
    omega
  have hright : (UInt64.ofNat r).toBitVec.toNat % 64 = r := by
    simp
    omega
  unfold rotateRight
  rw [UInt64.toBitVec_or, UInt64.toBitVec_shiftRight, UInt64.toBitVec_shiftLeft,
    BitVec.getLsbD_or, BitVec.ushiftRight_eq', BitVec.shiftLeft_eq', BitVec.getLsbD_ushiftRight,
    BitVec.getLsbD_shiftLeft]
  change (x.toBitVec.getLsbD ((UInt64.ofNat r).toBitVec.toNat % 64 + i) ||
    (decide (i < 64) && !decide (i < (64 - UInt64.ofNat r).toBitVec.toNat % 64) &&
      x.toBitVec.getLsbD (i - (64 - UInt64.ofNat r).toBitVec.toNat % 64))) = _
  rw [hleft, hright, decide_eq_true hi, Bool.true_and]
  by_cases h : i < 64 - r
  · rw [decide_eq_true h, Nat.mod_eq_of_lt (by omega : i + r < 64), Nat.add_comm, Bool.not_true,
      Bool.false_and, Bool.or_false]
  · have hmod : (i + r) % 64 = i - (64 - r) := by omega
    rw [decide_eq_false h, hmod, BitVec.getLsbD_of_ge _ _ (by omega), Bool.not_false,
      Bool.true_and, Bool.false_or]

theorem ror_eq (x : UInt64) (r : ℕ) (hr : 0 < r) (hr' : r < 64) :
    ror x r = rotateRight x (UInt64.ofNat r) := by
  apply eq_of_getLsbD
  intro i hi
  rw [ror_getLsbD x r i hr' hi, rotateRight_getLsbD x r i hr hr' hi]

theorem lane_xorSi (x y : Register n) {l : ℕ} (hl : l < n) :
    lane (xorSi x y) l = lane x l ^^^ lane y l := lane_ofLanes _ hl

section Halves
variable {muladd : Register n → Register n → Register n} {rotD rotB : Register n → Register n}
  {d b : UInt64} (hmul : ∀ x y l, l < n → lane (muladd x y) l = fBlamka (lane x l) (lane y l))
  (hd : ∀ x l, l < n → lane (rotD x) l = rotateRight (lane x l) d)
  (hb : ∀ x l, l < n → lane (rotB x) l = rotateRight (lane x l) b)
include hmul hd hb

theorem lane_quarter (q : Fin 4 → Register n) (row : Fin 4) (l : ℕ) (hl : l < n) :
    lane (quarter muladd rotD rotB (q 0) (q 1) (q 2) (q 3) row) l =
      halfValues d b (fun row => lane (q row) l) row := by
  have ha := hmul (q 0) (q 1) l hl
  have hd' := hd (xorSi (q 3) (muladd (q 0) (q 1))) l hl
  rw [lane_xorSi _ _ hl, ha] at hd'
  have hc := hmul (q 2) (rotD (xorSi (q 3) (muladd (q 0) (q 1)))) l hl
  rw [hd'] at hc
  have hb' := hb (xorSi (q 1) (muladd (q 2) (rotD (xorSi (q 3) (muladd (q 0) (q 1)))))) l hl
  rw [lane_xorSi _ _ hl, hc] at hb'
  fin_cases row
  · exact ha
  · exact hb'
  · exact hc
  · exact hd'

/-- A vector `G` that mixes and rotates lane by lane mixes every column of cells. -/
theorem cells_halfRound (o : Octet (Register n)) :
    cells (halfRound muladd rotD rotB o) = mix (halfValues d b) (cells o) := by
  funext c
  obtain ⟨row, half, l⟩ := c
  have hquarter := lane_quarter hmul hd hb (fun row => o.get (cellSlot row half)) row l.val l.isLt
  refine Eq.trans ?_ hquarter
  fin_cases half <;> fin_cases row <;> rfl

end Halves

/-- The two ways the backends write `2 * lo32(x) * lo32(y)` onto a sum. -/
theorem muladd_eq (x y z : UInt64) : x + y + (z + z) = x + y + z * 2 ∧
    x + (y + (z + z)) = x + y + z * 2 := by grind

end Arithmetic

end Argon2Rust.RegisterBlock
