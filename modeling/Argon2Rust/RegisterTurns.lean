import Argon2Rust.RegisterBlock

set_option autoImplicit false

namespace Argon2Rust.RegisterTurns
open Simd LaneRounds RoundCells RegisterBlock

/-- Neighbouring rounds alternate between the two places in a call. -/
def parity (q : Fin 8) : Fin 2 := ⟨q.val % 2, by omega⟩

section Quads
variable {n : ℕ}

def quadRow (x : Register n) (q : ℕ) : Fin 4 → UInt64 := fun j => lane x (4 * q + j.val)

def quadPlace (half : Fin 2) (q : ℕ) (hq : 4 * q + 3 < n) (j : Fin 4) : Fin 2 × Fin n :=
  (half, ⟨4 * q + j.val, by omega⟩)

/-- A permutation of every four lanes, one for each of the rows `b`, `c` and `d`. -/
def turnRows (permute : ℕ → Register n → Register n) (immB immC immD : ℕ)
    (o : Octet (Register n)) : Octet (Register n) :=
  { o with
    b0 := permute immB o.b0
    b1 := permute immB o.b1
    c0 := permute immC o.c0
    c1 := permute immC o.c1
    d0 := permute immD o.d0
    d1 := permute immD o.d1 }

theorem quadRow_permutex {imm : ℕ} {k : Fin 4} (x : Register n) {q : ℕ} (hq : 4 * q + 3 < n)
    (himm : ∀ j : Fin 4, select imm j.val = (j + k).val) (j : Fin 4) :
    quadRow (permutexEpi64 imm x) q j = quadRow x q (j + k) := by
  unfold quadRow permutexEpi64
  rw [lane_ofLanes _ (by omega), show (4 * q + j.val) % 4 = j.val by omega,
    show (4 * q + j.val) / 4 = q by omega, himm j]

theorem turnRows_cells {immB immC immD : ℕ} {kB kC kD : Fin 4}
    (hB : ∀ j : Fin 4, select immB j.val = (j + kB).val)
    (hC : ∀ j : Fin 4, select immC j.val = (j + kC).val)
    (hD : ∀ j : Fin 4, select immD j.val = (j + kD).val) (o : Octet (Register n)) (half : Fin 2)
    (q : ℕ) (hq : 4 * q + 3 < n) :
    cells (turnRows permutexEpi64 immB immC immD o) ∘ Prod.map id (quadPlace half q hq) =
      (cells o ∘ Prod.map id (quadPlace half q hq)) ∘
        fun c => (c.1, c.2 + (![0, kB, kC, kD] : Fin 4 → Fin 4) c.1) := by
  funext c
  obtain ⟨row, j⟩ := c
  change quadRow ((turnRows permutexEpi64 immB immC immD o).get (cellSlot row half)) q j =
    quadRow (o.get (cellSlot row half)) q (j + (![0, kB, kC, kD] : Fin 4 → Fin 4) row)
  fin_cases half <;> fin_cases row
  · exact congrArg (quadRow o.a0 q) (add_zero j).symm
  · exact quadRow_permutex o.b0 hq hB j
  · exact quadRow_permutex o.c0 hq hC j
  · exact quadRow_permutex o.d0 hq hD j
  · exact congrArg (quadRow o.a1 q) (add_zero j).symm
  · exact quadRow_permutex o.b1 hq hB j
  · exact quadRow_permutex o.c1 hq hC j
  · exact quadRow_permutex o.d1 hq hD j

/-- A vector round whose rows lie in one register makes a round on every four lanes. -/
theorem quads_round {mixed : Octet (Register n) → Octet (Register n)}
    (hmixed : ∀ o, cells (mixed o) = mix columnValues (cells o)) (half : Fin 2) (q : ℕ)
    (hq : 4 * q + 3 < n) (o : Octet (Register n)) :
    cells (turnRows permutexEpi64 0b10010011 0b01001110 0b00111001
        (mixed (turnRows permutexEpi64 0b00111001 0b01001110 0b10010011 (mixed o)))) ∘
        Prod.map id (quadPlace half q hq) =
      cellRound (cells o ∘ Prod.map id (quadPlace half q hq)) := by
  have hone : ∀ j : Fin 4, select 0b00111001 j.val = (j + 1).val := by decide
  have htwo : ∀ j : Fin 4, select 0b01001110 j.val = (j + 2).val := by decide
  have hthree : ∀ j : Fin 4, select 0b10010011 j.val = (j + 3).val := by decide
  have hdiagonal : (fun c : Fin 4 × Fin 4 => (c.1, c.2 + (![0, 1, 2, 3] : Fin 4 → Fin 4) c.1)) =
      diagonal := by decide
  have hundiagonal : (fun c : Fin 4 × Fin 4 => (c.1, c.2 + (![0, 3, 2, 1] : Fin 4 → Fin 4) c.1)) =
      undiagonal := by decide
  refine round_placed cells columnValues (quadPlace half q hq) hmixed (fun o => ?_) (fun o => ?_) o
  · rw [← hdiagonal]
    exact turnRows_cells hone htwo hthree o half q hq
  · rw [← hundiagonal]
    exact turnRows_cells hthree htwo hone o half q hq

end Quads

section Pairs
variable {n : ℕ}

/-- In every pair of lanes: the upper word of `y` below the lower word of `x`. -/
def funnel (x y : Register n) (l : ℕ) : UInt64 :=
  if l % 2 = 0 then lane y (l + 1) else lane x (l - 1)

theorem funnel_even (x y : Register n) (g : ℕ) : funnel x y (2 * g) = lane y (2 * g + 1) :=
  if_pos (Nat.mul_mod_right 2 g)

theorem funnel_odd (x y : Register n) (g : ℕ) : funnel x y (2 * g + 1) = lane x (2 * g) :=
  if_neg (by omega)

theorem lane_unpack (x y : Register n) {l : ℕ} (hn : n % 2 = 0) (hl : l < n) :
    lane (unpackhiEpi64 y (unpackloEpi64 x x)) l = funnel x y l := by
  unfold unpackhiEpi64 funnel
  rw [lane_ofLanes _ hl]
  by_cases h : l % 2 = 0
  · rw [if_pos h, if_pos h]
    exact congrArg (lane y) (by omega)
  · rw [if_neg h, if_neg h]
    unfold unpackloEpi64
    rw [lane_ofLanes _ (by omega), if_neg (by omega)]
    exact congrArg (lane x) (by omega)

def pairRow (x0 x1 : Register n) (g : ℕ) : Fin 4 → UInt64 :=
  ![lane x0 (2 * g), lane x0 (2 * g + 1), lane x1 (2 * g), lane x1 (2 * g + 1)]

theorem pairRow_eq (x : Fin 2 → Register n) (g : ℕ) (j : Fin 4) :
    pairRow (x 0) (x 1) g j = lane (x ⟨j.val / 2, by omega⟩) (2 * g + j.val % 2) := by
  fin_cases j <;> rfl

def pairPlace (g : ℕ) (hg : 2 * g + 1 < n) (j : Fin 4) : Fin 2 × Fin n :=
  (⟨j.val / 2, by omega⟩, ⟨2 * g + j.val % 2, by omega⟩)

theorem cells_pairPlace (o : Octet (Register n)) (g : ℕ) (hg : 2 * g + 1 < n) (row j : Fin 4) :
    cells o (row, pairPlace g hg j) =
      pairRow (o.get (cellSlot row 0)) (o.get (cellSlot row 1)) g j := by
  fin_cases j <;> rfl

theorem pairRow_swap (x0 x1 : Register n) (g : ℕ) (j : Fin 4) :
    pairRow x1 x0 g j = pairRow x0 x1 g (j + 2) := by
  fin_cases j <;> rfl

section Turns
variable {x0 x1 y0 y1 : Register n} {g : ℕ} (hg : 2 * g + 1 < n)
include hg

theorem pairRow_funnel (h0 : ∀ l < n, lane y0 l = funnel x1 x0 l)
    (h1 : ∀ l < n, lane y1 l = funnel x0 x1 l) (j : Fin 4) :
    pairRow y0 y1 g j = pairRow x0 x1 g (j + 1) := by
  fin_cases j
  · exact (h0 _ (by omega)).trans (funnel_even x1 x0 g)
  · exact (h0 _ (by omega)).trans (funnel_odd x1 x0 g)
  · exact (h1 _ (by omega)).trans (funnel_even x0 x1 g)
  · exact (h1 _ (by omega)).trans (funnel_odd x0 x1 g)

theorem pairRow_funnel_back (h0 : ∀ l < n, lane y0 l = funnel x0 x1 l)
    (h1 : ∀ l < n, lane y1 l = funnel x1 x0 l) (j : Fin 4) :
    pairRow y0 y1 g j = pairRow x0 x1 g (j + 3) := by
  rw [pairRow_funnel hg h0 h1, pairRow_swap x0 x1, add_assoc]
  rfl

end Turns

/-- `DIAGONALIZE` on rows split between two registers. -/
structure PairsTurned (o o' : Octet (Register n)) : Prop where
  a0 : o'.a0 = o.a0
  a1 : o'.a1 = o.a1
  b0 : ∀ l < n, lane o'.b0 l = funnel o.b1 o.b0 l
  b1 : ∀ l < n, lane o'.b1 l = funnel o.b0 o.b1 l
  c0 : o'.c0 = o.c1
  c1 : o'.c1 = o.c0
  d0 : ∀ l < n, lane o'.d0 l = funnel o.d0 o.d1 l
  d1 : ∀ l < n, lane o'.d1 l = funnel o.d1 o.d0 l

/-- `UNDIAGONALIZE` likewise. -/
structure PairsUndone (o o' : Octet (Register n)) : Prop where
  a0 : o'.a0 = o.a0
  a1 : o'.a1 = o.a1
  b0 : ∀ l < n, lane o'.b0 l = funnel o.b0 o.b1 l
  b1 : ∀ l < n, lane o'.b1 l = funnel o.b1 o.b0 l
  c0 : o'.c0 = o.c1
  c1 : o'.c1 = o.c0
  d0 : ∀ l < n, lane o'.d0 l = funnel o.d1 o.d0 l
  d1 : ∀ l < n, lane o'.d1 l = funnel o.d0 o.d1 l

variable {o o' : Octet (Register n)} {g : ℕ} (hg : 2 * g + 1 < n)
include hg

theorem PairsTurned.cells_eq (h : PairsTurned o o') :
    cells o' ∘ Prod.map id (pairPlace g hg) =
      (cells o ∘ Prod.map id (pairPlace g hg)) ∘ diagonal := by
  funext c
  obtain ⟨row, j⟩ := c
  change cells o' (row, pairPlace g hg j) = cells o (row, pairPlace g hg (j + row))
  rw [cells_pairPlace, cells_pairPlace]
  fin_cases row
  · change pairRow o'.a0 o'.a1 g j = pairRow o.a0 o.a1 g (j + 0)
    rw [h.a0, h.a1, add_zero]
  · exact pairRow_funnel hg h.b0 h.b1 j
  · change pairRow o'.c0 o'.c1 g j = pairRow o.c0 o.c1 g (j + 2)
    rw [h.c0, h.c1, pairRow_swap]
  · exact pairRow_funnel_back hg h.d0 h.d1 j

theorem PairsUndone.cells_eq (h : PairsUndone o o') :
    cells o' ∘ Prod.map id (pairPlace g hg) =
      (cells o ∘ Prod.map id (pairPlace g hg)) ∘ undiagonal := by
  funext c
  obtain ⟨row, j⟩ := c
  change cells o' (row, pairPlace g hg j) = cells o (row, pairPlace g hg (j - row))
  rw [cells_pairPlace, cells_pairPlace]
  have hback : ∀ j : Fin 4, j - 0 = j ∧ j - 1 = j + 3 ∧ j - 2 = j + 2 ∧ j - 3 = j + 1 := by decide
  obtain ⟨h0, h1, h2, h3⟩ := hback j
  fin_cases row
  · change pairRow o'.a0 o'.a1 g j = pairRow o.a0 o.a1 g (j - 0)
    rw [h.a0, h.a1, h0]
  · change pairRow o'.b0 o'.b1 g j = pairRow o.b0 o.b1 g (j - 1)
    rw [pairRow_funnel_back hg h.b0 h.b1 j, h1]
  · change pairRow o'.c0 o'.c1 g j = pairRow o.c0 o.c1 g (j - 2)
    rw [h.c0, h.c1, pairRow_swap, h2]
  · change pairRow o'.d0 o'.d1 g j = pairRow o.d0 o.d1 g (j - 3)
    rw [pairRow_funnel hg h.d0 h.d1 j, h3]

omit hg in
/-- A vector round whose rows are split between two registers makes a round on every pair of lanes. -/
theorem pairs_round {mixed turned undone : Octet (Register n) → Octet (Register n)}
    (hmixed : ∀ o, cells (mixed o) = mix columnValues (cells o))
    (hturned : ∀ o, PairsTurned o (turned o)) (hundone : ∀ o, PairsUndone o (undone o))
    (g : ℕ) (hg : 2 * g + 1 < n) (o : Octet (Register n)) :
    cells (undone (mixed (turned (mixed o)))) ∘ Prod.map id (pairPlace g hg) =
      cellRound (cells o ∘ Prod.map id (pairPlace g hg)) :=
  round_placed cells columnValues (pairPlace g hg) hmixed (fun o => (hturned o).cells_eq hg)
    (fun o => (hundone o).cells_eq hg) o

end Pairs

end Argon2Rust.RegisterTurns
