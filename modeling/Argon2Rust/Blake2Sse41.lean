import Argon2Rust.Blake2Grid
import Argon2Rust.PairedRound
import Argon2Rust.Sse2

set_option autoImplicit false

namespace Argon2Rust.Blake2Sse41
open Bytes Blake2 Simd LaneRounds RoundCells RegisterBlock RegisterTurns PairedRound Blake2Grid
  Numerals

def load2 {size : ℕ} (src : Vector UInt64 size) (offset : ℕ) : Register 2 :=
  ofLanes fun l => src[offset + l]?.getD 0

def store2 (x0 x1 x2 x3 : Register 2) : Vector UInt64 8 :=
  Vector.ofFn fun i : Fin 8 => lane (![x0, x1, x2, x3] ⟨i.val / 2, by omega⟩) (i.val % 2)

def rotr32 (x : Register 2) : Register 2 := shuffleEpi32 0b10110001 x

def rotr24 (mask x : Register 2) : Register 2 := shuffleEpi8 x mask

def rotr16 (mask x : Register 2) : Register 2 := shuffleEpi8 x mask

def rotr63 (x : Register 2) : Register 2 := xorSi (srliEpi64 63 x) (addEpi64 x x)

def g (r24 r16 x y : Register 2) : Rows 2 → Rows 2 :=
  vectorG rotr32 (rotr24 r24) (rotr16 r16) rotr63 x y

def lo (a b : Register 2) : Register 2 := unpackloEpi64 a b

def hi (a b : Register 2) : Register 2 := unpackhiEpi64 a b

def align8 (a b : Register 2) : Register 2 := alignrEpi8 8 a b

/-- `_mm_blend_epi16`: sixteen-bit field `k` of `b` where bit `k` of the mask is set. -/
def blendEpi16 (imm : ℕ) (a b : Register 2) : Register 2 :=
  ofLanes fun l => ofBytes fun j =>
    if imm.testBit ((8 * l + j) / 2) then byte b (8 * l + j) else byte a (8 * l + j)

def blendHi (a b : Register 2) : Register 2 := blendEpi16 0xF0 a b

def swap (a : Register 2) : Register 2 := shuffleEpi32 0b01001110 a

/-- The message registers of the four quarters of a round, for the ten distinct rounds. -/
def schedules (m : Fin 8 → Register 2) : Fin 10 → Fin 4 → Register 2 × Register 2 := ![
  ![(lo (m 0) (m 1), lo (m 2) (m 3)),
    (hi (m 0) (m 1), hi (m 2) (m 3)),
    (lo (m 4) (m 5), lo (m 6) (m 7)),
    (hi (m 4) (m 5), hi (m 6) (m 7))],
  ![(lo (m 7) (m 2), hi (m 4) (m 6)),
    (lo (m 5) (m 4), align8 (m 3) (m 7)),
    (swap (m 0), hi (m 5) (m 2)),
    (lo (m 6) (m 1), hi (m 3) (m 1))],
  ![(align8 (m 6) (m 5), hi (m 2) (m 7)),
    (lo (m 4) (m 0), blendHi (m 1) (m 6)),
    (blendHi (m 5) (m 1), hi (m 3) (m 4)),
    (lo (m 7) (m 3), align8 (m 2) (m 0))],
  ![(hi (m 3) (m 1), hi (m 6) (m 5)),
    (hi (m 4) (m 0), lo (m 6) (m 7)),
    (blendHi (m 1) (m 2), blendHi (m 2) (m 7)),
    (lo (m 3) (m 5), lo (m 0) (m 4))],
  ![(hi (m 4) (m 2), lo (m 1) (m 5)),
    (blendHi (m 0) (m 3), blendHi (m 2) (m 7)),
    (blendHi (m 7) (m 5), blendHi (m 3) (m 1)),
    (align8 (m 6) (m 0), blendHi (m 4) (m 6))],
  ![(lo (m 1) (m 3), lo (m 0) (m 4)),
    (lo (m 6) (m 5), hi (m 5) (m 1)),
    (blendHi (m 2) (m 3), hi (m 7) (m 0)),
    (hi (m 6) (m 2), blendHi (m 7) (m 4))],
  ![(blendHi (m 6) (m 0), lo (m 7) (m 2)),
    (hi (m 2) (m 7), align8 (m 5) (m 6)),
    (lo (m 0) (m 3), swap (m 4)),
    (hi (m 3) (m 1), blendHi (m 1) (m 5))],
  ![(hi (m 6) (m 3), blendHi (m 6) (m 1)),
    (align8 (m 7) (m 5), hi (m 0) (m 4)),
    (hi (m 2) (m 7), lo (m 4) (m 1)),
    (lo (m 0) (m 2), lo (m 3) (m 5))],
  ![(lo (m 3) (m 7), align8 (m 0) (m 5)),
    (hi (m 7) (m 4), align8 (m 4) (m 1)),
    (m 6, align8 (m 5) (m 0)),
    (blendHi (m 1) (m 3), m 2)],
  ![(lo (m 5) (m 4), hi (m 3) (m 0)),
    (lo (m 1) (m 2), blendHi (m 3) (m 2)),
    (hi (m 7) (m 4), hi (m 1) (m 6)),
    (align8 (m 7) (m 5), lo (m 6) (m 0))]]

/-- `message`: rounds 10 and 11 repeat the first two. -/
def message (m : Fin 8 → Register 2) (round : Fin 12) (quarter : Fin 4) : Register 2 × Register 2 :=
  schedules m (if h : round.val < 10 then ⟨round.val, h⟩ else ⟨round.val - 10, by omega⟩) quarter

def diagonalize : Octet (Register 2) → Octet (Register 2) := diagonalizeBy align8

def undiagonalize : Octet (Register 2) → Octet (Register 2) := undiagonalizeBy align8

/-- Two calls of `g`, on the low and on the high registers of the rows. -/
def gPair (r24 r16 : Register 2) (x y : Register 2 × Register 2) (o : Octet (Register 2)) :
    Octet (Register 2) :=
  let l := g r24 r16 x.1 y.1 ![o.a0, o.b0, o.c0, o.d0]
  let h := g r24 r16 x.2 y.2 ![o.a1, o.b1, o.c1, o.d1]
  ⟨l 0, h 0, l 1, h 1, l 2, h 2, l 3, h 3⟩

def round (r24 r16 : Register 2) (m : Fin 8 → Register 2) (o : Octet (Register 2)) (r : Fin 12) :
    Octet (Register 2) :=
  let x := message m r 0
  let y := message m r 1
  let o := gPair r24 r16 x y o
  let o := diagonalize o
  let x := message m r 2
  let y := message m r 3
  let o := gPair r24 r16 x y o
  undiagonalize o

def compressSse41 : CompressFn := fun h t f words =>
  let al := load2 h 0
  let ah := load2 h 2
  let bl := load2 h 4
  let bh := load2 h 6
  let cl := load2 iv 0
  let ch := load2 iv 2
  let dl := xorSi (load2 iv 4) (load2 #v[t.1, t.2] 0)
  let dh := xorSi (load2 iv 6) (load2 #v[f.1, f.2] 0)
  let m : Fin 8 → Register 2 := fun i => load2 words (2 * i.val)
  let r24 := loaduBytes Sse2.r24
  let r16 := loaduBytes Sse2.r16
  let o := (List.finRange 12).foldl (round r24 r16 m) ⟨al, ah, bl, bh, cl, ch, dl, dh⟩
  store2 (xorSi al (xorSi o.a0 o.c0)) (xorSi ah (xorSi o.a1 o.c1)) (xorSi bl (xorSi o.b0 o.d0))
    (xorSi bh (xorSi o.b1 o.d1))

section Schedule

theorem lo_eq : lo = fun a b => loaduWords [lane a 0, lane b 0] := by
  funext a b
  apply ext_lanes
  intro l hl
  rcases (by omega : l = 0 ∨ l = 1) with rfl | rfl <;> rfl

theorem hi_eq : hi = fun a b => loaduWords [lane a 1, lane b 1] := by
  funext a b
  apply ext_lanes
  intro l hl
  rcases (by omega : l = 0 ∨ l = 1) with rfl | rfl <;> rfl

theorem align8_eq : align8 = fun a b => loaduWords [lane b 1, lane a 0] := by
  funext a b
  apply ext_lanes
  intro l hl
  unfold align8
  rw [lane_alignrEpi8 a b hl]
  rcases (by omega : l = 0 ∨ l = 1) with rfl | rfl <;> rfl

theorem blendHi_eq : blendHi = fun a b => loaduWords [lane a 0, lane b 1] := by
  have hmask : ∀ l < 2, ∀ j < 8, Nat.testBit 0xF0 ((8 * l + j) / 2) = decide (l = 1) := by decide
  funext a b
  apply ext_lanes
  intro l hl
  unfold blendHi blendEpi16
  rw [lane_ofLanes _ hl]
  have hbytes : (ofBytes fun j => if Nat.testBit 0xF0 ((8 * l + j) / 2) then byte b (8 * l + j)
      else byte a (8 * l + j)) = ofBytes (byteOf (if l = 1 then lane b l else lane a l)) := by
    apply ofBytes_congr
    intro j hj
    rw [hmask l hl j hj, byte_lane b l j hj, byte_lane a l j hj]
    rcases (by omega : l = 0 ∨ l = 1) with rfl | rfl <;> rfl
  rw [hbytes, ofBytes_byteOf]
  rcases (by omega : l = 0 ∨ l = 1) with rfl | rfl <;> rfl

theorem swap_eq : swap = fun a => loaduWords [lane a 1, lane a 0] := by
  have hselect : ∀ l < 2, ∀ j < 2,
      4 * (l / 2) + select 0b01001110 (2 * (l % 2) + j) = 2 * (1 - l) + j := by decide
  funext a
  apply ext_lanes
  intro l hl
  unfold swap shuffleEpi32
  rw [lane_ofLanes _ hl]
  have hdwords : (ofDwords fun j => dword a (4 * (l / 2) + select 0b01001110 (2 * (l % 2) + j))) =
      ofDwords (dwordOf (lane a (1 - l))) := by
    apply ofDwords_congr
    intro j hj
    rw [hselect l hl j hj, dword_lane a (1 - l) j hj]
  rw [hdwords, ofDwords_dwordOf]
  rcases (by omega : l = 0 ∨ l = 1) with rfl | rfl <;> rfl

def sigmaRow (r : Fin 12) : Vector Slot 16 := sigma.get r

/-- Word `k` of the message, in the register and the lane that hold it. -/
def heldWord (m : Fin 8 → Register 2) (k : Slot) : UInt64 :=
  lane (m ⟨k.val / 2, by omega⟩) (k.val % 2)

/-- The gathered registers hold the words that `SIGMA` prescribes. -/
theorem message_words (m : Fin 8 → Register 2) (r : Fin 12) (half word : Fin 2) (j : Fin 4) :
    pairRow (message m r ⟨2 * half.val + word.val, by omega⟩).1
        (message m r ⟨2 * half.val + word.val, by omega⟩).2 0 j =
      heldWord m (sigmaRow r)[schedule half word j] := by
  unfold message schedules
  rw [lo_eq, hi_eq, align8_eq, blendHi_eq, swap_eq]
  fin_cases r <;> fin_cases half <;> fin_cases word <;> fin_cases j <;> rfl

end Schedule

section Rotations
variable (x : Register 2) (l : ℕ) (hl : l < 2)
include hl

theorem lane_rotr32 : lane (rotr32 x) l = rotateRight (lane x l) 32 := Sse2.lane_rot32 true x l hl

theorem lane_rotr24 : lane (rotr24 (loaduBytes Sse2.r24) x) l = rotateRight (lane x l) 24 :=
  Sse2.lane_rot24 true x l hl

theorem lane_rotr16 : lane (rotr16 (loaduBytes Sse2.r16) x) l = rotateRight (lane x l) 16 :=
  Sse2.lane_rot16 true x l hl

theorem lane_rotr63 : lane (rotr63 x) l = rotateRight (lane x l) 63 := Sse2.lane_rot63 true x l hl

end Rotations

section Rounds

theorem pair_lt : 2 * 0 + 1 < 2 := by decide

def pairCells (o : Octet (Register 2)) : Grid := cells o ∘ Prod.map id (pairPlace 0 pair_lt)

theorem diagonalize_cells (o : Octet (Register 2)) :
    pairCells (diagonalize o) = pairCells o ∘ diagonal :=
  (diagonalizeBy_turns (fun hi lo _ hl => lane_alignrEpi8 hi lo hl) o).cells_eq (by decide)

theorem undiagonalize_cells (o : Octet (Register 2)) :
    pairCells (undiagonalize o) = pairCells o ∘ undiagonal :=
  (undiagonalizeBy_turns (fun hi lo _ hl => lane_alignrEpi8 hi lo hl) o).cells_eq (by decide)

theorem gPair_cells (x y : Register 2 × Register 2) (o : Octet (Register 2)) :
    pairCells (gPair (loaduBytes Sse2.r24) (loaduBytes Sse2.r16) x y o) =
      mixWith (pairRow x.1 x.2 0) (pairRow y.1 y.2 0) (pairCells o) := by
  have hg (x y : Register 2) (q : Rows 2) (row : Fin 4) (l : ℕ) (hl : l < 2) :=
    lane_vectorG lane_rotr32 lane_rotr24 lane_rotr16 lane_rotr63 x y q row l hl
  have hlow (row : Fin 4) (l : ℕ) (hl : l < 2) :=
    hg x.1 y.1 ![o.a0, o.b0, o.c0, o.d0] row l hl
  have hhigh (row : Fin 4) (l : ℕ) (hl : l < 2) :=
    hg x.2 y.2 ![o.a1, o.b1, o.c1, o.d1] row l hl
  have hcells (j : Fin 4) (row : Fin 4) : pairCells o (row, j) =
      lane ((![![o.a0, o.b0, o.c0, o.d0], ![o.a1, o.b1, o.c1, o.d1]] : Fin 2 → Rows 2)
        ⟨j.val / 2, by omega⟩ row) (j.val % 2) := by
    fin_cases j <;> fin_cases row <;> rfl
  funext c
  obtain ⟨row, j⟩ := c
  unfold mixWith
  simp only [hcells]
  fin_cases j
  · refine Eq.trans ?_ (hlow row 0 (by decide))
    fin_cases row <;> rfl
  · refine Eq.trans ?_ (hlow row 1 (by decide))
    fin_cases row <;> rfl
  · refine Eq.trans ?_ (hhigh row 0 (by decide))
    fin_cases row <;> rfl
  · refine Eq.trans ?_ (hhigh row 1 (by decide))
    fin_cases row <;> rfl

theorem message_gathered (words : Vector UInt64 16) (r : Fin 12) (half word : Fin 2) :
    pairRow (message (fun i => load2 words (2 * i.val)) r
          ⟨2 * half.val + word.val, by omega⟩).1
        (message (fun i => load2 words (2 * i.val)) r
          ⟨2 * half.val + word.val, by omega⟩).2 0 =
      messageWords words (sigmaRow r) half word := by
  have hheld (k : Slot) : heldWord (fun i => load2 words (2 * i.val)) k = words[k] := by
    unfold heldWord load2
    rw [lane_ofLanes _ (Nat.mod_lt _ (by decide)), Nat.div_add_mod,
      Vector.getElem?_eq_getElem k.isLt, Option.getD_some]
    rfl
  funext j
  rw [message_words, hheld]
  rfl

theorem round_cells (words : Vector UInt64 16) (o : Octet (Register 2)) (r : Fin 12) :
    pairCells (round (loaduBytes Sse2.r24) (loaduBytes Sse2.r16)
        (fun i => load2 words (2 * i.val)) o r) =
      gridRound words (pairCells o) (sigmaRow r) := by
  have hx := message_gathered words r 0 0
  have hy := message_gathered words r 0 1
  have hx' := message_gathered words r 1 0
  have hy' := message_gathered words r 1 1
  unfold gridRound mixHalf
  rw [← hx, ← hy, ← hx', ← hy', ← gPair_cells, ← diagonalize_cells, ← gPair_cells,
    ← undiagonalize_cells]
  rfl

theorem start_cells (h : Vector UInt64 8) (t f : UInt64 × UInt64) :
    pairCells ⟨load2 h 0, load2 h 2, load2 h 4, load2 h 6,
        load2 iv 0, load2 iv 2, xorSi (load2 iv 4) (load2 #v[t.1, t.2] 0),
        xorSi (load2 iv 6) (load2 #v[f.1, f.2] 0)⟩ = startGrid h t f := by
  funext c
  obtain ⟨row, j⟩ := c
  fin_cases row <;> fin_cases j <;> rfl

theorem sigma_rows : sigma = (List.finRange 12).map sigmaRow := rfl

theorem compressSse41_eq : compressSse41 = compressScalar := by
  funext h t f words
  have hrounds (o : Octet (Register 2)) : sigma.foldl (gridRound words) (pairCells o) =
      pairCells ((List.finRange 12).foldl (round (loaduBytes Sse2.r24) (loaduBytes Sse2.r16)
        (fun i => load2 words (2 * i.val))) o) := by
    rw [sigma_rows, List.foldl_map]
    exact List.foldl_hom pairCells fun o r => (round_cells words o r).symm
  rw [compressScalar_cells, ← start_cells h t f, hrounds]
  unfold compressSse41
  dsimp only
  generalize (List.finRange 12).foldl _ _ = o
  unfold store2 feedForward
  congr 1
  funext i
  fin_cases i <;> rfl

/-- The SSE4.1 compression leaves `h` as the scalar one does, and its gathers deliver to both
halves of every round the words of `SIGMA`. -/
theorem sse41_eq_scalar :
    (∀ h t f m, compressSse41 h t f m = compressScalar h t f m) ∧
      ∀ (words : Vector UInt64 16) (r : Fin 12) (half word : Fin 2) (j : Fin 4),
        let p := message (fun i => load2 words (2 * i.val)) r
          ⟨2 * half.val + word.val, by omega⟩
        pairRow p.1 p.2 0 j = words[(sigmaRow r)[schedule half word j]] := by
  refine ⟨fun h t f m => ?_, fun words r half word j => ?_⟩
  · rw [compressSse41_eq]
  · exact congrFun (message_gathered words r half word) j

end Rounds

end Argon2Rust.Blake2Sse41
