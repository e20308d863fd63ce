import Argon2Rust.Avx2
import Argon2Rust.Blake2Grid

set_option autoImplicit false

namespace Argon2Rust.Blake2Avx
open Bytes Blake2 Simd LaneRounds RoundCells RegisterTurns Blake2Grid Numerals

def load4 (src : Vector UInt64 8) (offset : ℕ) : Register 4 :=
  ofLanes fun l => src[offset + l]?.getD 0

def store4 (lo hi : Register 4) : Vector UInt64 8 :=
  Vector.ofFn fun i : Fin 8 => if i.val < 4 then lane lo i.val else lane hi (i.val - 4)

def set4 (a b c d : UInt64) : Register 4 := loaduWords [a, b, c, d]

def rotr32 : Register 4 → Register 4 := Avx2.rotr32

def rotr24 : Register 4 → Register 4 := Avx2.rotr24

def rotr16 : Register 4 → Register 4 := Avx2.rotr16

def diagonalize (q : Rows 4) : Rows 4 :=
  ![q 0, permute4x64Epi64 0b00111001 (q 1), permute4x64Epi64 0b01001110 (q 2),
    permute4x64Epi64 0b10010011 (q 3)]

def undiagonalize (q : Rows 4) : Rows 4 :=
  ![q 0, permute4x64Epi64 0b10010011 (q 1), permute4x64Epi64 0b01001110 (q 2),
    permute4x64Epi64 0b00111001 (q 3)]

section Backends
variable (rotr63 : Register 4 → Register 4)

def g (x y : Register 4) : Rows 4 → Rows 4 := vectorG rotr32 rotr24 rotr16 rotr63 x y

def round (m : Vector UInt64 16) (q : Rows 4) (s : Vector Slot 16) : Rows 4 :=
  let word (i : Slot) := m.get (s.get i)
  let x := set4 (word 0) (word 2) (word 4) (word 6)
  let y := set4 (word 1) (word 3) (word 5) (word 7)
  let q := g rotr63 x y q
  let q := diagonalize q
  let x := set4 (word 8) (word 10) (word 12) (word 14)
  let y := set4 (word 9) (word 11) (word 13) (word 15)
  let q := g rotr63 x y q
  undiagonalize q

def compress : CompressFn := fun h t f m =>
  let a := load4 h 0
  let b := load4 h 4
  let c := load4 iv 0
  let flags := set4 t.1 t.2 f.1 f.2
  let d := xorSi (load4 iv 4) flags
  let q := sigma.foldl (round rotr63 m) ![a, b, c, d]
  store4 (xorSi a (xorSi (q 0) (q 2))) (xorSi b (xorSi (q 1) (q 3)))

end Backends

def compressAvx2 : CompressFn := compress Avx2.rotr63

/-- With the native rotate `vprorq`. -/
def compressAvx512 : CompressFn := compress (rorEpi64 63)

def rowCells (q : Rows 4) : Grid := fun c => lane (q c.1) c.2.val

section Rounds

theorem lane_permute {imm : ℕ} {k : Fin 4} (himm : ∀ j : Fin 4, select imm j.val = (j + k).val)
    (x : Register 4) (j : Fin 4) : lane (permute4x64Epi64 imm x) j.val = lane x (j + k).val := by
  have hrow := quadRow_permutex x (by decide : 4 * 0 + 3 < 4) himm j
  unfold quadRow at hrow
  rw [Nat.mul_zero, Nat.zero_add, Nat.zero_add] at hrow
  exact hrow

theorem lane_one (x : Register 4) (j : Fin 4) :
    lane (permute4x64Epi64 0b00111001 x) j.val = lane x (j + 1).val := lane_permute (by decide) x j

theorem lane_two (x : Register 4) (j : Fin 4) :
    lane (permute4x64Epi64 0b01001110 x) j.val = lane x (j + 2).val := lane_permute (by decide) x j

theorem lane_three (x : Register 4) (j : Fin 4) :
    lane (permute4x64Epi64 0b10010011 x) j.val = lane x (j + 3).val := lane_permute (by decide) x j

theorem diagonalize_cells (q : Rows 4) : rowCells (diagonalize q) = rowCells q ∘ diagonal := by
  funext c
  obtain ⟨row, j⟩ := c
  change lane (diagonalize q row) j.val = lane (q row) (j + row).val
  fin_cases row
  · exact congrArg (fun j : Fin 4 => lane (q 0) j.val) (add_zero j).symm
  · exact lane_one (q 1) j
  · exact lane_two (q 2) j
  · exact lane_three (q 3) j

theorem undiagonalize_cells (q : Rows 4) :
    rowCells (undiagonalize q) = rowCells q ∘ undiagonal := by
  have hback : ∀ j : Fin 4, j - 0 = j ∧ j - 1 = j + 3 ∧ j - 2 = j + 2 ∧ j - 3 = j + 1 := by decide
  funext c
  obtain ⟨row, j⟩ := c
  obtain ⟨h0, h1, h2, h3⟩ := hback j
  change lane (undiagonalize q row) j.val = lane (q row) (j - row).val
  fin_cases row
  · change lane (q 0) j.val = lane (q 0) (j - 0).val
    rw [h0]
  · change lane (permute4x64Epi64 0b10010011 (q 1)) j.val = lane (q 1) (j - 1).val
    rw [h1, lane_three]
  · change lane (permute4x64Epi64 0b01001110 (q 2)) j.val = lane (q 2) (j - 2).val
    rw [h2, lane_two]
  · change lane (permute4x64Epi64 0b00111001 (q 3)) j.val = lane (q 3) (j - 3).val
    rw [h3, lane_one]

theorem lane_set4 (f : Fin 4 → UInt64) (j : Fin 4) :
    lane (set4 (f 0) (f 1) (f 2) (f 3)) j.val = f j := by
  fin_cases j <;> rfl

theorem start_cells (h : Vector UInt64 8) (t f : UInt64 × UInt64) :
    rowCells ![load4 h 0, load4 h 4, load4 iv 0, xorSi (load4 iv 4) (set4 t.1 t.2 f.1 f.2)] =
      startGrid h t f := by
  funext c
  obtain ⟨row, j⟩ := c
  fin_cases row <;> fin_cases j <;> rfl

variable {rotr63 : Register 4 → Register 4}
  (h63 : ∀ x l, l < 4 → lane (rotr63 x) l = rotateRight (lane x l) 63)
include h63

theorem g_cells (x y : Fin 4 → UInt64) (q : Rows 4) :
    rowCells (g rotr63 (set4 (x 0) (x 1) (x 2) (x 3)) (set4 (y 0) (y 1) (y 2) (y 3)) q) =
      mixWith x y (rowCells q) := by
  funext c
  obtain ⟨row, j⟩ := c
  have hg := lane_vectorG Avx2.lane_rotr32 Avx2.lane_rotr24 Avx2.lane_rotr16 h63
    (set4 (x 0) (x 1) (x 2) (x 3)) (set4 (y 0) (y 1) (y 2) (y 3)) q row j.val j.isLt
  rw [lane_set4, lane_set4] at hg
  exact hg

theorem round_cells (m : Vector UInt64 16) (q : Rows 4) (s : Vector Slot 16) :
    rowCells (round rotr63 m q s) = gridRound m (rowCells q) s := by
  let word (i : Slot) := m.get (s.get i)
  have hfirst := g_cells h63 (messageWords m s 0 0) (messageWords m s 0 1) q
  have hsecond := g_cells h63 (messageWords m s 1 0) (messageWords m s 1 1)
    (diagonalize (g rotr63 (set4 (word 0) (word 2) (word 4) (word 6))
      (set4 (word 1) (word 3) (word 5) (word 7)) q))
  unfold gridRound mixHalf
  rw [← hfirst, ← diagonalize_cells]
  exact (undiagonalize_cells _).trans (congrArg (· ∘ undiagonal) hsecond)

/-- Four `G` at a time make the compression function of the scalar code. -/
theorem compress_eq : compress rotr63 = compressScalar := by
  funext h t f m
  have hrounds (q : Rows 4) : sigma.foldl (gridRound m) (rowCells q) =
      rowCells (sigma.foldl (round rotr63 m) q) :=
    List.foldl_hom rowCells fun q s => (round_cells h63 m q s).symm
  rw [compressScalar_cells, ← start_cells h t f, hrounds]
  unfold compress
  dsimp only
  generalize sigma.foldl (round rotr63 m) _ = q
  unfold store4 feedForward
  congr 1
  funext i
  fin_cases i <;> rfl

end Rounds

theorem compressAvx2_eq : compressAvx2 = compressScalar := compress_eq Avx2.lane_rotr63

theorem compressAvx512_eq : compressAvx512 = compressScalar :=
  compress_eq fun x _ hl => (lane_ofLanes _ hl).trans
    (RegisterBlock.ror_eq _ 63 (by decide) (by decide))

end Argon2Rust.Blake2Avx
