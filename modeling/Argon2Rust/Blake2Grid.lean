import Argon2Rust.Blake2
import Argon2Rust.RegisterTurns

set_option autoImplicit false

namespace Argon2Rust.Blake2Grid
open Bytes Blake2 Simd LaneRounds RoundCells Numerals

abbrev Grid := Cells (Fin 4) UInt64

def gHalf (w rotD rotB : UInt64) (q : Fin 4 → UInt64) : Fin 4 → UInt64 :=
  let a := q 0 + q 1 + w
  let d := rotateRight (q 3 ^^^ a) rotD
  let c := q 2 + d
  let b := rotateRight (q 1 ^^^ c) rotB
  ![a, b, c, d]

def gColumn (x y : UInt64) : (Fin 4 → UInt64) → Fin 4 → UInt64 := gHalf y 16 63 ∘ gHalf x 32 24

def mixWith (x y : Fin 4 → UInt64) (v : Grid) : Grid :=
  fun c => gColumn (x c.2) (y c.2) (fun row => v (row, c.2)) c.1

/-- The place in a row of `SIGMA` of a message word: the half round, the column, which of two. -/
def schedule (half : Fin 2) (word : Fin 2) (j : Fin 4) : Fin 16 :=
  ⟨8 * half.val + 2 * j.val + word.val, by omega⟩

def messageWords (m : Vector UInt64 16) (s : Vector Slot 16) (half word : Fin 2) (j : Fin 4) :
    UInt64 := m.get (s.get (schedule half word j))

def mixHalf (m : Vector UInt64 16) (s : Vector Slot 16) (half : Fin 2) : Grid → Grid :=
  mixWith (messageWords m s half 0) (messageWords m s half 1)

def gridRound (m : Vector UInt64 16) (v : Grid) (s : Vector Slot 16) : Grid :=
  mixHalf m s 1 (mixHalf m s 0 v ∘ diagonal) ∘ undiagonal

def startGrid (h : Vector UInt64 8) (t f : UInt64 × UInt64) : Grid := fun c =>
  (![![h.get 0, h.get 1, h.get 2, h.get 3], ![h.get 4, h.get 5, h.get 6, h.get 7],
    ![iv.get 0, iv.get 1, iv.get 2, iv.get 3],
    ![iv.get 4 ^^^ t.1, iv.get 5 ^^^ t.2, iv.get 6 ^^^ f.1, iv.get 7 ^^^ f.2]] :
      Fin 4 → Fin 4 → UInt64) c.1 c.2

def feedForward (h : Vector UInt64 8) (v : Grid) : Vector UInt64 8 :=
  Vector.ofFn fun i : Fin 8 =>
    h.get i ^^^ (v (⟨i.val / 4, by omega⟩, ⟨i.val % 4, by omega⟩) ^^^
      v (⟨i.val / 4 + 2, by omega⟩, ⟨i.val % 4, by omega⟩))

section Scalar

/-- Half of the `G` macro, on the words that `slots` names. -/
def gHalfAt (w rotD rotB : UInt64) (slots : Fin 4 → Slot) (v : Vector UInt64 16) :
    Vector UInt64 16 :=
  let v := v.set (slots 0) (v[slots 0] + v[slots 1] + w)
  let v := v.set (slots 3) (rotateRight (v[slots 3] ^^^ v[slots 0]) rotD)
  let v := v.set (slots 2) (v[slots 2] + v[slots 3])
  v.set (slots 1) (rotateRight (v[slots 1] ^^^ v[slots 2]) rotB)

theorem gIndex_lt (half : Fin 2) (j : Fin 4) : 4 * half.val + j.val < 8 := by omega

def gIndex (half : Fin 2) (j : Fin 4) : Fin 8 := ⟨4 * half.val + j.val, gIndex_lt half j⟩

theorem g_eq_halves (m : Vector UInt64 16) (s : Vector Slot 16) (v : Vector UInt64 16)
    (half : Fin 2) (j : Fin 4) (slots : Fin 4 → Slot) :
    gHalfAt (messageWords m s half 1 j) 16 63 slots
        (gHalfAt (messageWords m s half 0 j) 32 24 slots v) =
      g m s v (gIndex half j) (slots 0) (slots 1) (slots 2) (slots 3) := by
  have hword (word : Fin 2) (k : ℕ) (hk : k < 16) (h : 2 * (4 * half.val + j.val) + word.val = k) :
      messageWords m s half word j = m[s[k]] := by
    have hplace : (schedule half word j).val = k := by
      unfold schedule
      dsimp only
      omega
    unfold messageWords
    change m[s[(schedule half word j).val]] = m[s[k]]
    simp only [hplace]
  rw [hword 0 _ (by omega) rfl, hword 1 _ (by omega) rfl]
  rfl

variable {slots : Fin 4 → Slot} (hslots : Function.Injective slots)

include hslots in
theorem set_get (v : Vector UInt64 16) (r row : Fin 4) (x : UInt64) :
    (v.set (slots r) x)[slots row] = if row = r then x else v[slots row] := by
  by_cases h : row = r
  · rw [if_pos h, h]
    exact Vector.getElem_set_self _
  · rw [if_neg h]
    exact Vector.getElem_set_ne _ _ fun hc => h (hslots (Fin.ext hc.symm))

include hslots in
theorem gHalfAt_get (w rotD rotB : UInt64) (v : Vector UInt64 16) (row : Fin 4) :
    (gHalfAt w rotD rotB slots v)[slots row] =
      gHalf w rotD rotB (fun row => v[slots row]) row := by
  unfold gHalfAt
  simp only [set_get hslots]
  fin_cases row <;> rfl

theorem gHalfAt_frame (w rotD rotB : UInt64) (v : Vector UInt64 16) (r : Slot)
    (hr : ∀ row, slots row ≠ r) : (gHalfAt w rotD rotB slots v).get r = v.get r := by
  have hset (u : Vector UInt64 16) (row : Fin 4) (x : UInt64) :
      (u.set (slots row) x).get r = u.get r :=
    Vector.getElem_set_ne _ _ fun h => hr row (Fin.ext h)
  unfold gHalfAt
  simp only [hset]

/-- The four `G` of a half round in turn, on the words that `place` names. -/
def gSteps (m : Vector UInt64 16) (s : Vector Slot 16) (half : Fin 2) (place : Fin 4 × Fin 4 → Slot)
    (v : Vector UInt64 16) : Vector UInt64 16 :=
  Fin.foldl 4 (fun v j => gHalfAt (messageWords m s half 1 j) 16 63 (fun row => place (row, j))
    (gHalfAt (messageWords m s half 0 j) 32 24 (fun row => place (row, j)) v)) v

theorem gSteps_get (m : Vector UInt64 16) (s : Vector Slot 16) (half : Fin 2)
    {place : Fin 4 × Fin 4 → Slot} (hplace : Function.Injective place) (v : Vector UInt64 16)
    (c : Fin 4 × Fin 4) :
    (gSteps m s half place v)[place c] = mixHalf m s half (fun c => v[place c]) c := by
  have hcolumn (j : Fin 4) : Function.Injective fun row => place (row, j) :=
    fun r r' h => congrArg Prod.fst (hplace h)
  have hdisjoint (i j k l : Fin 4) (h : place (k, i) = place (l, j)) : i = j :=
    congrArg Prod.snd (hplace h)
  refine foldl_groups (fun y r => y[r])
    (fun j => gColumn (messageWords m s half 0 j) (messageWords m s half 1 j)) hdisjoint ?_ ?_ v
    c.2 c.1
  · intro y j row
    rw [gHalfAt_get (hcolumn j)]
    unfold gColumn
    congr 1
    funext row
    exact gHalfAt_get (hcolumn j) _ _ _ y row
  · intro y j r hr
    exact (gHalfAt_frame _ _ _ _ r hr).trans (gHalfAt_frame _ _ _ _ r hr)

theorem round_steps (m v : Vector UInt64 16) (s : Vector Slot 16) :
    Blake2.round m v s = gSteps m s 1 (wordIndex ∘ diagonal) (gSteps m s 0 wordIndex v) := by
  unfold gSteps
  simp only [g_eq_halves, Fin.foldl_succ, Fin.foldl_zero]
  rfl

/-- A round of `compress_scalar` is one round over the cells of the work vector. -/
theorem round_cells (m v : Vector UInt64 16) (s : Vector Slot 16) :
    roundCells (Blake2.round m v s) = gridRound m (roundCells v) s := by
  have hcolumns : roundCells (gSteps m s 0 wordIndex v) = mixHalf m s 0 (roundCells v) := by
    funext c
    exact gSteps_get m s 0 wordIndex_injective v c
  funext c
  have hdiagonals := gSteps_get m s 1 (wordIndex_injective.comp diagonal_injective)
    (gSteps m s 0 wordIndex v) (undiagonal c)
  change roundCells (gSteps m s 1 (wordIndex ∘ diagonal) (gSteps m s 0 wordIndex v))
      (diagonal (undiagonal c)) =
    mixHalf m s 1 (roundCells (gSteps m s 0 wordIndex v) ∘ diagonal) (undiagonal c) at hdiagonals
  rw [diagonal_undiagonal, hcolumns] at hdiagonals
  rw [round_steps]
  exact hdiagonals

theorem start_cells (h w : Vector UInt64 8) (c : Fin 4 × Fin 4) :
    roundCells (h ++ w) c =
      if hk : 4 * c.1.val + c.2.val < 8 then h[4 * c.1.val + c.2.val]
      else w[4 * c.1.val + c.2.val - 8] :=
  Vector.getElem_append (wordIndex c).isLt

theorem compressScalar_cells (h : Vector UInt64 8) (t f : UInt64 × UInt64)
    (m : Vector UInt64 16) :
    compressScalar h t f m = feedForward h (sigma.foldl (gridRound m) (startGrid h t f)) := by
  have hstart : startGrid h t f = roundCells (h ++ #v[iv[0], iv[1], iv[2], iv[3], iv[4] ^^^ t.1,
      iv[5] ^^^ t.2, iv[6] ^^^ f.1, iv[7] ^^^ f.2]) := by
    funext c
    obtain ⟨row, j⟩ := c
    rw [start_cells]
    fin_cases row <;> fin_cases j <;> rfl
  have hrounds (v : Vector UInt64 16) : sigma.foldl (gridRound m) (roundCells v) =
      roundCells (sigma.foldl (Blake2.round m) v) :=
    List.foldl_hom roundCells fun v s => (round_cells m v s).symm
  have hfeed (v : Vector UInt64 16) : feedForward h (roundCells v) =
      Vector.ofFn fun i : Fin 8 => h[i] ^^^ (v[i.val] ^^^ v[i.val + 8]) := by
    unfold feedForward
    congr 1
    funext i
    fin_cases i <;> rfl
  rw [hstart, hrounds, hfeed]
  rfl

end Scalar

section Vectors
variable {n : ℕ}

abbrev Rows (n : ℕ) := Fin 4 → Register n

def vectorHalf (rotD rotB : Register n → Register n) (w : Register n) (q : Rows n) : Rows n :=
  let a := addEpi64 (addEpi64 (q 0) (q 1)) w
  let d := rotD (xorSi (q 3) a)
  let c := addEpi64 (q 2) d
  let b := rotB (xorSi (q 1) c)
  ![a, b, c, d]

def vectorG (rotr32 rotr24 rotr16 rotr63 : Register n → Register n) (x y : Register n) :
    Rows n → Rows n := vectorHalf rotr16 rotr63 y ∘ vectorHalf rotr32 rotr24 x

theorem lane_vectorHalf {rotD rotB : Register n → Register n} {d b : UInt64}
    (hd : ∀ x l, l < n → lane (rotD x) l = rotateRight (lane x l) d)
    (hb : ∀ x l, l < n → lane (rotB x) l = rotateRight (lane x l) b) (w : Register n) (q : Rows n)
    (row : Fin 4) (l : ℕ) (hl : l < n) :
    lane (vectorHalf rotD rotB w q row) l =
      gHalf (lane w l) d b (fun row => lane (q row) l) row := by
  have hadd (x y : Register n) : lane (addEpi64 x y) l = lane x l + lane y l := lane_ofLanes _ hl
  have hxor (x y : Register n) : lane (xorSi x y) l = lane x l ^^^ lane y l := lane_ofLanes _ hl
  unfold vectorHalf gHalf
  fin_cases row
  · change lane (addEpi64 _ _) l = _
    simp only [hadd]
    rfl
  · change lane (rotB _) l = _
    simp only [hb _ l hl, hd _ l hl, hadd, hxor]
    rfl
  · change lane (addEpi64 _ _) l = _
    simp only [hd _ l hl, hadd, hxor]
    rfl
  · change lane (rotD _) l = _
    simp only [hd _ l hl, hadd, hxor]
    rfl

/-- A vector `G` makes `G` in every lane, with the message words of that lane. -/
theorem lane_vectorG {rotr32 rotr24 rotr16 rotr63 : Register n → Register n}
    (h32 : ∀ x l, l < n → lane (rotr32 x) l = rotateRight (lane x l) 32)
    (h24 : ∀ x l, l < n → lane (rotr24 x) l = rotateRight (lane x l) 24)
    (h16 : ∀ x l, l < n → lane (rotr16 x) l = rotateRight (lane x l) 16)
    (h63 : ∀ x l, l < n → lane (rotr63 x) l = rotateRight (lane x l) 63) (x y : Register n)
    (q : Rows n) (row : Fin 4) (l : ℕ) (hl : l < n) :
    lane (vectorG rotr32 rotr24 rotr16 rotr63 x y q row) l =
      gColumn (lane x l) (lane y l) (fun row => lane (q row) l) row := by
  have hfirst : (fun row => lane (vectorHalf rotr32 rotr24 x q row) l) =
      gHalf (lane x l) 32 24 fun row => lane (q row) l := by
    funext row
    exact lane_vectorHalf h32 h24 x q row l hl
  have hsecond := lane_vectorHalf h16 h63 y (vectorHalf rotr32 rotr24 x q) row l hl
  rw [hfirst] at hsecond
  exact hsecond

end Vectors

end Argon2Rust.Blake2Grid
