import Argon2Rust.Compression
import Argon2Rust.LaneRounds

set_option autoImplicit false

namespace Argon2Rust.RoundCells
open Bytes Compression LaneRounds

/-- Half of `G`, over the two rotations it makes. -/
def halfValues (rotD rotB : UInt64) (q : Fin 4 → UInt64) : Fin 4 → UInt64 :=
  let a := fBlamka (q 0) (q 1)
  let d := rotateRight (q 3 ^^^ a) rotD
  let c := fBlamka (q 2) d
  let b := rotateRight (q 1 ^^^ c) rotB
  ![a, b, c, d]

def columnValues : (Fin 4 → UInt64) → Fin 4 → UInt64 := halfValues 16 63 ∘ halfValues 32 24

def diagonal (c : Fin 4 × Fin 4) : Fin 4 × Fin 4 := (c.1, c.2 + c.1)

def undiagonal (c : Fin 4 × Fin 4) : Fin 4 × Fin 4 := (c.1, c.2 - c.1)

def cellRound : Cells (Fin 4) UInt64 → Cells (Fin 4) UInt64 :=
  round columnValues diagonal undiagonal

def wordIndex (c : Fin 4 × Fin 4) : Fin 16 := ⟨4 * c.1.val + c.2.val, by omega⟩

def roundCells (v : Vector UInt64 16) : Cells (Fin 4) UInt64 := fun c => v[wordIndex c]

theorem columnValues_eq (a b c d : UInt64) : columnValues ![a, b, c, d] =
    ![(gValues a b c d).1, (gValues a b c d).2.1, (gValues a b c d).2.2.1,
      (gValues a b c d).2.2.2] := rfl

def steps (place : Fin 4 × Fin 4 → Fin 16) (v : Vector UInt64 16) : Vector UInt64 16 :=
  Fin.foldl 4 (fun v j => scatter (fun row => place (row, j))
    (columnValues (gather (fun row => place (row, j)) v)) v) v

theorem gAt_eq_scatter (v : Vector UInt64 16) (ia ib ic id : Fin 16) :
    gAt v ia ib ic id = scatter ![ia, ib, ic, id] (columnValues (gather ![ia, ib, ic, id] v)) v := by
  have hvalues : columnValues (gather ![ia, ib, ic, id] v) =
      columnValues ![v[ia], v[ib], v[ic], v[id]] := by
    apply congrArg columnValues
    funext row
    fin_cases row <;> rfl
  rw [hvalues, columnValues_eq]
  unfold gAt scatter
  simp only [Fin.foldl_succ, Fin.foldl_zero]
  rfl

theorem steps_eq (place : Fin 4 × Fin 4 → Fin 16) (v : Vector UInt64 16) :
    steps place v =
      gAt (gAt (gAt (gAt v (place (0, 0)) (place (1, 0)) (place (2, 0)) (place (3, 0)))
        (place (0, 1)) (place (1, 1)) (place (2, 1)) (place (3, 1)))
        (place (0, 2)) (place (1, 2)) (place (2, 2)) (place (3, 2)))
        (place (0, 3)) (place (1, 3)) (place (2, 3)) (place (3, 3)) := by
  have hslots : ∀ j : Fin 4, (fun row => place (row, j)) =
      ![place (0, j), place (1, j), place (2, j), place (3, j)] := by
    intro j
    funext row
    fin_cases row <;> rfl
  unfold steps
  simp only [hslots, ← gAt_eq_scatter, Fin.foldl_succ, Fin.foldl_zero]
  rfl

theorem steps_get {place : Fin 4 × Fin 4 → Fin 16} (hplace : Function.Injective place)
    (v : Vector UInt64 16) (c : Fin 4 × Fin 4) :
    (steps place v)[place c] = mix columnValues (fun c => v[place c]) c := by
  have hinj : ∀ i j k l : Fin 4, place (k, i) = place (l, j) → i = j ∧ k = l := by
    intro i j k l h
    have hc := hplace h
    exact ⟨congrArg Prod.snd hc, congrArg Prod.fst hc⟩
  exact foldl_scatter hinj columnValues v c.2 c.1

theorem blake2RoundNomsg_steps (v : Vector UInt64 16) :
    blake2RoundNomsg v = steps (wordIndex ∘ diagonal) (steps wordIndex v) := by
  rw [steps_eq, steps_eq]
  rfl

theorem wordIndex_injective : Function.Injective wordIndex := by decide

theorem diagonal_injective : Function.Injective diagonal := by decide

theorem diagonal_undiagonal (c : Fin 4 × Fin 4) : diagonal (undiagonal c) = c := by
  revert c
  decide

/-- `blake2_round_nomsg` is one round over the cells of its sixteen words. -/
theorem blake2RoundNomsg_cells (v : Vector UInt64 16) :
    roundCells (blake2RoundNomsg v) = cellRound (roundCells v) := by
  have hcolumns : roundCells (steps wordIndex v) = mix columnValues (roundCells v) := by
    funext c
    exact steps_get wordIndex_injective v c
  funext c
  have hdiagonals := steps_get (wordIndex_injective.comp diagonal_injective) (steps wordIndex v)
    (undiagonal c)
  change roundCells (steps (wordIndex ∘ diagonal) (steps wordIndex v)) (diagonal (undiagonal c)) =
    mix columnValues (roundCells (steps wordIndex v) ∘ diagonal) (undiagonal c) at hdiagonals
  rw [diagonal_undiagonal, hcolumns] at hdiagonals
  rw [blake2RoundNomsg_steps]
  exact hdiagonals

section Passes

def pass (slot : Fin 8 → Fin 16 → Fin 128) (b : Block) : Block :=
  Fin.foldl 8 (fun r i => roundAt r (slot i)) b

theorem permute_eq (b : Block) : permute b = pass rowSlot (pass columnSlot b) := rfl

/-- Every round of a pass sees the block the pass started with. -/
theorem pass_get {slot : Fin 8 → Fin 16 → Fin 128}
    (hinj : ∀ i j k l, slot i k = slot j l → i = j ∧ k = l) (b : Block) (q : Fin 8)
    (c : Fin 4 × Fin 4) :
    (pass slot b)[slot q (wordIndex c)] = cellRound (fun c => b[slot q (wordIndex c)]) c := by
  have hpass := foldl_scatter hinj
    (fun u k => (blake2RoundNomsg (Vector.ofFn u))[k]) b q (wordIndex c)
  have hround := congrFun (blake2RoundNomsg_cells (Vector.ofFn (gather (slot q) b))) c
  have hcells : roundCells (Vector.ofFn (gather (slot q) b)) =
      fun c => b[slot q (wordIndex c)] := by
    funext c
    exact Vector.getElem_ofFn _
  rw [hcells] at hround
  exact hpass.trans hround

theorem columnSlot_inj : ∀ i j k l, columnSlot i k = columnSlot j l → i = j ∧ k = l := by
  intro i j k l h
  have hv := congrArg Fin.val h
  unfold columnSlot at hv
  dsimp only at hv
  exact ⟨Fin.ext (by omega), Fin.ext (by omega)⟩

theorem rowSlot_inj : ∀ i j k l, rowSlot i k = rowSlot j l → i = j ∧ k = l := by
  intro i j k l h
  have hv := congrArg Fin.val h
  unfold rowSlot at hv
  dsimp only at hv
  exact ⟨Fin.ext (by omega), Fin.ext (by omega)⟩

end Passes

end Argon2Rust.RoundCells
