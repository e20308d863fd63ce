import Argon2Rust.CheckedArithmetic
import Argon2Rust.ReferenceWindow

set_option autoImplicit false

namespace Argon2Rust.NoWrap
open Parameters IndexAlpha Segment ReferenceWindow CheckedArithmetic

/-- From here on the definitions of `IndexAlpha` and `Segment` once more, where an operation that
would wrap, and a cast that would lose bits, has no result. -/
def checkedAreaSize (inst : Instance) (pos : Position) (sameLane : Bool) : Option UInt32 :=
  if pos.pass = 0 then
    if pos.slice = 0 then sub32 pos.index 1
    else if sameLane then do
      let base ← mul32 pos.slice inst.segmentLength
      let sum ← add32 base pos.index
      sub32 sum 1
    else do
      let base ← mul32 pos.slice inst.segmentLength
      sub32 base (if pos.index = 0 then 1 else 0)
  else if sameLane then do
    let base ← sub32 inst.laneLength inst.segmentLength
    let sum ← add32 base pos.index
    sub32 sum 1
  else do
    let base ← sub32 inst.laneLength inst.segmentLength
    sub32 base (if pos.index = 0 then 1 else 0)

def checkedRelativePosition (areaSize pseudoRand : UInt32) : Option UInt64 := do
  let square ← mul64 pseudoRand.toUInt64 pseudoRand.toUInt64
  let last ← sub32 areaSize 1
  let product ← mul64 areaSize.toUInt64 (square >>> 32)
  sub64 last.toUInt64 (product >>> 32)

def checkedStartPosition (inst : Instance) (pos : Position) : Option UInt32 :=
  if pos.pass = 0 then some 0
  else if pos.slice = syncPoints - 1 then some 0
  else do
    let next ← add32 pos.slice 1
    mul32 next inst.segmentLength

def checkedIndexAlpha (inst : Instance) (pos : Position) (pseudoRand : UInt32) (sameLane : Bool) :
    Option UInt32 :=
  if inst.laneLength = 0 then some 0
  else do
    let areaSize ← checkedAreaSize inst pos sameLane
    let relative ← checkedRelativePosition areaSize pseudoRand
    let start ← checkedStartPosition inst pos
    let sum ← add64 start.toUInt64 relative
    narrow (sum % inst.laneLength.toUInt64)

def checkedRefOffset (inst : Instance) (pos : Position) (i : UInt32) (pseudoRand : UInt64) :
    Option UInt32 := do
  let drawn ← narrow ((pseudoRand >>> 32) % inst.lanes.toUInt64)
  let lane := if pos.pass = 0 ∧ pos.slice = 0 then pos.lane else drawn
  let low ← narrow (pseudoRand &&& 0xFFFFFFFF)
  let refIndex ← checkedIndexAlpha inst { pos with index := i } low (lane = pos.lane)
  let base ← mul64 inst.laneLength.toUInt64 lane.toUInt64
  let sum ← add64 base refIndex.toUInt64
  narrow sum

def checkedStart (inst : Instance) (pos : Position) : Option Cursor := do
  let lane ← mul32 pos.lane inst.laneLength
  let slice ← mul32 pos.slice inst.segmentLength
  let sum ← add32 lane slice
  let curr ← add32 sum (startingIndex pos)
  if curr % inst.laneLength = 0 then do
    let wrapped ← add32 curr inst.laneLength
    let prev ← sub32 wrapped 1
    some ⟨startingIndex pos, curr, prev⟩
  else do
    let prev ← sub32 curr 1
    some ⟨startingIndex pos, curr, prev⟩

def checkedRotate (inst : Instance) (c : Cursor) : Option Cursor :=
  if c.currOffset % inst.laneLength = 1 then do
    let prev ← sub32 c.currOffset 1
    some { c with prevOffset := prev }
  else some c

def checkedNext (c : Cursor) : Option Cursor := do
  let i ← add32 c.i 1
  let curr ← add32 c.currOffset 1
  let prev ← add32 c.prevOffset 1
  some ⟨i, curr, prev⟩

def checkedCursorAt (inst : Instance) (pos : Position) : ℕ → Option Cursor
  | 0 => checkedStart inst pos
  | n + 1 => do
    let c ← checkedCursorAt inst pos n
    let c ← checkedRotate inst c
    checkedNext c

def checkedAccessAt (inst : Instance) (pos : Position) (n : ℕ) (pseudoRand : UInt64) :
    Option Access := do
  let c ← checkedCursorAt inst pos n
  let c ← checkedRotate inst c
  let refOffset ← checkedRefOffset inst pos c.i pseudoRand
  some ⟨c.prevOffset, refOffset, c.currOffset⟩

theorem checkedRelativePosition_eq (areaSize pseudoRand : UInt32) (h : 0 < areaSize.toNat) :
    checkedRelativePosition areaSize pseudoRand = some (relativePosition areaSize pseudoRand) := by
  have ha := areaSize.toNat_lt
  have hp := pseudoRand.toNat_lt
  have hsq : pseudoRand.toNat * pseudoRand.toNat ≤ (2 ^ 32 - 1) * (2 ^ 32 - 1) :=
    Nat.mul_le_mul (by omega) (by omega)
  have hrel : ((pseudoRand.toUInt64 * pseudoRand.toUInt64) >>> 32).toNat =
      pseudoRand.toNat * pseudoRand.toNat / 2 ^ 32 := by
    rw [shiftRight32_toNat, UInt64.toNat_mul, UInt32.toNat_toUInt64, Nat.mod_eq_of_lt (by omega)]
  have hm : areaSize.toNat * (pseudoRand.toNat * pseudoRand.toNat / 2 ^ 32) ≤
      areaSize.toNat * (2 ^ 32 - 2) := Nat.mul_le_mul_left _ (by omega)
  have hprod : ((areaSize.toUInt64 * ((pseudoRand.toUInt64 * pseudoRand.toUInt64) >>> 32)) >>>
      32).toNat = areaSize.toNat * (pseudoRand.toNat * pseudoRand.toNat / 2 ^ 32) / 2 ^ 32 := by
    rw [shiftRight32_toNat, UInt64.toNat_mul, hrel, UInt32.toNat_toUInt64,
      Nat.mod_eq_of_lt (by omega)]
  unfold checkedRelativePosition relativePosition
  rw [mul64_eq (by rw [UInt32.toNat_toUInt64]; omega)]
  simp only [Option.bind_eq_bind, Option.bind_some]
  rw [sub32_eq (show (1 : UInt32).toNat ≤ areaSize.toNat from h), Option.bind_some,
    mul64_eq (by rw [hrel, UInt32.toNat_toUInt64]; omega), Option.bind_some, sub64_eq]
  rw [hprod, UInt32.toNat_toUInt64, toNat_sub32 (show (1 : UInt32).toNat ≤ areaSize.toNat from h)]
  simp only [UInt32.reduceToNat]
  omega

section Index
variable {inst : Instance} {pos : Position} (wf : WellFormed inst) (hr : InRange inst pos)
include wf hr

theorem checkedAreaSize_eq (same : Bool) (hs : pos.pass = 0 → pos.slice = 0 → same = true) :
    checkedAreaSize inst pos same = some (referenceAreaSize inst pos same) := by
  have hmul := slice_mul_toNat wf hr
  have hfit := segments_fit wf
  have hm := inst.memoryBlocks.toNat_lt
  have hseg := wf.segment_ge
  have hlane := wf.lane_eq
  have hslice := hr.slice_lt
  have hindex := hr.index_lt
  have hle : pos.slice.toNat * inst.segmentLength.toNat ≤ 3 * inst.segmentLength.toNat :=
    Nat.mul_le_mul_right _ (by omega)
  have hone : ((if pos.index = 0 then 1 else 0 : UInt32)).toNat ≤ 1 := by
    split_ifs <;> decide
  have h1 : (1 : UInt32).toNat = 1 := rfl
  unfold checkedAreaSize referenceAreaSize
  simp only [Option.bind_eq_bind]
  by_cases hp : pos.pass = 0
  · rw [if_pos hp, if_pos hp]
    by_cases h0 : pos.slice = 0
    · have hi := hr.index_ge hp h0
      rw [if_pos h0, if_pos h0, sub32_eq (by omega)]
    · have hpos : 0 < pos.slice.toNat :=
        Nat.pos_of_ne_zero fun h => h0 (UInt32.toNat_inj.mp h)
      have hge := Nat.le_mul_of_pos_left inst.segmentLength.toNat hpos
      rw [if_neg h0, if_neg h0, mul32_eq (by omega)]
      simp only [Option.bind_some]
      cases same with
      | true =>
        have hadd : (pos.slice * inst.segmentLength).toNat + pos.index.toNat < 2 ^ 32 := by omega
        rw [if_pos rfl, if_pos rfl, add32_eq hadd, Option.bind_some,
          sub32_eq (by rw [toNat_add32 hadd]; omega)]
      | false => rw [if_neg Bool.false_ne_true, if_neg Bool.false_ne_true, sub32_eq (by omega)]
  · have hsub : inst.segmentLength.toNat ≤ inst.laneLength.toNat := by omega
    have hbase := toNat_sub32 hsub
    rw [if_neg hp, if_neg hp, sub32_eq hsub]
    simp only [Option.bind_some]
    cases same with
    | true =>
      have hadd : (inst.laneLength - inst.segmentLength).toNat + pos.index.toNat < 2 ^ 32 := by
        omega
      rw [if_pos rfl, if_pos rfl, add32_eq hadd, Option.bind_some,
        sub32_eq (by rw [toNat_add32 hadd]; omega)]
    | false => rw [if_neg Bool.false_ne_true, if_neg Bool.false_ne_true, sub32_eq (by omega)]

theorem checkedStartPosition_eq :
    checkedStartPosition inst pos = some (startPosition inst pos) := by
  have hfit := segments_fit wf
  have hm := inst.memoryBlocks.toNat_lt
  have hslice := hr.slice_lt
  unfold checkedStartPosition startPosition
  simp only [Option.bind_eq_bind]
  by_cases hp : pos.pass = 0
  · rw [if_pos hp, if_pos hp]
  · rw [if_neg hp, if_neg hp]
    by_cases h3 : pos.slice = syncPoints - 1
    · rw [if_pos h3, if_pos h3]
    · have hadd : pos.slice.toNat + (1 : UInt32).toNat < 2 ^ 32 := by
        simp only [UInt32.reduceToNat]
        omega
      have hnext : (pos.slice + 1).toNat = pos.slice.toNat + 1 := toNat_add32 hadd
      have hne : pos.slice.toNat ≠ 3 := fun h => h3 (UInt32.toNat_inj.mp h)
      have hle : (pos.slice.toNat + 1) * inst.segmentLength.toNat ≤
          3 * inst.segmentLength.toNat := Nat.mul_le_mul_right _ (by omega)
      rw [if_neg h3, if_neg h3, add32_eq hadd, Option.bind_some, mul32_eq (by rw [hnext]; omega)]

theorem checkedIndexAlpha_eq (pseudoRand : UInt32) (same : Bool)
    (hs : pos.pass = 0 → pos.slice = 0 → same = true) :
    checkedIndexAlpha inst pos pseudoRand same = some (indexAlpha inst pos pseudoRand same) := by
  have harea := referenceAreaSize_toNat wf hr same hs
  have hpos := area_pos wf hr same hs
  have hrel := relativePosition_toNat (referenceAreaSize inst pos same) pseudoRand (by omega)
  have hlt := relative_lt (referenceAreaSize inst pos same).toNat pseudoRand.toNat (by omega)
  have hbound := (referenceAreaSize inst pos same).toNat_lt
  have hstart := (startPosition inst pos).toNat_lt
  have hL := inst.laneLength.toNat_lt
  have hLeq := wf.lane_eq
  have hseg := wf.segment_ge
  have hn : ¬ inst.laneLength = 0 := by
    intro h
    rw [h] at hLeq
    simp only [UInt32.reduceToNat] at hLeq
    omega
  have hmod : (((startPosition inst pos).toUInt64 +
      relativePosition (referenceAreaSize inst pos same) pseudoRand) %
        inst.laneLength.toUInt64).toNat < 2 ^ 32 := by
    rw [UInt64.toNat_mod, UInt32.toNat_toUInt64]
    exact (Nat.mod_lt _ (by omega)).trans hL
  unfold checkedIndexAlpha indexAlpha
  rw [if_neg hn, if_neg hn, checkedAreaSize_eq wf hr same hs]
  simp only [Option.bind_eq_bind, Option.bind_some]
  rw [checkedRelativePosition_eq _ _ (by omega), Option.bind_some,
    checkedStartPosition_eq wf hr, Option.bind_some,
    add64_eq (by rw [hrel, UInt32.toNat_toUInt64]; omega), Option.bind_some, narrow_eq hmod]

end Index

section Iteration
variable {inst : Instance} {pos : Position} (wf : WellFormed inst) (hs : InSlice inst pos)
include wf hs

theorem checkedRefOffset_eq (i : UInt32) (hi : i.toNat < inst.segmentLength.toNat)
    (hstart : (startingIndex pos).toNat ≤ i.toNat) (pseudoRand : UInt64) :
    checkedRefOffset inst pos i pseudoRand = some (refOffset inst pos i pseudoRand) := by
  have hr := inRange_index hs i hi hstart
  have hidx := checkedIndexAlpha_eq wf hr (pseudoRand &&& 0xFFFFFFFF).toUInt32
    (refLane inst pos pseudoRand = pos.lane) (refLane_first inst pos pseudoRand)
  have hlane := lane_fits wf _ (refLane_lt wf hs pseudoRand)
  have hcol := @refColumn_lt inst pos wf i.toNat pseudoRand
  have hnat := indexAlpha_toNat wf hr (pseudoRand &&& 0xFFFFFFFF).toUInt32
    (refLane inst pos pseudoRand = pos.lane) (refLane_first inst pos pseudoRand)
  rw [low32_toNat] at hnat
  change _ = refColumn inst pos i.toNat pseudoRand at hnat
  have hm := inst.memoryBlocks.toNat_lt
  have hlanes := inst.lanes.toNat_lt
  have hlpos := wf.lanes_pos
  have hdrawn : ((pseudoRand >>> 32) % inst.lanes.toUInt64).toNat < 2 ^ 32 := by
    rw [UInt64.toNat_mod, UInt32.toNat_toUInt64]
    exact (Nat.mod_lt _ hlpos).trans hlanes
  have hlow : (pseudoRand &&& 0xFFFFFFFF).toNat < 2 ^ 32 := by
    rw [UInt64.toNat_and]
    exact Nat.and_lt_two_pow _ (by decide)
  have hmulLt : inst.laneLength.toUInt64.toNat * (refLane inst pos pseudoRand).toUInt64.toNat <
      2 ^ 64 := by
    rw [UInt32.toNat_toUInt64, UInt32.toNat_toUInt64, Nat.mul_comm]
    omega
  have hmul := toNat_mul64 hmulLt
  rw [UInt32.toNat_toUInt64, UInt32.toNat_toUInt64, Nat.mul_comm] at hmul
  have hlaneDef : (if pos.pass = 0 ∧ pos.slice = 0 then pos.lane
      else ((pseudoRand >>> 32) % inst.lanes.toUInt64).toUInt32) = refLane inst pos pseudoRand := rfl
  unfold checkedRefOffset refOffset
  rw [narrow_eq hdrawn]
  simp only [Option.bind_eq_bind, Option.bind_some, hlaneDef]
  rw [narrow_eq hlow, Option.bind_some, hidx, Option.bind_some, mul64_eq hmulLt, Option.bind_some]
  have haddLt : (inst.laneLength.toUInt64 * (refLane inst pos pseudoRand).toUInt64).toNat +
      (indexAlpha inst { pos with index := i } (pseudoRand &&& 0xFFFFFFFF).toUInt32
        (refLane inst pos pseudoRand = pos.lane)).toUInt64.toNat < 2 ^ 32 := by
    rw [hmul, UInt32.toNat_toUInt64, hnat]
    omega
  rw [add64_eq (by omega), Option.bind_some, narrow_eq (by rw [toNat_add64 (by omega)]; omega)]

theorem checkedStart_eq : checkedStart inst pos = some (Cursor.start inst pos) := by
  have hcurr := start_currOffset wf hs
  have hlane := lane_fits wf _ hs.lane_lt
  have hslice := slice_le wf hs
  have hidx := @startingIndex_le inst pos wf
  have hm := inst.memoryBlocks.toNat_lt
  have hok := cursorOk_start wf hs
  have hseg := wf.segment_ge
  have hL := wf.lane_eq
  have hmulLt : pos.lane.toNat * inst.laneLength.toNat < 2 ^ 32 := by omega
  have hmulLt' : pos.slice.toNat * inst.segmentLength.toNat < 2 ^ 32 := by omega
  have hmul := toNat_mul32 hmulLt
  have hmul' := toNat_mul32 hmulLt'
  have haddLt : (pos.lane * inst.laneLength).toNat + (pos.slice * inst.segmentLength).toNat <
      2 ^ 32 := by omega
  have hadd := toNat_add32 haddLt
  have h1 : (1 : UInt32).toNat = 1 := rfl
  unfold checkedStart
  simp only [Option.bind_eq_bind]
  rw [mul32_eq hmulLt, Option.bind_some, mul32_eq hmulLt', Option.bind_some, add32_eq haddLt,
    Option.bind_some, add32_eq (by omega), Option.bind_some]
  change (if (Cursor.start inst pos).currOffset % inst.laneLength = 0 then
      (add32 (Cursor.start inst pos).currOffset inst.laneLength).bind _ else
      (sub32 (Cursor.start inst pos).currOffset 1).bind _) = _
  unfold blockOffset at hcurr
  by_cases h0 : (Cursor.start inst pos).currOffset % inst.laneLength = 0
  · have hcol : pos.slice.toNat * inst.segmentLength.toNat + (startingIndex pos).toNat = 0 := by
      have hz := congrArg UInt32.toNat h0
      rw [UInt32.toNat_mod, hcurr, Nat.add_assoc, Nat.mul_add_mod_self_right] at hz
      by_contra hne
      have hst := startingIndex_toNat pos
      have hlt : pos.slice.toNat * inst.segmentLength.toNat + (startingIndex pos).toNat <
          inst.laneLength.toNat := by
        split_ifs at hst with hp
        · have hs0 := congrArg UInt32.toNat hp.2
          simp only [UInt32.reduceToNat] at hs0
          rw [hs0]
          omega
        · omega
      rw [Nat.mod_eq_of_lt hlt] at hz
      exact hne hz
    have hwrap : (Cursor.start inst pos).currOffset.toNat + inst.laneLength.toNat < 2 ^ 32 := by
      omega
    rw [if_pos h0, add32_eq hwrap, Option.bind_some, sub32_eq (by rw [toNat_add32 hwrap]; omega),
      Option.bind_some]
    unfold Cursor.start at h0 ⊢
    dsimp only at h0 ⊢
    rw [if_pos h0]
  · have hcol : 1 ≤ (Cursor.start inst pos).currOffset.toNat := by
      refine Nat.pos_of_ne_zero fun hz => h0 ?_
      rw [← UInt32.toNat_inj, UInt32.toNat_mod, hz, Nat.zero_mod]
      rfl
    rw [if_neg h0, sub32_eq (by omega), Option.bind_some]
    unfold Cursor.start at h0 ⊢
    dsimp only at h0 ⊢
    rw [if_neg h0]

theorem checkedRotate_eq {i : ℕ} {c : Cursor} (h : CursorOk inst pos i c)
    (hi : i < inst.segmentLength.toNat) : checkedRotate inst c = some (c.rotate inst) := by
  have hslice := slice_le wf hs
  have hmod := blockOffset_mod_eq _ 1 _ h.curr (by omega)
  have hcurr := h.curr
  unfold checkedRotate Cursor.rotate
  unfold blockOffset at hcurr
  by_cases h1 : c.currOffset % inst.laneLength = 1
  · have hcol := hmod.mp h1
    simp only [UInt32.reduceToNat] at hcol
    rw [if_pos h1, if_pos h1, sub32_eq (by simp only [UInt32.reduceToNat]; omega)]
    rfl
  · rw [if_neg h1, if_neg h1]

theorem checkedNext_eq {i : ℕ} {c : Cursor} (h : CursorOk inst pos i c)
    (hi : i < inst.segmentLength.toNat) :
    checkedNext (c.rotate inst) = some (c.rotate inst).next := by
  obtain ⟨hidx, hcurr, hprev⟩ := h.rotate wf hs hi
  have hslice := slice_le wf hs
  have hlane := lane_fits wf _ hs.lane_lt
  have hm := inst.memoryBlocks.toNat_lt
  have h1 : (1 : UInt32).toNat = 1 := rfl
  have hle : prevBlockOffset inst pos i + 1 ≤ inst.memoryBlocks.toNat := by
    obtain ⟨z, hz, hpz, -⟩ := prevBlockOffset_column wf hs i hi
    omega
  unfold blockOffset at hcurr
  unfold checkedNext
  simp only [Option.bind_eq_bind]
  rw [add32_eq (by omega), Option.bind_some, add32_eq (by omega), Option.bind_some,
    add32_eq (by omega), Option.bind_some]
  rfl

theorem checkedCursorAt_eq (n : ℕ) (hn : n ≤ segmentBlocks inst pos) :
    checkedCursorAt inst pos n = some (Cursor.at inst pos n) := by
  induction n with
  | zero => exact checkedStart_eq wf hs
  | succ n ih =>
    have hok := cursorOk_at wf hs n (by omega)
    have hi : (startingIndex pos).toNat + n < inst.segmentLength.toNat := by
      unfold segmentBlocks at hn
      omega
    rw [checkedCursorAt, ih (by omega)]
    simp only [Option.bind_eq_bind, Option.bind_some]
    rw [checkedRotate_eq wf hs hok hi, Option.bind_some, checkedNext_eq wf hs hok hi,
      Cursor.at_succ]

theorem checkedAccessAt_eq (n : ℕ) (hn : n < segmentBlocks inst pos) (pseudoRand : UInt64) :
    checkedAccessAt inst pos n pseudoRand = some (accessAt inst pos n pseudoRand) := by
  have hok := cursorOk_at wf hs n (by omega)
  have hi : (startingIndex pos).toNat + n < inst.segmentLength.toNat := by
    unfold segmentBlocks at hn
    omega
  have hidx := (hok.rotate wf hs hi).1
  unfold checkedAccessAt
  rw [checkedCursorAt_eq wf hs n (by omega)]
  simp only [Option.bind_eq_bind, Option.bind_some]
  rw [checkedRotate_eq wf hs hok hi, Option.bind_some,
    checkedRefOffset_eq wf hs _ (by omega) (by omega), Option.bind_some]
  rfl

theorem accessAt_area (n : ℕ) (hn : n < segmentBlocks inst pos) (pseudoRand : UInt64) :
    1 ≤ (referenceAreaSize inst
      { pos with index := ((Cursor.at inst pos n).rotate inst).i }
      (refLane inst pos pseudoRand = pos.lane)).toNat := by
  have hi : (startingIndex pos).toNat + n < inst.segmentLength.toNat := by
    unfold segmentBlocks at hn
    omega
  have hidx := ((cursorOk_at wf hs n (by omega)).rotate wf hs hi).1
  have hr := inRange_index hs ((Cursor.at inst pos n).rotate inst).i (by omega) (by omega)
  rw [referenceAreaSize_toNat wf hr _ (refLane_first inst pos pseudoRand)]
  exact area_pos wf hr _ (refLane_first inst pos pseudoRand)

end Iteration

/-- Index safety of `fill_segment`: iteration `n` of any segment, for any
pseudo-random value, computes its offsets without wrapping, from a nonempty
reference area, and they satisfy `AccessOk`. The loop makes exactly these
accesses, at the values it draws. -/
theorem fillSegment_accesses_safe {w : PointerWidth} (algorithm : Algorithm) (version : Version)
    (p : Params w) (pos : Position) (hs : InSlice (Instance.new algorithm version p) pos) (n : ℕ)
    (hn : n < segmentBlocks (Instance.new algorithm version p) pos) (pseudoRand : UInt64) :
    checkedAccessAt (Instance.new algorithm version p) pos n pseudoRand =
        some (accessAt (Instance.new algorithm version p) pos n pseudoRand) ∧
      checkedCursorAt (Instance.new algorithm version p) pos (n + 1) =
        some (Cursor.at (Instance.new algorithm version p) pos (n + 1)) ∧
      1 ≤ (referenceAreaSize (Instance.new algorithm version p)
        { pos with
          index := ((Cursor.at (Instance.new algorithm version p) pos n).rotate
            (Instance.new algorithm version p)).i }
        (refLane (Instance.new algorithm version p) pos pseudoRand = pos.lane)).toNat ∧
      AccessOk (Instance.new algorithm version p) pos ((startingIndex pos).toNat + n)
        (accessAt (Instance.new algorithm version p) pos n pseudoRand) ∧
      ∀ arena : Arena,
        let x := (blockStep (Instance.new algorithm version p) pos)^[n]
          (segmentStart (Instance.new algorithm version p) pos, arena)
        access (Instance.new algorithm version p) pos x.1 x.2 =
          accessAt (Instance.new algorithm version p) pos n
            (draw (Instance.new algorithm version p) pos x.1 x.2).1 := by
  have wf := new_wellFormed algorithm version p
  refine ⟨checkedAccessAt_eq wf hs n hn pseudoRand, checkedCursorAt_eq wf hs (n + 1) (by omega),
    accessAt_area wf hs n hn pseudoRand, accessAt_ok wf hs n hn pseudoRand, ?_⟩
  intro arena
  exact access_eq_accessAt _ _ _ _ n (iterate_cursor _ _ arena n (by omega) wf hs)

theorem fillSegment_accesses_safe_least :
    AccessOk (Instance.new .argon2i .v0x13 Params.least) ⟨0, 0, 1, 0⟩ 0
      (accessAt (Instance.new .argon2i .v0x13 Params.least) ⟨0, 0, 1, 0⟩ 0 5) :=
  (fillSegment_accesses_safe .argon2i .v0x13 Params.least ⟨0, 0, 1, 0⟩ ⟨by decide, by decide⟩ 0
    (by decide) 5).2.2.2.1

end Argon2Rust.NoWrap
