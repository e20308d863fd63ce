import Argon2Rust.Parameters

set_option autoImplicit false

namespace Argon2Rust.IndexAlpha
open Parameters

structure Position where
  pass : UInt32
  lane : UInt32
  slice : UInt32
  index : UInt32
  deriving DecidableEq, Repr

structure Instance where
  version : Version
  passes : UInt32
  memoryBlocks : UInt32
  segmentLength : UInt32
  laneLength : UInt32
  lanes : UInt32
  threads : UInt32
  algorithm : Algorithm
  deriving DecidableEq, Repr

def Instance.new {w : PointerWidth} (algorithm : Algorithm) (version : Version) (p : Params w) :
    Instance where
  version := version
  passes := p.passes
  memoryBlocks := p.memoryLayout.1
  segmentLength := p.memoryLayout.2.1
  laneLength := p.memoryLayout.2.2
  lanes := p.lanes
  threads := p.effectiveThreads
  algorithm := algorithm

def referenceAreaSize (inst : Instance) (pos : Position) (sameLane : Bool) : UInt32 :=
  if pos.pass = 0 then
    if pos.slice = 0 then pos.index - 1
    else if sameLane then pos.slice * inst.segmentLength + pos.index - 1
    else pos.slice * inst.segmentLength - (if pos.index = 0 then 1 else 0)
  else if sameLane then inst.laneLength - inst.segmentLength + pos.index - 1
  else inst.laneLength - inst.segmentLength - (if pos.index = 0 then 1 else 0)

def relativePosition (areaSize pseudoRand : UInt32) : UInt64 :=
  let relative := pseudoRand.toUInt64
  let relative := (relative * relative) >>> 32
  (areaSize - 1).toUInt64 - ((areaSize.toUInt64 * relative) >>> 32)

def startPosition (inst : Instance) (pos : Position) : UInt32 :=
  if pos.pass = 0 then 0
  else if pos.slice = syncPoints - 1 then 0
  else (pos.slice + 1) * inst.segmentLength

def indexAlpha (inst : Instance) (pos : Position) (pseudoRand : UInt32) (sameLane : Bool) :
    UInt32 :=
  if inst.laneLength = 0 then 0
  else
    (((startPosition inst pos).toUInt64 +
        relativePosition (referenceAreaSize inst pos sameLane) pseudoRand) %
      inst.laneLength.toUInt64).toUInt32

/-- What `Instance::new` makes of validated parameters. -/
structure WellFormed (inst : Instance) : Prop where
  segment_ge : 2 ≤ inst.segmentLength.toNat
  lane_eq : inst.laneLength.toNat = 4 * inst.segmentLength.toNat
  blocks_eq : inst.memoryBlocks.toNat = inst.lanes.toNat * inst.laneLength.toNat
  lanes_pos : 0 < inst.lanes.toNat

theorem new_wellFormed {w : PointerWidth} (algorithm : Algorithm) (version : Version)
    (p : Params w) : WellFormed (Instance.new algorithm version p) where
  segment_ge := p.two_le_segmentLength
  lane_eq := p.laneLength_toNat
  blocks_eq := by
    change p.memoryBlocks.toNat = p.lanes.toNat * p.laneLength.toNat
    rw [p.memoryBlocks_toNat, p.laneLength_toNat]
    ring
  lanes_pos := p.costs.lanes_ge

/-- The early return of `fill_segment` is for instances that are not well formed. -/
theorem WellFormed.not_degenerate {inst : Instance} (wf : WellFormed inst) :
    ¬ (inst.laneLength = 0 ∨ inst.lanes = 0) := by
  have hL := wf.lane_eq
  have hseg := wf.segment_ge
  rintro (h | h)
  · rw [h] at hL
    simp only [UInt32.reduceToNat] at hL
    omega
  · have hpos := wf.lanes_pos
    rw [h] at hpos
    exact Nat.lt_irrefl 0 hpos

/-- A position the fill visits: the first two blocks of a lane are never visited in pass 0. -/
structure InRange (inst : Instance) (pos : Position) : Prop where
  lane_lt : pos.lane.toNat < inst.lanes.toNat
  slice_lt : pos.slice.toNat < 4
  index_lt : pos.index.toNat < inst.segmentLength.toNat
  index_ge : pos.pass = 0 → pos.slice = 0 → 2 ≤ pos.index.toNat

def area (S pass slice index : ℕ) (same : Bool) : ℕ :=
  (if pass = 0 then slice * S else 3 * S) + (if same then index else 0) -
    (if same ∨ index = 0 then 1 else 0)

def start (S pass slice : ℕ) : ℕ :=
  if pass = 0 ∨ slice = 3 then 0 else (slice + 1) * S

def relative (n r : ℕ) : ℕ := n - 1 - n * (r * r / 2 ^ 32) / 2 ^ 32

def column (S pass slice index r : ℕ) (same : Bool) : ℕ :=
  (start S pass slice + relative (area S pass slice index same) r) % (4 * S)

theorem relative_lt (n r : ℕ) (hn : 0 < n) : relative n r < n := by
  unfold relative
  omega

section Bounds
variable {inst : Instance} {pos : Position} (wf : WellFormed inst) (hr : InRange inst pos)
include wf

theorem lane_fits (l : ℕ) (hl : l < inst.lanes.toNat) :
    l * inst.laneLength.toNat + inst.laneLength.toNat ≤ inst.memoryBlocks.toNat := by
  rw [wf.blocks_eq, ← Nat.succ_mul]
  exact Nat.mul_le_mul_right _ hl

theorem segments_fit : 4 * inst.segmentLength.toNat ≤ inst.memoryBlocks.toNat := by
  have h := lane_fits wf 0 wf.lanes_pos
  have hL := wf.lane_eq
  omega

include hr

theorem slice_mul_toNat :
    (pos.slice * inst.segmentLength).toNat = pos.slice.toNat * inst.segmentLength.toNat := by
  have h := segments_fit wf
  have hm := inst.memoryBlocks.toNat_lt
  have hs : pos.slice.toNat * inst.segmentLength.toNat ≤ 3 * inst.segmentLength.toNat :=
    Nat.mul_le_mul_right _ (by have := hr.slice_lt; omega)
  rw [UInt32.toNat_mul, Nat.mod_eq_of_lt (by omega)]

theorem referenceAreaSize_toNat (same : Bool)
    (hs : pos.pass = 0 → pos.slice = 0 → same = true) :
    (referenceAreaSize inst pos same).toNat =
      area inst.segmentLength.toNat pos.pass.toNat pos.slice.toNat pos.index.toNat same := by
  have hmul := slice_mul_toNat wf hr
  have hfit := segments_fit wf
  have hm := inst.memoryBlocks.toNat_lt
  have hseg := wf.segment_ge
  have hlane := wf.lane_eq
  have hslice := hr.slice_lt
  have hindex := hr.index_lt
  have hpass := zero_iff_toNat pos.pass
  have hz := zero_iff_toNat pos.index
  have hsz := zero_iff_toNat pos.slice
  have hle : pos.slice.toNat * inst.segmentLength.toNat ≤ 3 * inst.segmentLength.toNat :=
    Nat.mul_le_mul_right _ (by omega)
  unfold referenceAreaSize area
  by_cases hp : pos.pass = 0
  · have hp' := hpass.mp hp
    rw [if_pos hp, if_pos hp']
    by_cases h0 : pos.slice = 0
    · have hi := hr.index_ge hp h0
      have h0' := hsz.mp h0
      rw [if_pos h0, hs hp h0, h0', UInt32.toNat_sub]
      simp only [UInt32.reduceToNat, if_true, true_or]
      omega
    · have hpos : 0 < pos.slice.toNat := Nat.pos_of_ne_zero fun h => h0 (hsz.mpr h)
      have hge : inst.segmentLength.toNat ≤ pos.slice.toNat * inst.segmentLength.toNat :=
        Nat.le_mul_of_pos_left _ hpos
      rw [if_neg h0]
      cases same with
      | true =>
        simp only [if_true, true_or, UInt32.toNat_sub, UInt32.toNat_add, hmul, UInt32.reduceToNat]
        omega
      | false =>
        simp only [Bool.false_eq_true, if_false, false_or, UInt32.toNat_sub, hmul]
        by_cases hi : pos.index = 0
        · simp only [if_pos hi, if_pos (hz.mp hi), UInt32.reduceToNat]
          omega
        · simp only [if_neg hi, if_neg (fun h => hi (hz.mpr h)), UInt32.reduceToNat]
          omega
  · have hp' : ¬ pos.pass.toNat = 0 := fun h => hp (hpass.mpr h)
    rw [if_neg hp, if_neg hp']
    cases same with
    | true =>
      simp only [if_true, true_or, UInt32.toNat_sub, UInt32.toNat_add, UInt32.reduceToNat]
      omega
    | false =>
      simp only [Bool.false_eq_true, if_false, false_or, UInt32.toNat_sub]
      by_cases hi : pos.index = 0
      · simp only [if_pos hi, if_pos (hz.mp hi), UInt32.reduceToNat]
        omega
      · simp only [if_neg hi, if_neg (fun h => hi (hz.mpr h)), UInt32.reduceToNat]
        omega

theorem startPosition_toNat :
    (startPosition inst pos).toNat =
      start inst.segmentLength.toNat pos.pass.toNat pos.slice.toNat := by
  have hfit := segments_fit wf
  have hm := inst.memoryBlocks.toNat_lt
  have hslice := hr.slice_lt
  have hpass := zero_iff_toNat pos.pass
  have hlast : pos.slice = syncPoints - 1 ↔ pos.slice.toNat = 3 := by
    rw [← UInt32.toNat_inj]; rfl
  unfold startPosition start
  by_cases hp : pos.pass = 0
  · rw [if_pos hp, if_pos (Or.inl (hpass.mp hp))]
    rfl
  · rw [if_neg hp]
    by_cases h3 : pos.slice = syncPoints - 1
    · rw [if_pos h3, if_pos (Or.inr (hlast.mp h3))]
      rfl
    · have hn : ¬ (pos.pass.toNat = 0 ∨ pos.slice.toNat = 3) := by
        rintro (h | h)
        · exact hp (hpass.mpr h)
        · exact h3 (hlast.mpr h)
      have h1 : (pos.slice + 1).toNat = pos.slice.toNat + 1 := by
        rw [UInt32.toNat_add]
        simp only [UInt32.reduceToNat]
        omega
      have hle : (pos.slice.toNat + 1) * inst.segmentLength.toNat ≤ 3 * inst.segmentLength.toNat :=
        Nat.mul_le_mul_right _ (by omega)
      rw [if_neg h3, if_neg hn, UInt32.toNat_mul, h1, Nat.mod_eq_of_lt (by omega)]

end Bounds

theorem shiftRight32_toNat (x : UInt64) : (x >>> 32).toNat = x.toNat / 2 ^ 32 := by
  simp only [UInt64.toNat_shiftRight, UInt64.reduceToNat, Nat.reduceMod, Nat.shiftRight_eq_div_pow]

/-- The mapping of `pseudo_rand` to `0 .. area`: no product and no difference wraps. -/
theorem relativePosition_toNat (areaSize pseudoRand : UInt32) (h : 0 < areaSize.toNat) :
    (relativePosition areaSize pseudoRand).toNat = relative areaSize.toNat pseudoRand.toNat := by
  have ha := areaSize.toNat_lt
  have hp := pseudoRand.toNat_lt
  have hsq : pseudoRand.toNat * pseudoRand.toNat ≤ (2 ^ 32 - 1) * (2 ^ 32 - 1) :=
    Nat.mul_le_mul (by omega) (by omega)
  have hx : pseudoRand.toNat * pseudoRand.toNat / 2 ^ 32 ≤ 2 ^ 32 - 2 := by omega
  have hm : areaSize.toNat * (pseudoRand.toNat * pseudoRand.toNat / 2 ^ 32) ≤
      areaSize.toNat * (2 ^ 32 - 2) := Nat.mul_le_mul_left _ hx
  have hrel : ((pseudoRand.toUInt64 * pseudoRand.toUInt64) >>> 32).toNat =
      pseudoRand.toNat * pseudoRand.toNat / 2 ^ 32 := by
    rw [shiftRight32_toNat, UInt64.toNat_mul, UInt32.toNat_toUInt64, Nat.mod_eq_of_lt (by omega)]
  have hmul : ((areaSize.toUInt64 * ((pseudoRand.toUInt64 * pseudoRand.toUInt64) >>> 32)) >>> 32).toNat =
      areaSize.toNat * (pseudoRand.toNat * pseudoRand.toNat / 2 ^ 32) / 2 ^ 32 := by
    rw [shiftRight32_toNat, UInt64.toNat_mul, hrel, UInt32.toNat_toUInt64,
      Nat.mod_eq_of_lt (by omega)]
  have hsub : (areaSize - 1).toUInt64.toNat = areaSize.toNat - 1 := by
    rw [UInt32.toNat_toUInt64, UInt32.toNat_sub]
    simp only [UInt32.reduceToNat]
    omega
  unfold relativePosition relative
  dsimp only
  rw [UInt64.toNat_sub, hmul, hsub]
  omega

theorem area_pos {inst : Instance} {pos : Position} (wf : WellFormed inst) (hr : InRange inst pos)
    (same : Bool) (hs : pos.pass = 0 → pos.slice = 0 → same = true) :
    0 < area inst.segmentLength.toNat pos.pass.toNat pos.slice.toNat pos.index.toNat same := by
  have hseg := wf.segment_ge
  have hpass := zero_iff_toNat pos.pass
  have hsz := zero_iff_toNat pos.slice
  unfold area
  by_cases hp : pos.pass.toNat = 0
  · rw [if_pos hp]
    by_cases h0 : pos.slice.toNat = 0
    · have hi := hr.index_ge (hpass.mpr hp) (hsz.mpr h0)
      rw [hs (hpass.mpr hp) (hsz.mpr h0), h0]
      simp only [if_true, true_or]
      omega
    · have hge : inst.segmentLength.toNat ≤ pos.slice.toNat * inst.segmentLength.toNat :=
        Nat.le_mul_of_pos_left _ (by omega)
      split_ifs <;> omega
  · rw [if_neg hp]
    split_ifs <;> omega

theorem indexAlpha_toNat {inst : Instance} {pos : Position} (wf : WellFormed inst)
    (hr : InRange inst pos) (pseudoRand : UInt32) (same : Bool)
    (hs : pos.pass = 0 → pos.slice = 0 → same = true) :
    (indexAlpha inst pos pseudoRand same).toNat =
      column inst.segmentLength.toNat pos.pass.toNat pos.slice.toNat pos.index.toNat
        pseudoRand.toNat same := by
  have hfit := segments_fit wf
  have hm := inst.memoryBlocks.toNat_lt
  have hL := wf.lane_eq
  have hseg := wf.segment_ge
  have hpos := area_pos wf hr same hs
  have hn : ¬ inst.laneLength = 0 := by
    intro h
    rw [h] at hL
    simp only [UInt32.reduceToNat] at hL
    omega
  have harea := referenceAreaSize_toNat wf hr same hs
  have hlt := relative_lt _ pseudoRand.toNat hpos
  have hrel := relativePosition_toNat (referenceAreaSize inst pos same) pseudoRand (by omega)
  have hstart := startPosition_toNat wf hr
  have hlt' := (referenceAreaSize inst pos same).toNat_lt
  have hst := (startPosition inst pos).toNat_lt
  unfold indexAlpha column
  rw [if_neg hn, UInt64.toNat_toUInt32, UInt64.toNat_mod, UInt64.toNat_add, UInt32.toNat_toUInt64,
    UInt32.toNat_toUInt64, hrel, harea, hstart, hL, Nat.mod_eq_of_lt (b := 2 ^ 64) (by omega)]
  have hb := Nat.mod_lt (start inst.segmentLength.toNat pos.pass.toNat pos.slice.toNat +
    relative (area inst.segmentLength.toNat pos.pass.toNat pos.slice.toNat pos.index.toNat same)
      pseudoRand.toNat) (show 0 < 4 * inst.segmentLength.toNat by omega)
  exact Nat.mod_eq_of_lt (by omega)

end Argon2Rust.IndexAlpha
