import Argon2Rust.CheckedArithmetic
import Argon2Rust.FirstFailure
import Argon2Rust.Parameters

set_option autoImplicit false

namespace Argon2Rust.ParameterChecks
open Parameters FirstFailure CheckedArithmetic

def tagChecks (outLen : ℕ) : List (Check Error) :=
  [(decide (outLen < 4), .outputTooShort), (decide (outLen > 0xFFFFFFFF), .outputTooLong)]

def inputLengthChecks (pwdLen saltLen secretLen adLen : ℕ) : List (Check Error) :=
  [(decide (pwdLen > 0xFFFFFFFF), .pwdTooLong), (decide (saltLen < 8), .saltTooShort),
    (decide (saltLen > 0xFFFFFFFF), .saltTooLong), (decide (secretLen > 0xFFFFFFFF), .secretTooLong),
    (decide (adLen > 0xFFFFFFFF), .adTooLong)]

def costChecks (w : PointerWidth) (mCost tCost lanes threads : ℕ) : List (Check Error) :=
  [(decide (mCost < 8), .memoryTooLittle), (decide (mCost > (maxMemory w).toNat), .memoryTooMuch),
    (decide (mCost < 8 * lanes % 2 ^ 32), .memoryTooLittle), (decide (tCost < 1), .timeTooSmall),
    (decide (tCost > 0xFFFFFFFF), .timeTooLarge), (decide (lanes < 1), .lanesTooFew),
    (decide (lanes > 0xFFFFFF), .lanesTooMany), (decide (threads < 1), .threadsTooFew),
    (decide (threads > 0xFFFFFF), .threadsTooMany)]

def inputChecks (w : PointerWidth) (outLen pwdLen saltLen secretLen adLen mCost tCost lanes
    threads : ℕ) : List (Check Error) :=
  tagChecks outLen ++ inputLengthChecks pwdLen saltLen secretLen adLen ++
    costChecks w mCost tCost lanes threads

/-- The checks of `build` on the values the builder holds, none of them narrowed. -/
def buildChecks (w : PointerWidth) (b : ParamsBuilder) : List (Check Error) :=
  tagChecks b.tagLen.toNat ++ costChecks w b.memory.toNat b.passes.toNat b.lanes.toNat
    (b.threads.getD b.lanes).toNat

theorem validateInputs_eq (w : PointerWidth) (outLen pwdLen saltLen secretLen adLen : ℕ)
    (mCost tCost lanes threads : UInt32) :
    validateInputs w outLen pwdLen saltLen secretLen adLen mCost tCost lanes threads =
      verdict (firstFailure (inputChecks w outLen pwdLen saltLen secretLen adLen mCost.toNat
        tCost.toNat lanes.toNat threads.toNat)) := by
  simp only [inputChecks, tagChecks, inputLengthChecks, costChecks, List.cons_append,
    List.nil_append, verdict_cons, firstFailure_nil, verdict_none]
  simp only [validateInputs, minOutlen, maxOutlen, maxPwdLength, minSaltLength, maxSaltLength,
    maxSecret, maxAdLength, minMemory, syncPoints, minTime, maxTime, minLanes, maxLanes,
    minThreads, maxThreads, gt_iff_lt, UInt32.lt_iff_toNat_lt, UInt32.toNat_mul,
    UInt32.reduceMul, UInt32.reduceToNat]

theorem inputLengthChecks_placeholder : firstFailure (inputLengthChecks 0 8 0 0) = none := by
  decide

theorem inputChecks_placeholder (w : PointerWidth) (outLen mCost tCost lanes threads : ℕ) :
    firstFailure (inputChecks w outLen 0 8 0 0 mCost tCost lanes threads) =
      (firstFailure (tagChecks outLen)).or (firstFailure (costChecks w mCost tCost lanes threads)) := by
  rw [inputChecks, firstFailure_append, firstFailure_append, inputLengthChecks_placeholder,
    Option.or_none]

section Build
variable (w : PointerWidth) (b : ParamsBuilder)

theorem firstFailure_tagChecks (outLen : ℕ) (hge : 4 ≤ outLen) (hle : outLen ≤ 0xFFFFFFFF) :
    firstFailure (tagChecks outLen) = none := by
  rw [tagChecks, firstFailure_pass _ _ _ (by omega), firstFailure_pass _ _ _ (by omega),
    firstFailure_nil]

theorem buildChecks_eq :
    firstFailure (buildChecks w b) = (firstFailure (tagChecks b.tagLen.toNat)).or
      (firstFailure (costChecks w b.memory.toNat b.passes.toNat b.lanes.toNat
        (b.threads.getD b.lanes).toNat)) := firstFailure_append _ _

theorem toUInt32_toNat (x : UInt64) (h : x.toNat ≤ 0xFFFFFFFF) : x.toUInt32.toNat = x.toNat := by
  rw [UInt64.toNat_toUInt32]
  omega

theorem maxMemory_le : (maxMemory w).toNat ≤ 0xFFFFFFFF := by
  have h := (maxMemory w).toNat_lt
  omega

theorem minMemory_le : 8 ≤ (maxMemory w).toNat := by
  cases w <;> decide

theorem tagLen_gt : b.tagLen > maxOutlen.toUInt64 ↔ 0xFFFFFFFF < b.tagLen.toNat := by
  simp only [gt_iff_lt, UInt64.lt_iff_toNat_lt, UInt32.toNat_toUInt64, maxOutlen,
    UInt32.reduceToNat]

theorem tagLen_lt : b.tagLen < minOutlen.toUInt64 ↔ b.tagLen.toNat < 4 := by
  simp only [UInt64.lt_iff_toNat_lt, UInt32.toNat_toUInt64, minOutlen, UInt32.reduceToNat]

theorem memory_gt : b.memory > (maxMemory w).toUInt64 ↔ (maxMemory w).toNat < b.memory.toNat := by
  simp only [gt_iff_lt, UInt64.lt_iff_toNat_lt, UInt32.toNat_toUInt64]

theorem build_tooLong (h : 0xFFFFFFFF < b.tagLen.toNat) : b.build w = .error .outputTooLong := by
  unfold ParamsBuilder.build
  rw [dif_pos ((tagLen_gt b).mpr h)]

theorem build_tooShort (h : b.tagLen.toNat < 4) : b.build w = .error .outputTooShort := by
  have hlong : ¬ b.tagLen > maxOutlen.toUInt64 := by
    rw [tagLen_gt]
    omega
  unfold ParamsBuilder.build
  rw [dif_neg hlong, if_pos ((tagLen_lt b).mpr h)]

theorem buildChecks_inRange (hmem : b.memory.toNat ≤ (maxMemory w).toNat) :
    verdict (firstFailure (buildChecks w b)) = validateInputs w b.tagLen.toNat 0
      minSaltLength.toNat 0 0 b.memory.toUInt32 b.passes b.lanes (b.threads.getD b.lanes) := by
  have hm := maxMemory_le w
  have hsalt : minSaltLength.toNat = 8 := rfl
  rw [validateInputs_eq, hsalt, inputChecks_placeholder, buildChecks_eq,
    toUInt32_toNat b.memory (by omega)]

section TagInRange
variable (hge : 4 ≤ b.tagLen.toNat) (hle : b.tagLen.toNat ≤ 0xFFFFFFFF)
include hge hle

theorem tagLen_passes : ¬ b.tagLen > maxOutlen.toUInt64 ∧ ¬ b.tagLen < minOutlen.toUInt64 := by
  rw [tagLen_gt, tagLen_lt]
  omega

theorem build_tooMuch (hmem : (maxMemory w).toNat < b.memory.toNat) :
    b.build w = .error .memoryTooMuch := by
  obtain ⟨hlong, hshort⟩ := tagLen_passes b hge hle
  unfold ParamsBuilder.build
  rw [dif_neg hlong, if_neg hshort, if_pos ((memory_gt w b).mpr hmem)]

/-- Once the three checks before the narrowing passed, `build` fails exactly as
`validate_inputs` does. -/
theorem build_error_narrow (e : Error) (hmem : b.memory.toNat ≤ (maxMemory w).toNat) :
    b.build w = .error e ↔ validateInputs w b.tagLen.toNat 0 minSaltLength.toNat 0 0
      b.memory.toUInt32 b.passes b.lanes (b.threads.getD b.lanes) = .error e := by
  obtain ⟨hlong, hshort⟩ := tagLen_passes b hge hle
  have hmuch : ¬ b.memory > (maxMemory w).toUInt64 := by
    rw [memory_gt]
    omega
  have hu : asUsize w b.tagLen = b.tagLen.toNat := by
    rw [asUsize_of_le w _ hle, toUInt32_toNat _ hle]
  unfold ParamsBuilder.build
  rw [dif_neg hlong, if_neg hshort, if_neg hmuch]
  dsimp only
  split
  · rename_i e' he
    rw [hu] at he
    rw [he, Except.error.injEq, Except.error.injEq]
  · rename_i he
    rw [hu] at he
    rw [he]
    exact ⟨fun h => (by cases h), fun h => (by cases h)⟩

end TagInRange

theorem build_error_iff (e : Error) :
    b.build w = .error e ↔ firstFailure (buildChecks w b) = some e := by
  by_cases hshort : b.tagLen.toNat < 4
  · have hfirst : firstFailure (tagChecks b.tagLen.toNat) = some .outputTooShort := by
      rw [tagChecks, firstFailure_cons, if_pos hshort]
    rw [build_tooShort w b hshort, buildChecks_eq, hfirst, Option.some_or]
    simp only [Except.error.injEq, Option.some.injEq]
  by_cases hlong : 0xFFFFFFFF < b.tagLen.toNat
  · have hfirst : firstFailure (tagChecks b.tagLen.toNat) = some .outputTooLong := by
      rw [tagChecks, firstFailure_pass _ _ _ hshort, firstFailure_cons, if_pos hlong]
    rw [build_tooLong w b hlong, buildChecks_eq, hfirst, Option.some_or]
    simp only [Except.error.injEq, Option.some.injEq]
  have hge : 4 ≤ b.tagLen.toNat := by omega
  have hle : b.tagLen.toNat ≤ 0xFFFFFFFF := by omega
  by_cases hmem : (maxMemory w).toNat < b.memory.toNat
  · have h8 : ¬ b.memory.toNat < 8 := by
      have := minMemory_le w
      omega
    rw [build_tooMuch w b hge hle hmem, buildChecks_eq, firstFailure_tagChecks _ hge hle,
      Option.none_or, costChecks, firstFailure_pass _ _ _ h8, firstFailure_cons, if_pos hmem]
    simp only [Except.error.injEq, Option.some.injEq]
  · rw [build_error_narrow w b hge hle e (by omega),
      ← buildChecks_inRange w b (by omega), verdict_eq_error]

theorem build_ok_ranges (p : Params w) (hp : b.build w = .ok p) :
    4 ≤ b.tagLen.toNat ∧ b.tagLen.toNat ≤ 0xFFFFFFFF ∧
      b.memory.toNat ≤ (maxMemory w).toNat := by
  have hne : ∀ e, b.build w ≠ .error e := by
    intro e he
    rw [hp] at he
    cases he
  have hge : 4 ≤ b.tagLen.toNat := by
    by_contra h
    exact hne _ (build_tooShort w b (by omega))
  have hle : b.tagLen.toNat ≤ 0xFFFFFFFF := by
    by_contra h
    exact hne _ (build_tooLong w b (by omega))
  refine ⟨hge, hle, ?_⟩
  by_contra h
  exact hne _ (build_tooMuch w b hge hle (by omega))

end Build

/-- `build` answers the first violated check on un-narrowed values; on success
it keeps every value of the builder, and the result rebuilds to itself. -/
theorem build_spec (w : PointerWidth) (b : ParamsBuilder) :
    (∀ e, b.build w = .error e ↔ firstFailure (buildChecks w b) = some e) ∧
    (∀ p, b.build w = .ok p →
      p.memoryKib.toNat = b.memory.toNat ∧ p.passes = b.passes ∧ p.lanes = b.lanes ∧
        p.threads = b.threads.getD b.lanes ∧ p.tagLenBytes = b.tagLen.toNat ∧
        p.toBuilder.build w = .ok p) := by
  refine ⟨build_error_iff w b, ?_⟩
  intro p hp
  obtain ⟨hge, hle, hmem⟩ := build_ok_ranges w b p hp
  obtain ⟨hm, ht, hl, hth, ho⟩ := build_ok b p hp
  refine ⟨?_, ht, hl, hth, ?_, build_toBuilder p⟩
  · rw [Params.memoryKib, hm, toUInt32_toNat _ (by have := maxMemory_le w; omega)]
  · rw [Params.tagLenBytes, ho, toUInt32_toNat _ hle]

theorem build_spec_witness :
    (ParamsBuilder.build .bits64 ⟨8, 0, 0x3FFFFFFF, none, 4⟩ = .error .memoryTooLittle ↔
      firstFailure (buildChecks .bits64 ⟨8, 0, 0x3FFFFFFF, none, 4⟩) = some .memoryTooLittle) ∧
    Params.least.toBuilder.build .bits64 = .ok Params.least :=
  ⟨(build_spec .bits64 _).1 .memoryTooLittle,
    ((build_spec .bits64 Params.least.toBuilder).2 Params.least (build_toBuilder _)).2.2.2.2.2⟩

section Layout
variable {w : PointerWidth} (p : Params w)

/-- `Params::memory_layout` with every product and the division checked. -/
def checkedMemoryLayout : Option (UInt32 × UInt32 × UInt32) := do
  let lanesXSync ← mul32 p.lanes syncPoints
  let twoSync ← mul32 2 syncPoints
  let minBlocks ← mul32 twoSync p.lanes
  let memoryBlocks := if p.mCost < minBlocks then minBlocks else p.mCost
  let segmentLength ← div32 memoryBlocks lanesXSync
  let memoryBlocks ← mul32 segmentLength lanesXSync
  let laneLength ← mul32 segmentLength syncPoints
  some (memoryBlocks, segmentLength, laneLength)

theorem syncPoints_toNat : syncPoints.toNat = 4 := rfl

theorem lanesXSync_pos : 0 < (p.lanes * syncPoints).toNat := by
  have h := p.costs.lanes_ge
  rw [p.lanesXSync_toNat]
  omega

theorem segmentLength_mul_lt : p.segmentLength.toNat * (4 * p.lanes.toNat) < 2 ^ 32 := by
  have h := p.segmentLength_mul_le
  have hm := p.mCost.toNat_lt
  omega

theorem segmentLength_mul_sync_lt : p.segmentLength.toNat * 4 < 2 ^ 32 := by
  have h := segmentLength_mul_lt p
  have hl := p.costs.lanes_ge
  calc p.segmentLength.toNat * 4 ≤ p.segmentLength.toNat * (4 * p.lanes.toNat) :=
        Nat.mul_le_mul_left _ (by omega)
    _ < 2 ^ 32 := h

theorem checkedMemoryLayout_eq : checkedMemoryLayout p = some p.memoryLayout := by
  have hl := p.costs.lanes_le
  have h1 : mul32 p.lanes syncPoints = some (p.lanes * syncPoints) :=
    mul32_eq (by rw [syncPoints_toNat]; omega)
  have h2 : mul32 2 syncPoints = some (2 * syncPoints) := mul32_eq (by decide)
  have h3 : mul32 (2 * syncPoints) p.lanes = some (2 * syncPoints * p.lanes) :=
    mul32_eq (by
      change 8 * p.lanes.toNat < 2 ^ 32
      omega)
  have h4 : ∀ x, div32 x (p.lanes * syncPoints) = some (x / (p.lanes * syncPoints)) :=
    fun x => div32_eq (lanesXSync_pos p)
  have h5 : mul32 p.segmentLength (p.lanes * syncPoints) =
      some (p.segmentLength * (p.lanes * syncPoints)) :=
    mul32_eq (by rw [p.lanesXSync_toNat]; exact segmentLength_mul_lt p)
  have h6 : mul32 p.segmentLength syncPoints = some (p.segmentLength * syncPoints) :=
    mul32_eq (by rw [syncPoints_toNat]; exact segmentLength_mul_sync_lt p)
  simp only [Params.segmentLength, Params.memoryLayout] at h5 h6
  simp only [checkedMemoryLayout, h1, h2, h3, h4, h5, h6, Option.bind_eq_bind, Option.bind_some,
    Params.memoryLayout]

theorem mCost_lt : p.mCost.toNat < p.memoryBlocks.toNat + 4 * p.lanes.toNat := by
  have hl := p.costs.lanes_ge
  have h := Nat.lt_div_mul_add (a := p.mCost.toNat) (b := 4 * p.lanes.toNat) (by omega)
  rw [p.memoryBlocks_toNat, p.segmentLength_toNat]
  exact h

theorem memoryBlocks_le : p.memoryBlocks.toNat ≤ p.mCost.toNat := by
  rw [p.memoryBlocks_toNat]
  exact p.segmentLength_mul_le

theorem memoryBlocks_lanes : p.memoryBlocks.toNat = p.lanes.toNat * p.laneLength.toNat := by
  rw [p.memoryBlocks_toNat, p.laneLength_toNat]
  ring

end Layout

/-- Acceptance over unbounded integers, and the layout of every accepted value. -/
theorem acceptance_and_layout (w : PointerWidth) :
    (∀ (outLen pwdLen saltLen secretLen adLen : ℕ) (mCost tCost lanes threads : UInt32),
      validateInputs w outLen pwdLen saltLen secretLen adLen mCost tCost lanes threads = .ok () ↔
        LengthsOk outLen pwdLen saltLen secretLen adLen ∧
        CostsOk w mCost.toNat tCost.toNat lanes.toNat threads.toNat) ∧
    (∀ (b : ParamsBuilder) (p : Params w), b.build w = .ok p →
      checkedMemoryLayout p = some (p.memoryBlocks, p.segmentLength, p.laneLength) ∧
      p.memoryBlocks.toNat = p.lanes.toNat * p.laneLength.toNat ∧
      p.laneLength.toNat = 4 * p.segmentLength.toNat ∧
      2 ≤ p.segmentLength.toNat ∧
      p.mCost.toNat < p.memoryBlocks.toNat + 4 * p.lanes.toNat ∧
      p.memoryBlocks.toNat ≤ p.mCost.toNat) := by
  refine ⟨validateInputs_ok_iff w, ?_⟩
  intro b p _
  exact ⟨checkedMemoryLayout_eq p, memoryBlocks_lanes p, p.laneLength_toNat,
    p.two_le_segmentLength, mCost_lt p, memoryBlocks_le p⟩

theorem acceptance_and_layout_witness :
    2 ≤ Params.least.segmentLength.toNat :=
  ((acceptance_and_layout .bits64).2 Params.least.toBuilder Params.least
    (build_toBuilder _)).2.2.2.1

end Argon2Rust.ParameterChecks
