import Mathlib.Tactic

set_option autoImplicit false

namespace Argon2Rust.Parameters

/-- The variants of `Error` that the modelled functions return. -/
inductive Error where
  | outputTooShort | outputTooLong | pwdTooLong | saltTooShort | saltTooLong
  | adTooLong | secretTooLong | timeTooSmall | timeTooLarge
  | memoryTooLittle | memoryTooMuch | lanesTooFew | lanesTooMany
  | memoryAllocationError | incorrectParameter | outPtrMismatch
  | threadsTooFew | threadsTooMany | encodingFail | decodingFail
  | decodingLengthFail | verifyMismatch
  deriving DecidableEq, Repr

@[simp] theorem ok_bind {ε α β : Type} (a : α) (k : α → Except ε β) :
    (Except.ok a >>= k) = k a := rfl

@[simp] theorem error_bind {ε α β : Type} (e : ε) (k : α → Except ε β) :
    (Except.error e >>= k) = .error e := rfl

theorem map_bind {ε α β γ : Type} (f : β → γ) (x : Except ε α) (k : α → Except ε β) :
    (x >>= k).map f = x >>= fun a => (k a).map f := by
  cases x <;> rfl

theorem bind_ok_iff {ε α β : Type} (x : Except ε α) (k : α → Except ε β) (b : β) :
    (x >>= k) = .ok b ↔ ∃ a, x = .ok a ∧ k a = .ok b := by
  cases x with
  | error e => simp
  | ok a => simp

theorem zero_iff_toNat (x : UInt32) : x = 0 ↔ x.toNat = 0 := by
  rw [← UInt32.toNat_inj]
  rfl

inductive PointerWidth where
  | bits32 | bits64
  deriving DecidableEq, Repr

def PointerWidth.bits : PointerWidth → ℕ
  | .bits32 => 32
  | .bits64 => 64

def minLanes : UInt32 := 1
def maxLanes : UInt32 := 0x00FFFFFF
def minThreads : UInt32 := 1
def maxThreads : UInt32 := 0x00FFFFFF
def syncPoints : UInt32 := 4
def minOutlen : UInt32 := 4
def maxOutlen : UInt32 := 0xFFFFFFFF
def minMemory : UInt32 := 2 * syncPoints
def minTime : UInt32 := 1
def maxTime : UInt32 := 0xFFFFFFFF
def maxPwdLength : UInt32 := 0xFFFFFFFF
def maxAdLength : UInt32 := 0xFFFFFFFF
def minSaltLength : UInt32 := 8
def maxSaltLength : UInt32 := 0xFFFFFFFF
def maxSecret : UInt32 := 0xFFFFFFFF

def maxMemoryBits (w : PointerWidth) : ℕ :=
  let bits := w.bits - 10 - 1
  if bits < 32 then bits else 32

def maxMemory (w : PointerWidth) : UInt32 :=
  let candidate := 2 ^ maxMemoryBits w
  if candidate < 0xFFFFFFFF then UInt32.ofNat candidate else 0xFFFFFFFF

def validateInputs (w : PointerWidth) (outLen pwdLen saltLen secretLen adLen : ℕ)
    (mCost tCost lanes threads : UInt32) : Except Error Unit :=
  if outLen < minOutlen.toNat then .error .outputTooShort
  else if outLen > maxOutlen.toNat then .error .outputTooLong
  else if pwdLen > maxPwdLength.toNat then .error .pwdTooLong
  else if saltLen < minSaltLength.toNat then .error .saltTooShort
  else if saltLen > maxSaltLength.toNat then .error .saltTooLong
  else if secretLen > maxSecret.toNat then .error .secretTooLong
  else if adLen > maxAdLength.toNat then .error .adTooLong
  else if mCost < minMemory then .error .memoryTooLittle
  else if mCost > maxMemory w then .error .memoryTooMuch
  else if mCost < 8 * lanes then .error .memoryTooLittle
  else if tCost < minTime then .error .timeTooSmall
  else if tCost > maxTime then .error .timeTooLarge
  else if lanes < minLanes then .error .lanesTooFew
  else if lanes > maxLanes then .error .lanesTooMany
  else if threads < minThreads then .error .threadsTooFew
  else if threads > maxThreads then .error .threadsTooMany
  else .ok ()

structure LengthsOk (outLen pwdLen saltLen secretLen adLen : ℕ) : Prop where
  out_ge : 4 ≤ outLen
  out_le : outLen ≤ 0xFFFFFFFF
  pwd_le : pwdLen ≤ 0xFFFFFFFF
  salt_ge : 8 ≤ saltLen
  salt_le : saltLen ≤ 0xFFFFFFFF
  secret_le : secretLen ≤ 0xFFFFFFFF
  ad_le : adLen ≤ 0xFFFFFFFF

structure CostsOk (w : PointerWidth) (mCost tCost lanes threads : ℕ) : Prop where
  memory_ge : 8 ≤ mCost
  memory_le : mCost ≤ (maxMemory w).toNat
  memory_lanes : 8 * lanes ≤ mCost
  time_ge : 1 ≤ tCost
  lanes_ge : 1 ≤ lanes
  lanes_le : lanes ≤ 0xFFFFFF
  threads_ge : 1 ≤ threads
  threads_le : threads ≤ 0xFFFFFF

theorem check_ok_iff {ε α : Type} (c : Prop) [Decidable c] (e : ε) (k : Except ε α) (a : α) :
    (if c then .error e else k) = .ok a ↔ ¬ c ∧ k = .ok a := by
  by_cases h : c <;> simp [h]

/-- Acceptance means the constraints over unbounded integers: a wrapped
`8 * lanes` never lets a `lanes` through that the later range check would not. -/
theorem validateInputs_ok_iff (w : PointerWidth) (outLen pwdLen saltLen secretLen adLen : ℕ)
    (mCost tCost lanes threads : UInt32) :
    validateInputs w outLen pwdLen saltLen secretLen adLen mCost tCost lanes threads = .ok () ↔
      LengthsOk outLen pwdLen saltLen secretLen adLen ∧
      CostsOk w mCost.toNat tCost.toNat lanes.toNat threads.toNat := by
  have ht := tCost.toNat_lt
  simp only [validateInputs, check_ok_iff, gt_iff_lt, UInt32.lt_iff_toNat_lt, not_lt, and_true,
    UInt32.toNat_mul]
  simp only [minOutlen, maxOutlen, maxPwdLength, minSaltLength, maxSaltLength, maxSecret,
    maxAdLength, minMemory, syncPoints, minTime, maxTime, minLanes, maxLanes, minThreads,
    maxThreads, UInt32.reduceMul, UInt32.reduceToNat]
  constructor
  · rintro ⟨h1, h2, h3, h4, h5, h6, h7, h8, h9, h10, h11, h12, h13, h14, h15, h16⟩
    exact ⟨⟨h1, h2, h3, h4, h5, h6, h7⟩, ⟨h8, h9, by omega, h11, h13, h14, h15, h16⟩⟩
  · rintro ⟨⟨h1, h2, h3, h4, h5, h6, h7⟩, ⟨h8, h9, h10, h11, h13, h14, h15, h16⟩⟩
    exact ⟨h1, h2, h3, h4, h5, h6, h7, h8, h9, by omega, h11, by omega, h13, h14, h15, h16⟩

inductive Algorithm where
  | argon2d | argon2i | argon2id
  deriving DecidableEq, Repr

def Algorithm.asU32 : Algorithm → UInt32
  | .argon2d => 0
  | .argon2i => 1
  | .argon2id => 2

inductive Version where
  | v0x10 | v0x13
  deriving DecidableEq, Repr

def Version.asU32 : Version → UInt32
  | .v0x10 => 0x10
  | .v0x13 => 0x13

def Version.fromU32 (value : UInt32) : Option Version :=
  if value = 0x10 then some .v0x10 else if value = 0x13 then some .v0x13 else none

theorem Version.fromU32_eq_some (value : UInt32) (v : Version) :
    Version.fromU32 value = some v ↔ value = v.asU32 := by
  unfold Version.fromU32
  cases v <;> split_ifs <;> simp_all [Version.asU32]

/-- Validated cost parameters. The field `valid` is what `build` checked. -/
@[ext] structure Params (w : PointerWidth) where
  mCost : UInt32
  tCost : UInt32
  lanes : UInt32
  threads : UInt32
  outputLen : UInt32
  valid : validateInputs w outputLen.toNat 0 minSaltLength.toNat 0 0 mCost tCost lanes threads = .ok ()
  deriving DecidableEq, Repr

structure ParamsBuilder where
  memory : UInt64
  passes : UInt32
  lanes : UInt32
  threads : Option UInt32
  tagLen : UInt64
  deriving DecidableEq, Repr

def asUsize (w : PointerWidth) (x : UInt64) : ℕ := x.toNat % 2 ^ w.bits

theorem asUsize_of_le (w : PointerWidth) (x : UInt64) (h : x.toNat ≤ 0xFFFFFFFF) :
    asUsize w x = x.toUInt32.toNat := by
  have hx : x.toUInt32.toNat = x.toNat := by
    rw [UInt64.toNat_toUInt32]
    omega
  cases w <;> simp only [asUsize, PointerWidth.bits, hx] <;> omega

/-- `ParamsBuilder::build`: the two lengths are range-checked before they are narrowed. -/
def ParamsBuilder.build (w : PointerWidth) (b : ParamsBuilder) : Except Error (Params w) :=
  if hlong : b.tagLen > maxOutlen.toUInt64 then .error .outputTooLong
  else if b.tagLen < minOutlen.toUInt64 then .error .outputTooShort
  else if b.memory > (maxMemory w).toUInt64 then .error .memoryTooMuch
  else
    let threads := b.threads.getD b.lanes
    match h : validateInputs w (asUsize w b.tagLen) 0 minSaltLength.toNat 0 0
        b.memory.toUInt32 b.passes b.lanes threads with
    | .error e => .error e
    | .ok () => .ok {
        mCost := b.memory.toUInt32, tCost := b.passes, lanes := b.lanes, threads := threads
        outputLen := b.tagLen.toUInt32
        valid := by
          have hle : b.tagLen.toNat ≤ 0xFFFFFFFF := by
            simpa [UInt64.lt_iff_toNat_lt, maxOutlen] using hlong
          rwa [asUsize_of_le w b.tagLen hle] at h }

namespace Params
variable {w : PointerWidth} (p : Params w)

def memoryKib : UInt32 := p.mCost
def passes : UInt32 := p.tCost
def tagLenBytes : ℕ := p.outputLen.toNat

def toBuilder : ParamsBuilder where
  memory := p.mCost.toUInt64
  passes := p.tCost
  lanes := p.lanes
  threads := some p.threads
  tagLen := p.outputLen.toUInt64

def validateFor (pwdLen saltLen secretLen adLen : ℕ) : Except Error Unit :=
  validateInputs w p.outputLen.toNat pwdLen saltLen secretLen adLen p.mCost p.tCost p.lanes p.threads

def effectiveThreads : UInt32 := if p.threads > p.lanes then p.lanes else p.threads

def memoryLayout : UInt32 × UInt32 × UInt32 :=
  let lanesXSync := p.lanes * syncPoints
  let minBlocks := 2 * syncPoints * p.lanes
  let memoryBlocks := if p.mCost < minBlocks then minBlocks else p.mCost
  let segmentLength := memoryBlocks / lanesXSync
  (segmentLength * lanesXSync, segmentLength, segmentLength * syncPoints)

def memoryBlocks : UInt32 := p.memoryLayout.1
def segmentLength : UInt32 := p.memoryLayout.2.1
def laneLength : UInt32 := p.memoryLayout.2.2

theorem lengths : LengthsOk p.tagLenBytes 0 8 0 0 :=
  ((validateInputs_ok_iff w _ _ _ _ _ _ _ _ _).mp p.valid).1

theorem costs : CostsOk w p.mCost.toNat p.tCost.toNat p.lanes.toNat p.threads.toNat :=
  ((validateInputs_ok_iff w _ _ _ _ _ _ _ _ _).mp p.valid).2

theorem validateFor_ok_iff (pwdLen saltLen secretLen adLen : ℕ) :
    p.validateFor pwdLen saltLen secretLen adLen = .ok () ↔
      LengthsOk p.tagLenBytes pwdLen saltLen secretLen adLen := by
  unfold validateFor
  rw [validateInputs_ok_iff]
  exact and_iff_left p.costs

theorem lanesXSync_toNat : (p.lanes * syncPoints).toNat = 4 * p.lanes.toNat := by
  have h := p.costs.lanes_le
  rw [UInt32.toNat_mul]
  simp only [syncPoints, UInt32.reduceToNat]
  omega

theorem minBlocks_toNat : (2 * syncPoints * p.lanes).toNat = 8 * p.lanes.toNat := by
  have h := p.costs.lanes_le
  rw [UInt32.toNat_mul]
  simp only [syncPoints, UInt32.reduceMul, UInt32.reduceToNat]
  omega

/-- `m_cost` is never raised: the builder already required `8 * lanes` blocks. -/
theorem segmentLength_toNat : p.segmentLength.toNat = p.mCost.toNat / (4 * p.lanes.toNat) := by
  have hm : ¬ p.mCost < 2 * syncPoints * p.lanes := by
    rw [UInt32.lt_iff_toNat_lt, minBlocks_toNat]
    have := p.costs.memory_lanes
    omega
  simp only [segmentLength, memoryLayout, if_neg hm, UInt32.toNat_div, lanesXSync_toNat]

theorem segmentLength_mul_le : p.segmentLength.toNat * (4 * p.lanes.toNat) ≤ p.mCost.toNat := by
  rw [segmentLength_toNat]
  exact Nat.div_mul_le_self _ _

theorem memoryBlocks_toNat : p.memoryBlocks.toNat = p.segmentLength.toNat * (4 * p.lanes.toNat) := by
  have h := p.segmentLength_mul_le
  have hm := p.mCost.toNat_lt
  change (p.segmentLength * (p.lanes * syncPoints)).toNat = _
  rw [UInt32.toNat_mul, lanesXSync_toNat, Nat.mod_eq_of_lt (by omega)]

theorem two_le_segmentLength : 2 ≤ p.segmentLength.toNat := by
  have h := p.costs.memory_lanes
  have hl := p.costs.lanes_ge
  rw [segmentLength_toNat, Nat.le_div_iff_mul_le (by omega)]
  omega

theorem laneLength_toNat : p.laneLength.toNat = 4 * p.segmentLength.toNat := by
  have h := p.segmentLength_mul_le
  have hm := p.mCost.toNat_lt
  have hl := p.costs.lanes_ge
  have hs : p.segmentLength.toNat * 4 ≤ p.segmentLength.toNat * (4 * p.lanes.toNat) :=
    Nat.mul_le_mul_left _ (by omega)
  change (p.segmentLength * syncPoints).toNat = _
  rw [UInt32.toNat_mul]
  simp only [syncPoints, UInt32.reduceToNat]
  omega

end Params

theorem build_eq_ok {w : PointerWidth} (b : ParamsBuilder) (p : Params w)
    (hm : b.memory = p.mCost.toUInt64) (hp : b.passes = p.tCost) (hl : b.lanes = p.lanes)
    (ht : b.threads.getD b.lanes = p.threads) (ho : b.tagLen = p.outputLen.toUInt64) :
    b.build w = .ok p := by
  have hout := p.lengths.out_ge
  have hmem := p.costs.memory_le
  have hol := p.outputLen.toNat_lt
  change 4 ≤ p.outputLen.toNat at hout
  have h1 : ¬ b.tagLen > maxOutlen.toUInt64 := by
    simp only [ho, gt_iff_lt, UInt64.lt_iff_toNat_lt, UInt32.toNat_toUInt64, maxOutlen,
      UInt32.reduceToNat]
    omega
  have h2 : ¬ b.tagLen < minOutlen.toUInt64 := by
    simp only [ho, UInt64.lt_iff_toNat_lt, UInt32.toNat_toUInt64, minOutlen, UInt32.reduceToNat]
    omega
  have h3 : ¬ b.memory > (maxMemory w).toUInt64 := by
    simp only [hm, gt_iff_lt, UInt64.lt_iff_toNat_lt, UInt32.toNat_toUInt64]
    omega
  have hu : asUsize w b.tagLen = p.outputLen.toNat := by
    rw [ho, asUsize_of_le w _ (by rw [UInt32.toNat_toUInt64]; omega), UInt32.toUInt32_toUInt64]
  have hv : validateInputs w (asUsize w b.tagLen) 0 minSaltLength.toNat 0 0
      b.memory.toUInt32 b.passes b.lanes (b.threads.getD b.lanes) = .ok () := by
    rw [hu, hm, hp, ht, hl, UInt32.toUInt32_toUInt64]
    exact p.valid
  unfold ParamsBuilder.build
  rw [dif_neg h1, if_neg h2, if_neg h3]
  dsimp only
  split
  · rename_i e he
    rw [hv] at he
    cases he
  · refine congrArg Except.ok (Params.ext ?_ hp hl ht ?_)
    · simp only [hm, UInt32.toUInt32_toUInt64]
    · simp only [ho, UInt32.toUInt32_toUInt64]

theorem build_ok {w : PointerWidth} (b : ParamsBuilder) (p : Params w) (h : b.build w = .ok p) :
    p.mCost = b.memory.toUInt32 ∧ p.tCost = b.passes ∧ p.lanes = b.lanes ∧
      p.threads = b.threads.getD b.lanes ∧ p.outputLen = b.tagLen.toUInt32 := by
  unfold ParamsBuilder.build at h
  by_cases h1 : b.tagLen > maxOutlen.toUInt64
  · rw [dif_pos h1] at h
    cases h
  · rw [dif_neg h1] at h
    by_cases h2 : b.tagLen < minOutlen.toUInt64
    · rw [if_pos h2] at h
      cases h
    · rw [if_neg h2] at h
      by_cases h3 : b.memory > (maxMemory w).toUInt64
      · rw [if_pos h3] at h
        cases h
      · rw [if_neg h3] at h
        dsimp only at h
        split at h
        · cases h
        · rw [Except.ok.injEq] at h
          rw [← h]
          exact ⟨rfl, rfl, rfl, rfl, rfl⟩

theorem build_toBuilder {w : PointerWidth} (p : Params w) : p.toBuilder.build w = .ok p :=
  build_eq_ok p.toBuilder p rfl rfl rfl rfl rfl

/-- The least value of every cost that `build` accepts. -/
def Params.least : Params .bits64 where
  mCost := minMemory
  tCost := minTime
  lanes := minLanes
  threads := minThreads
  outputLen := minOutlen
  valid := by decide

end Argon2Rust.Parameters
