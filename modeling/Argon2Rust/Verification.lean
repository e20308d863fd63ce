import Argon2Rust.PhcAgreement
import Argon2Rust.Independence

set_option autoImplicit false

namespace Argon2Rust.Verification
open Parameters Numeral Base64 Encoding Decoding DecodeString RoundTrip
open IndexAlpha Segment Blake2 Hash Fill Independence

def constantTimeEq (a b : List UInt8) : Bool :=
  if a.length ≠ b.length then false
  else
    let d := (a.zip b).foldl (fun d xy => d ||| (xy.1 ^^^ xy.2)) 0
    let verdict := ((1 : Int32) &&& ((d.toUInt32.toInt32 - 1) >>> 8)) - 1
    verdict == 0

def tryZeroedVec (host : Host) (len : ℕ) : Except Error (List UInt8) := do
  reserveVec host len
  .ok (List.replicate len 0)

section
variable (host : Host) (compress : CompressFn) (fill : Instance → Arena → Except Error Arena)

def verifyWithAd (algorithm : Algorithm) (version : Version) (params : Params host.width)
    (x : Inputs) (expected : List UInt8) : Except Error Unit := do
  let computed ← tryZeroedVec host params.tagLenBytes
  let computed ← hashOwned compress fill host.alloc algorithm version params x computed
  if constantTimeEq computed expected then .ok () else .error .verifyMismatch

def verify (algorithm : Algorithm) (version : Version) (params : Params host.width)
    (pwd salt expected : List UInt8) : Except Error Unit :=
  verifyWithAd host compress fill algorithm version params ⟨pwd, salt, [], []⟩ expected

def verifyEncoded (encoded pwd : List UInt8) (algorithm : Algorithm) : Except Error Unit :=
  if pwd.length > maxPwdLength.toNat then .error .pwdTooLong
  else do
    let decoded ← decodeString host encoded algorithm
    verify host compress fill decoded.algorithm decoded.version decoded.params pwd decoded.salt
      decoded.hash

/-- The longest salt the bounded entry points allow for in their length gate. -/
def boundedMaxSaltLen : UInt32 := 1024

/-- The length gate; a 32-bit `usize` wraps where the ceiling's tag is near 2^32 bytes. -/
def maxEncoded (algorithm : Algorithm) (ceiling : Params host.width) : ℕ :=
  wrapUsize host.width
    (encodedLen algorithm ceiling.passes ceiling.memoryKib ceiling.lanes boundedMaxSaltLen.toNat
      (UInt32.ofNat ceiling.tagLenBytes).toNat)

def decodeBounded (encoded : List UInt8) (algorithm : Algorithm) (ceiling : Params host.width) :
    Except Error (Decoded host.width) :=
  if encoded.length > maxEncoded host algorithm ceiling then .error .decodingLengthFail
  else do
    let decoded ← decodeString host encoded algorithm
    if decoded.params.tagLenBytes > ceiling.tagLenBytes then .error .outputTooLong
    else if decoded.params.memoryKib > ceiling.memoryKib then .error .memoryTooMuch
    else if decoded.params.passes > ceiling.passes then .error .timeTooLarge
    else if decoded.params.lanes > ceiling.lanes then .error .lanesTooMany
    else
      let threads := min ceiling.threads decoded.params.lanes
      if threads ≠ decoded.params.threads then do
        let params ← ParamsBuilder.build host.width
          { decoded.params.toBuilder with threads := some threads }
        .ok { decoded with params := params }
      else .ok decoded

def verifyEncodedBounded (encoded pwd : List UInt8) (algorithm : Algorithm)
    (ceiling : Params host.width) : Except Error Unit :=
  if pwd.length > maxPwdLength.toNat then .error .pwdTooLong
  else do
    let decoded ← decodeBounded host encoded algorithm ceiling
    verify host compress fill decoded.algorithm decoded.version decoded.params pwd decoded.salt
      decoded.hash

end

section Threads
variable {w : PointerWidth}

theorem min_toNat (a b : UInt32) : (min a b).toNat = min a.toNat b.toNat := by
  change (if a ≤ b then a else b).toNat = _
  by_cases h : a ≤ b
  · rw [if_pos h, Nat.min_eq_left (UInt32.le_iff_toNat_le.mp h)]
  · have hlt : b.toNat < a.toNat := not_le.mp fun hle => h (UInt32.le_iff_toNat_le.mpr hle)
    rw [if_neg h, Nat.min_eq_right hlt.le]

theorem clamp_valid (ceiling p : Params w) :
    validateInputs w p.outputLen.toNat 0 minSaltLength.toNat 0 0 p.mCost p.tCost p.lanes
      (min ceiling.threads p.lanes) = .ok () := by
  have hc := ceiling.costs
  have hp := p.costs
  refine (validateInputs_ok_iff _ _ _ _ _ _ _ _ _ _).mpr ⟨p.lengths, { hp with
    threads_ge := ?_
    threads_le := ?_ }⟩
  · rw [min_toNat]
    exact Nat.le_min.mpr ⟨hc.threads_ge, hp.lanes_ge⟩
  · rw [min_toNat]
    exact (Nat.min_le_right _ _).trans hp.lanes_le

def clampThreads (ceiling p : Params w) : Params w :=
  { p with threads := min ceiling.threads p.lanes, valid := clamp_valid ceiling p }

theorem clampThreads_sameCosts (ceiling p : Params w) : SameCosts (clampThreads ceiling p) p :=
  ⟨rfl, rfl, rfl, rfl⟩

theorem clampThreads_self (ceiling p : Params w) (h : min ceiling.threads p.lanes = p.threads) :
    clampThreads ceiling p = p := Params.ext rfl rfl rfl h rfl

/-- The rebuild after the clamp cannot fail. -/
theorem build_clamp (ceiling p : Params w) :
    ParamsBuilder.build w { p.toBuilder with threads := some (min ceiling.threads p.lanes) } =
      .ok (clampThreads ceiling p) :=
  build_eq_ok _ (clampThreads ceiling p) rfl rfl rfl rfl rfl

structure Within (p ceiling : Params w) : Prop where
  tagLen_le : p.tagLenBytes ≤ ceiling.tagLenBytes
  memory_le : p.memoryKib ≤ ceiling.memoryKib
  passes_le : p.passes ≤ ceiling.passes
  lanes_le : p.lanes ≤ ceiling.lanes

/-- The ceilings that `p` exceeds, in the order in which they are reported. -/
def exceeded (p ceiling : Params w) : List Error :=
  [(decide (ceiling.tagLenBytes < p.tagLenBytes), Error.outputTooLong),
    (decide (ceiling.memoryKib < p.memoryKib), .memoryTooMuch),
    (decide (ceiling.passes < p.passes), .timeTooLarge),
    (decide (ceiling.lanes < p.lanes), .lanesTooMany)].filterMap
    fun check => if check.1 then some check.2 else none

def ceilingErrors : List Error := [.outputTooLong, .memoryTooMuch, .timeTooLarge, .lanesTooMany]

theorem exceeded_subset (p ceiling : Params w) : exceeded p ceiling ⊆ ceilingErrors := by
  intro e he
  obtain ⟨check, hcheck, hsome⟩ := List.mem_filterMap.mp he
  obtain ⟨-, heq⟩ := Option.ite_none_right_eq_some.mp hsome
  rw [Option.some.injEq] at heq
  subst heq
  exact List.mem_map_of_mem (f := Prod.snd) hcheck

end Threads

section Bounded
variable (host : Host) (encoded : List UInt8) (algorithm : Algorithm)
  (ceiling : Params host.width)

/-- The checks of `decode_bounded` in their order; nothing after them can fail. -/
theorem decodeBounded_eq :
    decodeBounded host encoded algorithm ceiling =
      if maxEncoded host algorithm ceiling < encoded.length then .error .decodingLengthFail
      else decodeString host encoded algorithm >>= fun d =>
        if ceiling.tagLenBytes < d.params.tagLenBytes then .error .outputTooLong
        else if ceiling.memoryKib < d.params.memoryKib then .error .memoryTooMuch
        else if ceiling.passes < d.params.passes then .error .timeTooLarge
        else if ceiling.lanes < d.params.lanes then .error .lanesTooMany
        else .ok { d with params := clampThreads ceiling d.params } := by
  have hclamp : ∀ d : Decoded host.width,
      (if min ceiling.threads d.params.lanes ≠ d.params.threads then
        ParamsBuilder.build host.width
            { d.params.toBuilder with threads := some (min ceiling.threads d.params.lanes) } >>=
          fun params => .ok { d with params := params }
      else Except.ok d) =
        (.ok { d with params := clampThreads ceiling d.params } : Except Error _) := by
    intro d
    by_cases h : min ceiling.threads d.params.lanes ≠ d.params.threads
    · rw [if_pos h, build_clamp, ok_bind]
    · rw [not_not] at h
      rw [if_neg (not_not.mpr h), clampThreads_self ceiling d.params h]
  unfold decodeBounded
  simp only [gt_iff_lt, hclamp]

theorem decodeBounded_ok_iff (d' : Decoded host.width) :
    decodeBounded host encoded algorithm ceiling = .ok d' ↔
      encoded.length ≤ maxEncoded host algorithm ceiling ∧
      ∃ d, decodeString host encoded algorithm = .ok d ∧ Within d.params ceiling ∧
        d' = { d with params := clampThreads ceiling d.params } := by
  rw [decodeBounded_eq]
  simp only [check_ok_iff, bind_ok_iff, not_lt, UInt32.not_lt, Except.ok.injEq]
  constructor
  · rintro ⟨hlen, d, hd, htag, hmem, hpass, hlanes, rfl⟩
    exact ⟨hlen, d, hd, ⟨htag, hmem, hpass, hlanes⟩, rfl⟩
  · rintro ⟨hlen, d, hd, ⟨htag, hmem, hpass, hlanes⟩, rfl⟩
    exact ⟨hlen, d, hd, htag, hmem, hpass, hlanes, rfl⟩

theorem decodeBounded_error_iff (e : Error) :
    decodeBounded host encoded algorithm ceiling = .error e ↔
      (maxEncoded host algorithm ceiling < encoded.length ∧ e = .decodingLengthFail) ∨
      (encoded.length ≤ maxEncoded host algorithm ceiling ∧
        decodeString host encoded algorithm = .error e) ∨
      (encoded.length ≤ maxEncoded host algorithm ceiling ∧
        ∃ d, decodeString host encoded algorithm = .ok d ∧
          (exceeded d.params ceiling).head? = some e) := by
  rw [decodeBounded_eq]
  by_cases hlen : maxEncoded host algorithm ceiling < encoded.length
  · have hnot := not_le.mpr hlen
    rw [if_pos hlen]
    constructor
    · intro h
      exact Or.inl ⟨hlen, (Except.error.inj h).symm⟩
    · rintro (⟨-, rfl⟩ | ⟨h, -⟩ | ⟨h, -⟩)
      · rfl
      · exact absurd h hnot
      · exact absurd h hnot
  · have hle := not_lt.mp hlen
    rw [if_neg hlen]
    cases hd : decodeString host encoded algorithm with
    | error e' =>
      rw [error_bind]
      simp [hlen, hle]
    | ok d =>
      rw [ok_bind]
      unfold exceeded
      by_cases htag : ceiling.tagLenBytes < d.params.tagLenBytes
      · simp [htag, hlen, hle]
      · by_cases hmem : ceiling.memoryKib < d.params.memoryKib
        · simp [htag, hmem, hlen, hle]
        · by_cases hpass : ceiling.passes < d.params.passes
          · simp [htag, hmem, hpass, hlen, hle]
          · by_cases hlanes : ceiling.lanes < d.params.lanes
            · simp [htag, hmem, hpass, hlanes, hlen, hle]
            · simp [htag, hmem, hpass, hlanes, hlen]

theorem maxEncoded_eq (hw : host.width = .bits64) :
    maxEncoded host algorithm ceiling =
      encodedLen algorithm ceiling.passes ceiling.memoryKib ceiling.lanes 1024
        ceiling.tagLenBytes := by
  have htag : (UInt32.ofNat ceiling.tagLenBytes).toNat = ceiling.tagLenBytes := by
    rw [Params.tagLenBytes, UInt32.ofNat_toNat]
  have hbits : host.width.bits = 64 := congrArg PointerWidth.bits hw
  unfold maxEncoded wrapUsize
  rw [htag, hbits]
  refine Nat.mod_eq_of_lt ?_
  change encodedLen _ _ _ _ 1024 _ < _
  have hname : (asStr algorithm).length ≤ 8 := by cases algorithm <;> decide
  have htext := b64LenUsize_mono (Nat.le_of_lt_succ ceiling.outputLen.toNat_lt)
  have hmost : b64LenUsize 0xFFFFFFFF = 5726623060 := by decide
  have hsalt : b64LenUsize 1024 = 1366 := by decide
  have ht := numLen_le ceiling.passes
  have hm := numLen_le ceiling.memoryKib
  have hl := numLen_le ceiling.lanes
  have hv := numLen_le Version.v0x13.asU32
  change b64LenUsize ceiling.tagLenBytes ≤ b64LenUsize 0xFFFFFFFF at htext
  have h15 : (ascii "$$v=$m=,t=,p=$$").length = 15 := rfl
  unfold encodedLen
  omega

theorem length_le_maxEncoded (hw : host.width = .bits64) (d : Decoded host.width)
    (h : decodeString host encoded algorithm = .ok d) (hsalt : d.salt.length ≤ 1024)
    (hwithin : Within d.params ceiling) :
    encoded.length ≤ maxEncoded host algorithm ceiling := by
  obtain ⟨-, -, version, rfl, hd⟩ := decodeString_ok _ _ _ _ h
  have hversion : (versionField version).length ≤ 5 := by
    cases version with
    | none => exact Nat.zero_le _
    | some v =>
      have hv : d.version.asU32 = v := hd.version_eq
      rw [← hv]
      cases d.version <;> decide
  have hm := decimal_length_mono (UInt32.le_iff_toNat_le.mp hwithin.memory_le)
  have ht := decimal_length_mono (UInt32.le_iff_toNat_le.mp hwithin.passes_le)
  have hl := decimal_length_mono (UInt32.le_iff_toNat_le.mp hwithin.lanes_le)
  have hsaltText := b64LenUsize_mono hsalt
  have htag : d.hash.length ≤ ceiling.tagLenBytes := by
    have hle := hwithin.tagLen_le
    rw [hd.tagLen_eq] at hle
    exact hle
  have htagText := b64LenUsize_mono htag
  have hnum : numLen Version.v0x13.asU32 = 2 := by
    rw [numLen_eq]
    decide
  rw [maxEncoded_eq host algorithm ceiling hw]
  unfold encodedLen render
  simp only [List.length_append, numLen_eq, text_length]
  rw [numLen_eq] at hnum
  have h1 : (ascii "$$v=$m=,t=,p=$$").length = 15 := rfl
  have h2 : (ascii "$").length = 1 := rfl
  have h3 : (ascii "$m=").length = 3 := rfl
  have h4 : (ascii ",t=").length = 3 := rfl
  have h5 : (ascii ",p=").length = 3 := rfl
  simp only [Params.memoryKib, Params.passes] at hm ht ⊢
  omega

end Bounded

section Verify
variable (host : Host) (compress : CompressFn)

/-- `build` has already accepted the thread count, so the checks that are left do not see it. -/
theorem validateFor_sameCosts {w : PointerWidth} {p p' : Params w} (h : SameCosts p p')
    (pwdLen saltLen secretLen adLen : ℕ) :
    p.validateFor pwdLen saltLen secretLen adLen = p'.validateFor pwdLen saltLen secretLen adLen := by
  have hthreads : ∀ q : Params w, ¬ q.threads < minThreads ∧ ¬ q.threads > maxThreads := by
    intro q
    rw [gt_iff_lt, UInt32.lt_iff_toNat_lt, UInt32.lt_iff_toNat_lt, not_lt, not_lt]
    exact ⟨q.costs.threads_ge, q.costs.threads_le⟩
  unfold Params.validateFor validateInputs
  rw [if_neg (hthreads p).1, if_neg (hthreads p).2, if_neg (hthreads p').1, if_neg (hthreads p').2,
    h.memory_eq, h.passes_eq, h.lanes_eq, h.outputLen_eq]

theorem memoryLayout_sameCosts {w : PointerWidth} {p p' : Params w} (h : SameCosts p p') :
    p.memoryLayout = p'.memoryLayout := by
  unfold Params.memoryLayout
  rw [h.memory_eq, h.lanes_eq]

theorem hashOwned_sameCosts {w : PointerWidth} (alloc : ℕ → Bool) (algorithm : Algorithm)
    (version : Version) {p p' : Params w} (h : SameCosts p p') (scheduler scheduler' : Scheduler)
    (x : Inputs) (out : List UInt8) :
    hashOwned compress (pooledFill scheduler) alloc algorithm version p x out =
      hashOwned compress (pooledFill scheduler') alloc algorithm version p' x out := by
  have harena : ∀ arena, hashInArena compress (pooledFill scheduler) arena algorithm version p x out =
      hashInArena compress (pooledFill scheduler') arena algorithm version p' x out := by
    intro arena
    rw [hashInArena_eq_St compress algorithm version p
        (pooledFill_eq (new_wellFormed algorithm version p) scheduler),
      hashInArena_eq_St compress algorithm version p'
        (pooledFill_eq (new_wellFormed algorithm version p') scheduler')]
    exact hashInArenaSt_sameCosts compress algorithm version h arena x out
  have htag : p.tagLenBytes = p'.tagLenBytes := congrArg UInt32.toNat h.outputLen_eq
  unfold hashOwned validateAndSize
  rw [validateFor_sameCosts h, htag, memoryLayout_sameCosts h]
  simp only [harena]

theorem verify_sameCosts (algorithm : Algorithm) (version : Version) {p p' : Params host.width}
    (h : SameCosts p p') (scheduler scheduler' : Scheduler) (pwd salt expected : List UInt8) :
    verify host compress (pooledFill scheduler) algorithm version p pwd salt expected =
      verify host compress (pooledFill scheduler') algorithm version p' pwd salt expected := by
  have htag : p.tagLenBytes = p'.tagLenBytes := congrArg UInt32.toNat h.outputLen_eq
  unfold verify verifyWithAd
  simp only [htag, hashOwned_sameCosts compress host.alloc algorithm version h scheduler scheduler']

theorem verifyEncodedBounded_eq (encoded pwd : List UInt8) (algorithm : Algorithm)
    (ceiling : Params host.width) (d' : Decoded host.width)
    (h : decodeBounded host encoded algorithm ceiling = .ok d')
    (scheduler scheduler' : Scheduler) :
    verifyEncodedBounded host compress (pooledFill scheduler) encoded pwd algorithm ceiling =
      verifyEncoded host compress (pooledFill scheduler') encoded pwd algorithm := by
  obtain ⟨-, d, hd, -, rfl⟩ := (decodeBounded_ok_iff _ _ _ _ _).mp h
  unfold verifyEncodedBounded verifyEncoded
  rw [h, hd, ok_bind, ok_bind]
  by_cases hpwd : pwd.length > maxPwdLength.toNat
  · rw [if_pos hpwd, if_pos hpwd]
  · rw [if_neg hpwd, if_neg hpwd]
    exact verify_sameCosts host compress _ _ (clampThreads_sameCosts ceiling d.params) _ _ _ _ _

/-- Bounded verification is verification under a ceiling: what `decode_bounded` accepts and
returns, what its length gate lets through, which error it reports, and that it
decides every password as the plain entry point does. -/
theorem decodeBounded_exact (encoded : List UInt8) (algorithm : Algorithm)
    (ceiling : Params host.width) :
    (∀ d', decodeBounded host encoded algorithm ceiling = .ok d' ↔
      encoded.length ≤ maxEncoded host algorithm ceiling ∧
      ∃ d, decodeString host encoded algorithm = .ok d ∧ Within d.params ceiling ∧
        d' = { d with params := clampThreads ceiling d.params }) ∧
    (host.width = .bits64 → ∀ d, decodeString host encoded algorithm = .ok d →
      d.salt.length ≤ 1024 → Within d.params ceiling →
        encoded.length ≤ maxEncoded host algorithm ceiling) ∧
    (∀ e, decodeBounded host encoded algorithm ceiling = .error e ↔
      (maxEncoded host algorithm ceiling < encoded.length ∧ e = .decodingLengthFail) ∨
      (encoded.length ≤ maxEncoded host algorithm ceiling ∧
        decodeString host encoded algorithm = .error e) ∨
      (encoded.length ≤ maxEncoded host algorithm ceiling ∧
        ∃ d, decodeString host encoded algorithm = .ok d ∧
          (exceeded d.params ceiling).head? = some e)) ∧
    (∀ d, decodeString host encoded algorithm = .ok d →
      ParamsBuilder.build host.width
          { d.params.toBuilder with threads := some (min ceiling.threads d.params.lanes) } =
        .ok (clampThreads ceiling d.params)) ∧
    ∀ d', decodeBounded host encoded algorithm ceiling = .ok d' →
      ∀ (scheduler scheduler' : Scheduler) (pwd : List UInt8),
        verifyEncodedBounded host compress (pooledFill scheduler) encoded pwd algorithm ceiling =
          verifyEncoded host compress (pooledFill scheduler') encoded pwd algorithm := by
  refine ⟨?_, ?_, ?_, ?_, ?_⟩
  · exact decodeBounded_ok_iff host encoded algorithm ceiling
  · exact fun hw => length_le_maxEncoded host encoded algorithm ceiling hw
  · exact decodeBounded_error_iff host encoded algorithm ceiling
  · intro d _
    exact build_clamp ceiling d.params
  · intro d' h scheduler scheduler' pwd
    exact verifyEncodedBounded_eq host compress encoded pwd algorithm ceiling d' h _ _

theorem decodeBounded_exact_least :
    decodeBounded plainHost leastString .argon2id Params.least = .ok leastDecoded ∧
      ∀ (scheduler scheduler' : Scheduler) (pwd : List UInt8),
        verifyEncodedBounded plainHost compressScalar (pooledFill scheduler) leastString pwd
            .argon2id Params.least =
          verifyEncoded plainHost compressScalar (pooledFill scheduler') leastString pwd
            .argon2id := by
  obtain ⟨hok, hgate, -, -, hverify⟩ :=
    decodeBounded_exact plainHost compressScalar leastString .argon2id Params.least
  have hwithin : Within leastDecoded.params Params.least :=
    ⟨by decide, by decide, by decide, by decide⟩
  have hlen := hgate rfl leastDecoded decodeString_leastString (by decide) hwithin
  have hclamp : leastDecoded =
      { leastDecoded with params := clampThreads Params.least leastDecoded.params } := by
    rw [clampThreads_self _ _ (by decide)]
  have h := (hok leastDecoded).mpr
    ⟨hlen, leastDecoded, decodeString_leastString, hwithin, hclamp⟩
  exact ⟨h, hverify leastDecoded h⟩

end Verify

end Argon2Rust.Verification
