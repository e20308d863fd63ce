import Argon2Rust.Verification

set_option autoImplicit false

namespace Argon2Rust.OneShot
open Parameters Base64 Encoding DecodeString Blake2 Segment IndexAlpha Hash Verification
open TagCorrectness Independence

structure Argon2 (w : PointerWidth) where
  algorithm : Algorithm
  version : Version
  params : Params w

def ofDecoded {w : PointerWidth} (d : Decoded w) : Argon2 w :=
  ⟨d.algorithm, d.version, d.params⟩

/-- The bytes a string authenticates with, under this password, secret and associated data. -/
def decodedInputs {w : PointerWidth} (d : Decoded w) (pwd secret ad : List UInt8) : Inputs :=
  ⟨pwd, d.salt, secret, ad⟩

namespace Argon2
variable (host : Host) (compress : CompressFn) (fill : Instance → Arena → Except Error Arena)

def hashIntoWithAd (argon2 : Argon2 host.width) (x : Inputs) (out : List UInt8) :
    Except Error (List UInt8) :=
  hashOwned compress fill host.alloc argon2.algorithm argon2.version argon2.params x out

def hashWithAd (argon2 : Argon2 host.width) (x : Inputs) : Except Error (List UInt8) := do
  let out ← tryZeroedVec host argon2.params.tagLenBytes
  argon2.hashIntoWithAd host compress fill x out

def hashEncodedWithAd (argon2 : Argon2 host.width) (x : Inputs) : Except Error (List UInt8) := do
  let tag ← argon2.hashWithAd host compress fill x
  encodeStringAlloc argon2.algorithm argon2.version argon2.params x.salt tag host

def verifyWithAd (argon2 : Argon2 host.width) (x : Inputs) (expected : List UInt8) :
    Except Error Unit :=
  Verification.verifyWithAd host compress fill argon2.algorithm argon2.version argon2.params x
    expected

def verifyEncodedWithAd (encoded pwd secret ad : List UInt8) (algorithm : Algorithm) :
    Except Error Unit :=
  if pwd.length > maxPwdLength.toNat then .error .pwdTooLong
  else do
    let decoded ← decodeString host encoded algorithm
    let argon2 := ofDecoded decoded
    let computed ← tryZeroedVec host argon2.params.tagLenBytes
    let computed ← argon2.hashIntoWithAd host compress fill (decodedInputs decoded pwd secret ad)
      computed
    if constantTimeEq computed decoded.hash then .ok () else .error .verifyMismatch

def verifyEncodedBoundedWithAd (encoded pwd secret ad : List UInt8) (algorithm : Algorithm)
    (ceiling : Params host.width) : Except Error Unit :=
  if pwd.length > maxPwdLength.toNat then .error .pwdTooLong
  else do
    let decoded ← decodeBounded host encoded algorithm ceiling
    let argon2 := ofDecoded decoded
    let computed ← tryZeroedVec host argon2.params.tagLenBytes
    let computed ← argon2.hashIntoWithAd host compress fill (decodedInputs decoded pwd secret ad)
      computed
    if constantTimeEq computed decoded.hash then .ok () else .error .verifyMismatch

end Argon2

section
variable {w : PointerWidth} (compress : CompressFn) (scheduler : Scheduler) (alloc : ℕ → Bool)
  (algorithm : Algorithm) (version : Version) (p : Params w) (x : Inputs) (out : List UInt8)

theorem validateAndSize_ok_iff (blocks : ℕ) :
    validateAndSize p x out = .ok blocks ↔
      LengthsOk p.tagLenBytes x.pwd.length x.salt.length x.secret.length x.ad.length ∧
        out.length = p.tagLenBytes ∧ blocks = p.memoryBlocks.toNat := by
  unfold validateAndSize
  rw [bind_ok_iff]
  constructor
  · rintro ⟨u, hvalid, h⟩
    rw [check_ok_iff, not_not, Except.ok.injEq] at h
    exact ⟨(p.validateFor_ok_iff _ _ _ _).mp hvalid, h.1, h.2.symm⟩
  · rintro ⟨hlens, hout, rfl⟩
    refine ⟨(), (p.validateFor_ok_iff _ _ _ _).mpr hlens, ?_⟩
    rw [check_ok_iff, not_not]
    exact ⟨hout, rfl⟩

theorem arenaNew_size {blocks : ℕ} {arena : Arena} (h : Arena.new w alloc blocks = .ok arena) :
    arena.size = blocks := by
  unfold Arena.new at h
  obtain ⟨bytes, -, h⟩ := (bind_ok_iff _ _ _).mp h
  by_cases halloc : alloc bytes = true
  · rw [if_pos halloc, Except.ok.injEq] at h
    rw [← h, Array.size_replicate]
  · rw [if_neg halloc] at h
    cases h

/-- In an arena of the right size the pooled fill computes the tag of the recurrence. -/
theorem pooled_eq_rfcTag {arena : Arena} (hsize : arena.size = p.memoryBlocks.toNat)
    (hout : out.length = p.tagLenBytes) :
    hashInArena compress (pooledFill scheduler) arena algorithm version p x out =
      .ok (rfcTag compress algorithm version p x) :=
  hashInArena_eq_rfcTag compress (pooledFill scheduler) algorithm version p x
    (pooledFill_eq (new_wellFormed algorithm version p) scheduler) arena hsize out hout

/-- The one-shot hash: the checks, the allocation, and then only the tag of the recurrence. -/
theorem hashOwned_eq :
    hashOwned compress (pooledFill scheduler) alloc algorithm version p x out =
      (validateAndSize p x out >>= fun blocks => Arena.new w alloc blocks >>= fun _ =>
        .ok (rfcTag compress algorithm version p x)) := by
  unfold hashOwned
  cases hv : validateAndSize p x out with
  | error e => rfl
  | ok blocks =>
    obtain ⟨-, hout, rfl⟩ := (validateAndSize_ok_iff p x out blocks).mp hv
    rw [ok_bind, ok_bind]
    cases ha : Arena.new w alloc p.memoryBlocks.toNat with
    | error e => rfl
    | ok arena =>
      rw [ok_bind, ok_bind]
      exact pooled_eq_rfcTag compress scheduler algorithm version p x out (arenaNew_size alloc ha)
        hout

end

end Argon2Rust.OneShot
