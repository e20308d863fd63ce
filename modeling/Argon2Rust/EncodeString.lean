import Argon2Rust.Base64Targets
import Argon2Rust.Blake2Stream
import Argon2Rust.Capacity
import Argon2Rust.Programs

set_option autoImplicit false

namespace Argon2Rust.EncodeString
open Parameters Sextets Base64 Base64Blocks Base64Targets Blake2Stream Encoding Capacity Programs

/-- The destination of a `Writer` and its cursor. -/
structure Dest where
  dst : List UInt8
  pos : ℕ

abbrev Puts := Program Dest Error

def put (bytes : List UInt8) : Puts Unit := do
  let o ← Program.get
  let remaining ← Program.access (checkedSub o.dst.length o.pos)
  if bytes.length ≥ remaining then Program.lift (.error .encodingFail)
  else do
    let dst ← Program.access (store o.dst o.pos bytes)
    Program.set ⟨dst, o.pos + bytes.length⟩

def putU32 (value : UInt32) : Puts Unit := put (Writer.digits 10 value [])

def putBase64 (target : Target) (backend : Base64Backend) (src : List UInt8) : Puts Unit := do
  let o ← Program.get
  let room ← Program.access (sliceFrom o.dst o.pos)
  let stored ← Program.access (toBase64 room src target backend)
  Program.set ⟨o.dst.take o.pos ++ stored.1, o.pos⟩
  let written ← Program.lift stored.2
  Program.set ⟨o.dst.take o.pos ++ stored.1, o.pos + written⟩

section Encoder
variable {w : PointerWidth} (target : Target) (backend : Base64Backend) (algorithm : Algorithm)
  (version : Version) (params : Params w) (salt hash : List UInt8)

def encodeString : Puts ℕ := do
  Program.lift (validateForString params salt.length hash.length)
  put (ascii "$")
  put (asStr algorithm)
  put (ascii "$v=")
  putU32 version.asU32
  put (ascii "$m=")
  putU32 params.memoryKib
  put (ascii ",t=")
  putU32 params.passes
  put (ascii ",p=")
  putU32 params.lanes
  put (ascii "$")
  putBase64 target backend salt
  put (ascii "$")
  putBase64 target backend hash
  let o ← Program.get
  pure o.pos

/-- What the fourteen writes write. -/
def pieces : List (List UInt8) :=
  [ascii "$", asStr algorithm, ascii "$v=", decimal version.asU32.toNat, ascii "$m=",
    decimal params.memoryKib.toNat, ascii ",t=", decimal params.passes.toNat, ascii ",p=",
    decimal params.lanes.toNat, ascii "$", text salt, ascii "$", text hash]

theorem pieces_flatten : (pieces algorithm version params salt hash).flatten =
    phcString algorithm version params salt hash := by
  unfold pieces phcString render versionField
  simp only [List.flatten_cons, List.flatten_nil, List.append_nil, List.append_assoc]

end Encoder

def putAll : List (List UInt8) → Puts Unit
  | [] => pure ()
  | piece :: pieces => do
    put piece
    putAll pieces

section Puts

theorem putU32_eq (value : UInt32) : putU32 value = put (decimal value.toNat) := by
  have hv := value.toNat_lt
  unfold putU32
  rw [Writer.digits_eq 9 value [] (by omega), List.append_nil]

theorem put_apply (o : Dest) (bytes : List UInt8) (hpos : o.pos ≤ o.dst.length) :
    put bytes o = if bytes.length ≥ o.dst.length - o.pos then some (.error .encodingFail, o)
      else some (.ok (), ⟨o.dst.take o.pos ++ (bytes ++ o.dst.drop (o.pos + bytes.length)),
        o.pos + bytes.length⟩) := by
  have hsub : checkedSub o.dst.length o.pos = some (o.dst.length - o.pos) := if_pos hpos
  unfold put
  rw [Program.get_bind, hsub, Program.access_some_bind]
  by_cases h : bytes.length ≥ o.dst.length - o.pos
  · rw [if_pos h, if_pos h]
    rfl
  · have hstore : store o.dst o.pos bytes =
        some (o.dst.take o.pos ++ (bytes ++ o.dst.drop (o.pos + bytes.length))) :=
      if_pos (by omega)
    rw [if_neg h, if_neg h, hstore, Program.access_some_bind, Program.set_apply]

theorem putBase64_eq {target : Target} (ht : target.Lawful) (backend : Base64Backend)
    (src : List UInt8) : putBase64 target backend src = put (text src) := by
  funext o
  have hlen := text_length src
  by_cases hpos : o.pos ≤ o.dst.length
  · have hslice : sliceFrom o.dst o.pos = some (o.dst.drop o.pos) := if_pos hpos
    have hroom : (o.dst.drop o.pos).length = o.dst.length - o.pos := List.length_drop
    unfold putBase64
    rw [Program.get_bind, hslice, Program.access_some_bind, toBase64_eq _ _ _ ht,
      put_apply o _ hpos]
    by_cases h : (text src).length ≥ o.dst.length - o.pos
    · rw [if_pos h, toBase64Scalar_short _ _ (by omega), Program.access_some_bind,
        Program.set_bind, List.take_append_drop]
      rfl
    · rw [if_neg h, toBase64Scalar_eq _ _ (by omega), Program.access_some_bind, Program.set_bind,
        Program.lift_ok_bind, Program.set_apply, overlay, List.drop_drop]
  · have hslice : sliceFrom o.dst o.pos = none := if_neg hpos
    have hsub : checkedSub o.dst.length o.pos = none := if_neg hpos
    unfold putBase64 put
    rw [Program.get_bind, hslice, Program.get_bind, hsub]
    rfl

variable (dst : List UInt8)

theorem put_overlay (written bytes : List UInt8) (h : written.length + bytes.length < dst.length) :
    put bytes ⟨overlay written dst, written.length⟩ =
      some (.ok (), ⟨overlay (written ++ bytes) dst, (written ++ bytes).length⟩) := by
  have hlen := @overlay_length written dst (by omega)
  have hstore := store_overlay written bytes dst (by omega)
  have hsub : checkedSub (overlay written dst).length written.length =
      some (dst.length - written.length) := by
    rw [hlen]
    exact if_pos (by omega)
  unfold put
  rw [Program.get_bind, hsub, Program.access_some_bind, if_neg (by omega), hstore,
    Program.access_some_bind, Program.set_apply, List.length_append]

theorem put_full (written bytes : List UInt8) (hle : written.length ≤ dst.length)
    (h : dst.length ≤ written.length + bytes.length) :
    put bytes ⟨overlay written dst, written.length⟩ =
      some (.error .encodingFail, ⟨overlay written dst, written.length⟩) := by
  have hlen := @overlay_length written dst hle
  rw [put_apply _ _ (by rw [hlen]; exact hle), if_pos (by rw [hlen]; dsimp only; omega)]

theorem putAll_overlay (pieces : List (List UInt8)) (written : List UInt8)
    (h : written.length + pieces.flatten.length < dst.length) :
    putAll pieces ⟨overlay written dst, written.length⟩ =
      some (.ok (), ⟨overlay (written ++ pieces.flatten) dst,
        (written ++ pieces.flatten).length⟩) := by
  induction pieces generalizing written with
  | nil =>
    rw [List.flatten_nil, List.append_nil]
    rfl
  | cons piece pieces ih =>
    rw [List.flatten_cons, List.length_append] at h
    rw [putAll, Program.bind_of_ok (put_overlay dst written piece (by omega)),
      ih (written ++ piece) (by rw [List.length_append]; omega), List.flatten_cons,
      List.append_assoc]

/-- When the pieces do not fit with a byte to spare, one of the writes fails. -/
theorem putAll_full (pieces : List (List UInt8)) (written : List UInt8)
    (hle : written.length ≤ dst.length) (hne : pieces ≠ [])
    (h : dst.length ≤ written.length + pieces.flatten.length) :
    ∃ o, putAll pieces ⟨overlay written dst, written.length⟩ = some (.error .encodingFail, o) := by
  induction pieces generalizing written with
  | nil => exact absurd rfl hne
  | cons piece pieces ih =>
    rw [List.flatten_cons, List.length_append] at h
    rw [putAll]
    by_cases hfull : dst.length ≤ written.length + piece.length
    · exact ⟨_, Program.bind_of_error (put_full dst written piece hle hfull)⟩
    · rw [Program.bind_of_ok (put_overlay dst written piece (by omega))]
      refine ih (written ++ piece) (by rw [List.length_append]; omega) ?_
        (by rw [List.length_append]; omega)
      intro hnil
      rw [hnil, List.flatten_nil, List.length_nil] at h
      omega

end Puts

section Size
variable {w : PointerWidth} {target : Target} (ht : target.Lawful) (backend : Base64Backend)
  (algorithm : Algorithm) (version : Version) (params : Params w) (salt hash : List UInt8)
include ht

theorem encodeString_eq :
    encodeString target backend algorithm version params salt hash = (do
      Program.lift (validateForString params salt.length hash.length)
      putAll (pieces algorithm version params salt hash)
      let o ← Program.get
      pure o.pos) := by
  unfold encodeString pieces
  simp only [putU32_eq, putBase64_eq ht, putAll, Program.bind_assoc, Program.pure_bind]

variable (dst : List UInt8)
  (hv : validateForString params salt.length hash.length = .ok ())
include hv

theorem encodeString_fits
    (h : (phcString algorithm version params salt hash).length < dst.length) :
    encodeString target backend algorithm version params salt hash ⟨dst, 0⟩ =
      some (.ok (phcString algorithm version params salt hash).length,
        ⟨overlay (phcString algorithm version params salt hash) dst,
          (phcString algorithm version params salt hash).length⟩) := by
  have hall := putAll_overlay dst (pieces algorithm version params salt hash) []
    (by rw [pieces_flatten, List.length_nil]; omega)
  rw [pieces_flatten, List.nil_append, List.length_nil] at hall
  rw [encodeString_eq ht, hv, Program.lift_ok_bind]
  change (putAll _ >>= _) ⟨overlay [] dst, _⟩ = _
  rw [Program.bind_of_ok hall]
  rfl

theorem encodeString_short
    (h : dst.length ≤ (phcString algorithm version params salt hash).length) :
    ∃ o, encodeString target backend algorithm version params salt hash ⟨dst, 0⟩ =
      some (.error .encodingFail, o) := by
  obtain ⟨o, ho⟩ := putAll_full dst (pieces algorithm version params salt hash) []
    (Nat.zero_le _) (by unfold pieces; simp) (by rw [pieces_flatten, List.length_nil]; omega)
  rw [encodeString_eq ht, hv, Program.lift_ok_bind]
  change ∃ o, (putAll _ >>= _) ⟨overlay [] dst, _⟩ = _
  exact ⟨o, Program.bind_of_error ho⟩

end Size

theorem encodedLen_lt {params : Params .bits64} {salt hash : List UInt8} (algorithm : Algorithm)
    (hv : validateForString params salt.length hash.length = .ok ()) :
    encodedLen algorithm params.passes params.memoryKib params.lanes salt.length hash.length <
      2 ^ 63 := by
  have hlen := ((validateInputs_ok_iff _ _ _ _ _ _ _ _ _ _).mp hv).1
  have hsalt := hlen.salt_le
  have hhash := hlen.out_le
  have ht := numLen_le params.passes
  have hm := numLen_le params.memoryKib
  have hp := numLen_le params.lanes
  have hversion := numLen_le Version.v0x13.asU32
  have hfixed : (ascii "$$v=$m=,t=,p=$$").length = 15 := rfl
  have hname : (asStr algorithm).length ≤ 8 := by cases algorithm <;> decide
  unfold encodedLen
  rw [hfixed, b64LenUsize_eq, b64LenUsize_eq, encodedLength, encodedLength]
  omega

/-- Nothing but the reservation can fail after the validation. -/
theorem encodeStringAlloc_ne_encodingFail (algorithm : Algorithm) (version : Version)
    (params : Params .bits64) (salt hash : List UInt8)
    (hv : validateForString params salt.length hash.length = .ok ()) (host : Host)
    (hwidth : host.width = .bits64) :
    encodeStringAlloc algorithm version params salt hash host ≠ .error .encodingFail := by
  have hlt := encodedLen_lt algorithm hv
  rw [encodedLen_eq algorithm version] at hlt
  have hwrap : wrapUsize host.width ((phcString algorithm version params salt hash).length + 1) =
      (phcString algorithm version params salt hash).length + 1 := by
    rw [hwidth]
    exact Nat.mod_eq_of_lt (hlt.trans (by decide))
  rw [encodeStringAlloc_unfold, hv, ok_bind, hwrap]
  intro h
  cases hr : reserveVec host ((phcString algorithm version params salt hash).length + 1) with
  | error e =>
    rw [hr, reserveVec_error host _ e hr] at h
    cases h
  | ok u =>
    rw [hr, ok_bind, put_of_fits _ _ (Nat.lt_succ_self _)] at h
    cases h

/-- `encode_string` needs exactly the bytes that `encoded_len` counts, and writes
all of them but the last. -/
theorem encodeString_exact (arch : Architecture) (backend : Base64Backend) (algorithm : Algorithm)
    (version : Version) (params : Params .bits64) (salt hash : List UInt8)
    (hv : validateForString params salt.length hash.length = .ok ()) :
    ∃ n, encodedLen algorithm params.passes params.memoryKib params.lanes salt.length hash.length =
        n ∧
      stringCapacity .bits64 algorithm params.passes params.memoryKib params.lanes salt.length
        hash.length = some n ∧
      (∀ dst : List UInt8, n ≤ dst.length →
        encodeString (arch.target .bits64) backend algorithm version params salt hash ⟨dst, 0⟩ =
          some (.ok (n - 1),
            ⟨phcString algorithm version params salt hash ++ dst.drop (n - 1), n - 1⟩)) ∧
      (phcString algorithm version params salt hash).length = n - 1 ∧
      (∀ dst : List UInt8, dst.length < n →
        ∃ o, encodeString (arch.target .bits64) backend algorithm version params salt hash ⟨dst, 0⟩ =
          some (.error .encodingFail, o)) ∧
      ∀ host : Host, host.width = .bits64 →
        encodeStringAlloc algorithm version params salt hash host ≠ .error .encodingFail := by
  have hlt := encodedLen_lt algorithm hv
  have hlen := encodedLen_eq algorithm version params salt hash
  have ht := target_lawful .bits64 arch
  refine ⟨_, rfl, (stringCapacity_eq_some _ _ _ _ _ _ _ _).mpr ⟨hlt.trans (by decide), rfl⟩, ?_, ?_,
    ?_, encodeStringAlloc_ne_encodingFail algorithm version params salt hash hv⟩
  · intro dst hroom
    rw [encodeString_fits ht backend algorithm version params salt hash dst hv (by omega), hlen]
    rfl
  · rw [hlen]
    rfl
  · intro dst hshort
    exact encodeString_short ht backend algorithm version params salt hash dst hv (by omega)

theorem encodeString_exact_least :
    ∃ n, stringCapacity .bits64 .argon2id Params.least.passes Params.least.memoryKib
        Params.least.lanes 8 4 = some n ∧
      ∀ dst : List UInt8, dst.length < n →
        ∃ o, encodeString (Architecture.x86.target .bits64) .avx2 .argon2id .v0x13 Params.least
          (List.replicate 8 0) (List.replicate 4 0) ⟨dst, 0⟩ = some (.error .encodingFail, o) := by
  obtain ⟨n, -, hn, -, -, hshort, -⟩ := encodeString_exact .x86 .avx2 .argon2id .v0x13 Params.least
    (List.replicate 8 0) (List.replicate 4 0) (by decide)
  exact ⟨n, hn, hshort⟩

end Argon2Rust.EncodeString
