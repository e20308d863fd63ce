import Argon2Rust.Blake2Avx
import Argon2Rust.Blake2Sse41
import Argon2Rust.Blake2Stream

set_option autoImplicit false

namespace Argon2Rust.Blake2Backends
open Blake2 Blake2Avx Blake2Sse41 Blake2Stream

inductive Blake2bBackend where
  | scalar
  | sse41
  | avx2
  | avx512
  deriving DecidableEq, Repr

def compressFn : Blake2bBackend → CompressFn
  | .scalar => compressScalar
  | .sse41 => compressSse41
  | .avx2 => compressAvx2
  | .avx512 => compressAvx512

/-- A new stream after updates with the pieces; `none` where a slice is out of range. -/
def streamAfter (compress : CompressFn) (outlen : ℕ) (pieces : List (List UInt8)) :
    Except Parameters.Error (Option Stream) :=
  (Stream.new outlen compress).map fun s => pieces.foldlM Stream.update s

theorem compressFn_eq (backend : Blake2bBackend) : compressFn backend = compressScalar := by
  cases backend with
  | scalar => rfl
  | sse41 => exact compressSse41_eq
  | avx2 => exact compressAvx2_eq
  | avx512 => exact compressAvx512_eq

/-- The AVX2 and AVX-512VL compressions leave `h` as the scalar one does, so every state of a
stream, every digest and every `blake2b_long` output is the same on every backend. -/
theorem avx_eq_scalar :
    (∀ h t f m, compressAvx2 h t f m = compressScalar h t f m) ∧
      (∀ h t f m, compressAvx512 h t f m = compressScalar h t f m) ∧
      ∀ backend,
        (∀ outlen pieces, streamAfter (compressFn backend) outlen pieces =
          streamAfter compressScalar outlen pieces) ∧
        (∀ outlen pieces out,
          (streamAfter (compressFn backend) outlen pieces).map (·.bind (·.finalize out)) =
            (streamAfter compressScalar outlen pieces).map (·.bind (·.finalize out))) ∧
        ∀ out input, blake2bLongWithBackend (compressFn backend) out input =
          blake2bLongWithBackend compressScalar out input := by
  refine ⟨fun h t f m => ?_, fun h t f m => ?_, fun backend => ?_⟩
  · rw [compressAvx2_eq]
  · rw [compressAvx512_eq]
  · rw [compressFn_eq]
    exact ⟨fun _ _ => rfl, fun _ _ _ => rfl, fun _ _ => rfl⟩

end Argon2Rust.Blake2Backends
