import Argon2Rust.Parameters
import Argon2Rust.Rfc7693

set_option autoImplicit false

namespace Argon2Rust.Rfc9106
open Parameters

abbrev CompressionFunction := Rfc7693.Chain → Rfc7693.Message → ℕ → Bool → Rfc7693.Chain

def littleEndian32 (n : ℕ) : List UInt8 := (List.range 4).map fun k => UInt8.ofNat (n / 256 ^ k)

section VariableHash
variable (H : ℕ → List UInt8 → List UInt8) (n : ℕ) (input : List UInt8)

/-- `V_i`, with the length and the input in the place of `V_0`. -/
def v : ℕ → List UInt8
  | 0 => littleEndian32 n ++ input
  | i + 1 => H 64 (v i)

def blockCount : ℕ := (n + 31) / 32 - 2

/-- `H'^T` from a hash of any length up to 64. -/
def variableHash : List UInt8 :=
  if n ≤ 64 then H n (v H n input 0)
  else ((List.range (blockCount n)).flatMap fun i => (v H n input (i + 1)).take 32) ++
    H (n - 32 * blockCount n) (v H n input (blockCount n))

theorem v_congr {H H' : ℕ → List UInt8 → List UInt8} (h : ∀ x, H 64 x = H' 64 x) (i : ℕ) :
    v H n input i = v H' n input i := by
  induction i with
  | zero => rfl
  | succ i ih => rw [v, v, ih, h]

/-- The last digest has between 33 and 64 bytes. -/
theorem blockCount_spec (hn : 64 < n) :
    1 ≤ blockCount n ∧ 32 * blockCount n + 33 ≤ n ∧ n ≤ 32 * blockCount n + 64 := by
  unfold blockCount
  omega

theorem variableHash_congr {H H' : ℕ → List UInt8 → List UInt8}
    (h : ∀ k ≤ 64, ∀ x, H k x = H' k x) : variableHash H n input = variableHash H' n input := by
  have hv := v_congr n input (h 64 le_rfl)
  unfold variableHash
  by_cases hn : n ≤ 64
  · rw [if_pos hn, if_pos hn, hv, h n hn]
  · have hlast := blockCount_spec n (by omega)
    rw [if_neg hn, if_neg hn, hv, h _ (by omega)]
    simp only [hv]

end VariableHash

structure Request where
  message : List UInt8
  nonce : List UInt8
  secret : List UInt8
  associatedData : List UInt8
  lanes : ℕ
  tagLength : ℕ
  memory : ℕ
  passes : ℕ
  version : Version
  algorithm : Algorithm

def versionNumber : Version → ℕ
  | .v0x10 => 0x10
  | .v0x13 => 0x13

def typeNumber : Algorithm → ℕ
  | .argon2d => 0
  | .argon2i => 1
  | .argon2id => 2

def withLength (bytes : List UInt8) : List UInt8 := littleEndian32 bytes.length ++ bytes

namespace Request
variable (R : Request) (F : CompressionFunction)

def preimage : List UInt8 :=
  littleEndian32 R.lanes ++ littleEndian32 R.tagLength ++ littleEndian32 R.memory ++
    littleEndian32 R.passes ++ littleEndian32 (versionNumber R.version) ++
    littleEndian32 (typeNumber R.algorithm) ++ withLength R.message ++ withLength R.nonce ++
    withLength R.secret ++ withLength R.associatedData

/-- `H_0`. -/
def prehash : List UInt8 := Rfc7693.digest F 64 R.preimage

end Request

end Argon2Rust.Rfc9106
