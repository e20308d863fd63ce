import Argon2Rust.Base64Neon
import Argon2Rust.Base64Wasm
import Argon2Rust.Base64X86

set_option autoImplicit false

namespace Argon2Rust.Base64Targets
open Parameters Base64 Base64Blocks Base64X86 Base64Neon Base64Wasm

inductive Architecture where
  | x86
  | aarch64
  | wasm32
  | other
  deriving DecidableEq, Repr

def scalarOnly (w : PointerWidth) : Target where
  minEncodeLen := 2 ^ w.bits - 1
  minDecodeLen := 2 ^ w.bits - 1
  encodePrefix _ dst _ := some ⟨dst, 0, 0⟩
  decodePrefix _ dst _ := some ⟨dst, 0, 0⟩

theorem scalarOnly_lawful (w : PointerWidth) : (scalarOnly w).Lawful where
  encode _ _ _ _ := ⟨_, rfl, encoded_start⟩
  decode _ _ _ := ⟨_, [], rfl, decoded_start⟩

def Architecture.target (w : PointerWidth) : Architecture → Target
  | .x86 => Base64X86.x86
  | .aarch64 => Base64Neon.aarch64
  | .wasm32 => Base64Wasm.wasm32
  | .other => scalarOnly w

theorem target_lawful (w : PointerWidth) (arch : Architecture) : (arch.target w).Lawful := by
  cases arch with
  | x86 => exact x86_lawful
  | aarch64 => exact aarch64_lawful
  | wasm32 => exact wasm32_lawful
  | other => exact scalarOnly_lawful w

end Argon2Rust.Base64Targets
