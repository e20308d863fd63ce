import Mathlib.Tactic

set_option autoImplicit false

namespace Argon2Rust.Numerals

-- One proof each for the numerals of the index types.
scoped instance two_neZero : NeZero 2 := ⟨by decide⟩
scoped instance four_neZero : NeZero 4 := ⟨by decide⟩
scoped instance eight_neZero : NeZero 8 := ⟨by decide⟩
scoped instance ten_neZero : NeZero 10 := ⟨by decide⟩
scoped instance twelve_neZero : NeZero 12 := ⟨by decide⟩
scoped instance sixteen_neZero : NeZero 16 := ⟨by decide⟩
scoped instance thirtyTwo_neZero : NeZero 32 := ⟨by decide⟩

end Argon2Rust.Numerals

namespace Argon2Rust.Bytes

def le32 (x : UInt32) : List UInt8 :=
  [x.toUInt8, (x >>> 8).toUInt8, (x >>> 16).toUInt8, (x >>> 24).toUInt8]

def le64 (x : UInt64) : List UInt8 :=
  [x.toUInt8, (x >>> 8).toUInt8, (x >>> 16).toUInt8, (x >>> 24).toUInt8,
    (x >>> 32).toUInt8, (x >>> 40).toUInt8, (x >>> 48).toUInt8, (x >>> 56).toUInt8]

/-- A short slice reads as if it were zero-padded. -/
def load64 : List UInt8 → UInt64
  | [] => 0
  | b :: bs => go 8 (b :: bs)
where
  go : ℕ → List UInt8 → UInt64
    | 0, _ => 0
    | _, [] => 0
    | n + 1, b :: bs => b.toUInt64 ||| (go n bs <<< 8)

def word (bytes : List UInt8) (k : ℕ) : UInt64 := load64 (bytes.drop (8 * k))

def rotateRight (x : UInt64) (n : UInt64) : UInt64 := (x >>> n) ||| (x <<< (64 - n))

@[simp] theorem le64_length (x : UInt64) : (le64 x).length = 8 := rfl

theorem flatMap_le64_length (xs : List UInt64) : (xs.flatMap le64).length = 8 * xs.length := by
  induction xs with
  | nil => rfl
  | cons x xs ih =>
    simp only [List.flatMap_cons, List.length_append, le64_length, ih, List.length_cons]
    omega

theorem byte_toNat (x : UInt32) (k : ℕ) (hk : k < 32) :
    (x >>> UInt32.ofNat k).toUInt8.toNat = x.toNat / 2 ^ k % 256 := by
  have hs : (UInt32.ofNat k).toNat = k := UInt32.toNat_ofNat_of_lt' (by
    rw [UInt32.size]
    omega)
  rw [UInt32.toNat_toUInt8, UInt32.toNat_shiftRight, hs, Nat.mod_eq_of_lt hk,
    Nat.shiftRight_eq_div_pow]

end Argon2Rust.Bytes
