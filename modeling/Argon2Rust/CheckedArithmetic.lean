import Mathlib.Tactic

set_option autoImplicit false

namespace Argon2Rust.CheckedArithmetic

def add8 (x y : UInt8) : Option UInt8 :=
  if x.toNat + y.toNat < 2 ^ 8 then some (x + y) else none

def sub8 (x y : UInt8) : Option UInt8 := if y.toNat ≤ x.toNat then some (x - y) else none

def add32 (x y : UInt32) : Option UInt32 :=
  if x.toNat + y.toNat < 2 ^ 32 then some (x + y) else none

def sub32 (x y : UInt32) : Option UInt32 := if y.toNat ≤ x.toNat then some (x - y) else none

def mul32 (x y : UInt32) : Option UInt32 :=
  if x.toNat * y.toNat < 2 ^ 32 then some (x * y) else none

def div32 (x y : UInt32) : Option UInt32 := if 0 < y.toNat then some (x / y) else none

def add64 (x y : UInt64) : Option UInt64 :=
  if x.toNat + y.toNat < 2 ^ 64 then some (x + y) else none

def sub64 (x y : UInt64) : Option UInt64 := if y.toNat ≤ x.toNat then some (x - y) else none

def mul64 (x y : UInt64) : Option UInt64 :=
  if x.toNat * y.toNat < 2 ^ 64 then some (x * y) else none

def narrow (x : UInt64) : Option UInt32 := if x.toNat < 2 ^ 32 then some x.toUInt32 else none

theorem bind_of_some {α β : Type} {x : Option α} {a : α} (h : x = some a) (k : α → Option β) :
    (x >>= k) = k a := by
  rw [h]
  rfl

section Success8
variable {x y : UInt8}

theorem add8_eq (h : x.toNat + y.toNat < 2 ^ 8) : add8 x y = some (x + y) := if_pos h

theorem sub8_eq (h : y.toNat ≤ x.toNat) : sub8 x y = some (x - y) := if_pos h

end Success8

section Success32
variable {x y : UInt32}

theorem add32_eq (h : x.toNat + y.toNat < 2 ^ 32) : add32 x y = some (x + y) := if_pos h

theorem sub32_eq (h : y.toNat ≤ x.toNat) : sub32 x y = some (x - y) := if_pos h

theorem mul32_eq (h : x.toNat * y.toNat < 2 ^ 32) : mul32 x y = some (x * y) := if_pos h

theorem div32_eq (h : 0 < y.toNat) : div32 x y = some (x / y) := if_pos h

theorem toNat_add32 (h : x.toNat + y.toNat < 2 ^ 32) : (x + y).toNat = x.toNat + y.toNat := by
  rw [UInt32.toNat_add, Nat.mod_eq_of_lt h]

theorem toNat_sub32 (h : y.toNat ≤ x.toNat) : (x - y).toNat = x.toNat - y.toNat := by
  have hx := x.toNat_lt
  have hy := y.toNat_lt
  rw [UInt32.toNat_sub]
  omega

theorem toNat_mul32 (h : x.toNat * y.toNat < 2 ^ 32) : (x * y).toNat = x.toNat * y.toNat := by
  rw [UInt32.toNat_mul, Nat.mod_eq_of_lt h]

end Success32

section Success64
variable {x y : UInt64}

theorem add64_eq (h : x.toNat + y.toNat < 2 ^ 64) : add64 x y = some (x + y) := if_pos h

theorem sub64_eq (h : y.toNat ≤ x.toNat) : sub64 x y = some (x - y) := if_pos h

theorem mul64_eq (h : x.toNat * y.toNat < 2 ^ 64) : mul64 x y = some (x * y) := if_pos h

theorem narrow_eq (h : x.toNat < 2 ^ 32) : narrow x = some x.toUInt32 := if_pos h

theorem toNat_add64 (h : x.toNat + y.toNat < 2 ^ 64) : (x + y).toNat = x.toNat + y.toNat := by
  rw [UInt64.toNat_add, Nat.mod_eq_of_lt h]

theorem toNat_mul64 (h : x.toNat * y.toNat < 2 ^ 64) : (x * y).toNat = x.toNat * y.toNat := by
  rw [UInt64.toNat_mul, Nat.mod_eq_of_lt h]

end Success64

end Argon2Rust.CheckedArithmetic
