import Argon2Rust.Compression
import Argon2Rust.Rfc9106

set_option autoImplicit false

/-!
# The recurrence of the specification

Section 3.2 of the Argon2 RFC over a matrix with one value of `B[i][j]` for
every pass, and no arena, offsets or loops. `window` is the ordered set `W` of
section 3.4.2, written out as a list of columns. A reference to a column before
the current one is to the block of this pass, any other to the one that the
previous pass left there.
-/
namespace Argon2Rust.Recurrence
open Parameters Compression Rfc9106

structure Setting where
  lanes : ℕ
  segment : ℕ
  passes : ℕ
  algorithm : Algorithm
  version : Version
  first : ℕ → ℕ → Block

namespace Setting
variable (S : Setting)

def columns : ℕ := 4 * S.segment

def memory : ℕ := S.lanes * S.columns

def independent (r s : ℕ) : Bool :=
  S.algorithm = .argon2i || (S.algorithm = .argon2id && r = 0 && s < 2)

def addressInput (r i s counter : ℕ) : Block := Vector.ofFn fun k =>
  ([r, i, s, S.memory, S.passes, typeNumber S.algorithm, counter].map UInt64.ofNat).getD k 0

def addressBlock (r i s counter : ℕ) : Block :=
  compressG Block.zero (compressG Block.zero (S.addressInput r i s counter))

/-- `J1 || J2` for the block in column `j`, whose predecessor is `prev`. -/
def pseudoRandom (r i j : ℕ) (prev : Block) : UInt64 :=
  if S.independent r (j / S.segment) then
    (S.addressBlock r i (j / S.segment) (j % S.segment / 128 + 1)).get
      ⟨j % S.segment % 128, Nat.mod_lt _ (by decide)⟩
  else prev.get ⟨0, firstWord_lt⟩

def refLane (r i j : ℕ) (J : UInt64) : ℕ :=
  if r = 0 ∧ j / S.segment = 0 then i else J.toNat / 2 ^ 32 % S.lanes

/-- The segments finished before segment `s`, oldest first: at most the last three. -/
def finished (r s : ℕ) : List ℕ :=
  if r = 0 then List.range s else [(s + 1) % 4, (s + 2) % 4, (s + 3) % 4]

def segmentColumns (s n : ℕ) : List ℕ := (List.range n).map (s * S.segment + ·)

def window (r j : ℕ) (same : Bool) : List ℕ :=
  let s := j / S.segment
  let old := (finished r s).flatMap fun g => S.segmentColumns g S.segment
  if same then (old ++ S.segmentColumns s (j % S.segment)).dropLast
  else if j % S.segment = 0 then old.dropLast else old

def refColumn (r j : ℕ) (same : Bool) (J : UInt64) : ℕ :=
  let W := S.window r j same
  let J1 := J.toNat % 2 ^ 32
  let x := J1 * J1 / 2 ^ 32
  let y := W.length * x / 2 ^ 32
  W.getD (W.length - 1 - y) 0

/-- `B[i][j]` after pass `r`. -/
def matrix (r i j : ℕ) : Block :=
  if r = 0 ∧ j < 2 then S.first i j
  else
    let prev := if j = 0 then matrix (r - 1) i (S.columns - 1) else matrix r i (j - 1)
    let J := S.pseudoRandom r i j prev
    let l := S.refLane r i j J
    let z := S.refColumn r j (l = i) J
    let ref := if z < j then matrix r l z else if r = 0 then Block.zero else matrix (r - 1) l z
    let new := compressG prev ref
    if r ≠ 0 ∧ S.version ≠ .v0x10 then new.xorWith (matrix (r - 1) i j) else new
termination_by (r, j)

/-- The XOR of the last column. -/
def final : Block := (List.range S.lanes).foldl
  (fun acc i => acc.xorWith (S.matrix (S.passes - 1) i (S.columns - 1))) Block.zero

end Setting

end Argon2Rust.Recurrence

namespace Argon2Rust.Rfc9106.Request
open Compression Recurrence

variable (R : Request) (F : CompressionFunction)

/-- The first two columns come from `H_0`. -/
def setting : Setting where
  lanes := R.lanes
  segment := R.memory / (4 * R.lanes)
  passes := R.passes
  algorithm := R.algorithm
  version := R.version
  first i j := Block.fromLeBytes (variableHash (Rfc7693.digest F) 1024
    (R.prehash F ++ littleEndian32 j ++ littleEndian32 i))

def tag : List UInt8 :=
  variableHash (Rfc7693.digest F) R.tagLength (R.setting F).final.toLeBytes

end Argon2Rust.Rfc9106.Request
