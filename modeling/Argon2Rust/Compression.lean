import Argon2Rust.Bytes

set_option autoImplicit false

/-!
# Blocks and the scalar compression function

A `Block` is the 1 KiB `[u64; 128]` of `block.rs`. `fillBlock` returns the new
value of `next_block` and `nextAddresses` the two blocks it updates, both as in
`fill_block/scalar.rs`; the second call of `next_addresses` has `ref == next`,
for which the source copies the block first. `compressG` is `G` of the
specification: `fill_block` without xor, which never reads its destination.
-/
namespace Argon2Rust.Compression
open Bytes

abbrev Block := Vector UInt64 128

namespace Block

def zero : Block := Vector.replicate 128 0

def xorWith (a b : Block) : Block := Vector.zipWith (· ^^^ ·) a b

def fromLeBytes (bytes : List UInt8) : Block := Vector.ofFn fun k => word bytes k.val

def toLeBytes (b : Block) : List UInt8 := b.toList.flatMap le64

theorem xorWith_get (a b : Block) (k : ℕ) (h : k < 128) : (xorWith a b)[k] = a[k] ^^^ b[k] :=
  Vector.getElem_zipWith h

theorem xorWith_comm (a b : Block) : xorWith a b = xorWith b a := by
  ext k h
  rw [xorWith_get _ _ k h, xorWith_get _ _ k h, UInt64.xor_comm]

theorem xorWith_assoc (a b c : Block) : xorWith (xorWith a b) c = xorWith a (xorWith b c) := by
  ext k h
  simp only [xorWith_get _ _ k h, UInt64.xor_assoc]

end Block

def fBlamka (x y : UInt64) : UInt64 :=
  let xy := (x &&& 0xFFFFFFFF) * (y &&& 0xFFFFFFFF)
  x + y + xy * 2

def gValues (a b c d : UInt64) : UInt64 × UInt64 × UInt64 × UInt64 :=
  let a := fBlamka a b
  let d := rotateRight (d ^^^ a) 32
  let c := fBlamka c d
  let b := rotateRight (b ^^^ c) 24
  let a := fBlamka a b
  let d := rotateRight (d ^^^ a) 16
  let c := fBlamka c d
  let b := rotateRight (b ^^^ c) 63
  (a, b, c, d)

def gAt (v : Vector UInt64 16) (ia ib ic id : Fin 16) : Vector UInt64 16 :=
  let r := gValues v[ia] v[ib] v[ic] v[id]
  (((v.set ia r.1).set ib r.2.1).set ic r.2.2.1).set id r.2.2.2

def blake2RoundNomsg (v : Vector UInt64 16) : Vector UInt64 16 :=
  let v := gAt v 0 4 8 12
  let v := gAt v 1 5 9 13
  let v := gAt v 2 6 10 14
  let v := gAt v 3 7 11 15
  let v := gAt v 0 5 10 15
  let v := gAt v 1 6 11 12
  let v := gAt v 2 7 8 13
  gAt v 3 4 9 14

/-- One round over the sixteen words that `slot` selects, written back in place. -/
def roundAt (r : Block) (slot : Fin 16 → Fin 128) : Block :=
  let v := blake2RoundNomsg (Vector.ofFn fun j => r[slot j])
  Fin.foldl 16 (fun r j => r.set (slot j) v[j]) r

def columnSlot (i : Fin 8) (j : Fin 16) : Fin 128 := ⟨16 * i.val + j.val, by omega⟩

def rowSlot (i : Fin 8) (j : Fin 16) : Fin 128 :=
  ⟨2 * i.val + 16 * (j.val / 2) + j.val % 2, by omega⟩

def permute (blockR : Block) : Block :=
  let r := Fin.foldl 8 (fun r i => roundAt r (columnSlot i)) blockR
  Fin.foldl 8 (fun r i => roundAt r (rowSlot i)) r

def fillBlock (prevBlock refBlock nextBlock : Block) (withXor : Bool) : Block :=
  let blockR := refBlock.xorWith prevBlock
  let blockTmp := if withXor then blockR.xorWith nextBlock else blockR
  blockTmp.xorWith (permute blockR)

theorem firstWord_lt : 0 < 128 := by decide

theorem counterWord_lt : 6 < 128 := by decide

/-- `next_addresses`: the new address block and the input block with its counter bumped. -/
def nextAddresses (addressBlock inputBlock : Block) : Block × Block :=
  let inputBlock := inputBlock.set 6 (inputBlock.get ⟨6, counterWord_lt⟩ + 1) counterWord_lt
  let seed := fillBlock Block.zero inputBlock addressBlock false
  (fillBlock Block.zero seed seed false, inputBlock)

def compressG (x y : Block) : Block := fillBlock x y Block.zero false

theorem fillBlock_overwrite (x y next : Block) : fillBlock x y next false = compressG x y := rfl

theorem fillBlock_withXor (x y next : Block) :
    fillBlock x y next true = (compressG x y).xorWith next := by
  simp only [fillBlock, compressG, if_true, Bool.false_eq_true, if_false]
  rw [Block.xorWith_assoc, Block.xorWith_comm next, ← Block.xorWith_assoc]

theorem nextAddresses_fst (a z : Block) :
    (nextAddresses a z).1 =
      compressG Block.zero (compressG Block.zero
        (z.set 6 (z.get ⟨6, counterWord_lt⟩ + 1) counterWord_lt)) := rfl

theorem nextAddresses_snd (a z : Block) : (nextAddresses a z).2 =
    z.set 6 (z.get ⟨6, counterWord_lt⟩ + 1) counterWord_lt := rfl

end Argon2Rust.Compression
