import Argon2Rust.Bytes

set_option autoImplicit false

namespace Argon2Rust.Rfc7693
open Numerals

abbrev Word := UInt64
abbrev Lane := Fin 8
abbrev Slot := Fin 16
abbrev Chain := Vector Word 8
abbrev Message := Vector Word 16
abbrev Work := Vector Word 16

def iv : Chain := #v[
  0x6A09E667F3BCC908, 0xBB67AE8584CAA73B, 0x3C6EF372FE94F82B, 0xA54FF53A5F1D36F1,
  0x510E527FADE682D1, 0x9B05688C2B3E6C1F, 0x1F83D9ABFB41BD6B, 0x5BE0CD19137E2179]

def sigma : Vector (Vector Slot 16) 10 := #v[
  #v[0, 1, 2, 3, 4, 5, 6, 7, 8, 9, 10, 11, 12, 13, 14, 15],
  #v[14, 10, 4, 8, 9, 15, 13, 6, 1, 12, 0, 2, 11, 7, 5, 3],
  #v[11, 8, 12, 0, 5, 2, 15, 13, 10, 14, 3, 6, 7, 1, 9, 4],
  #v[7, 9, 3, 1, 13, 12, 11, 14, 2, 6, 5, 10, 4, 0, 15, 8],
  #v[9, 0, 5, 7, 2, 4, 10, 15, 14, 1, 11, 12, 6, 8, 3, 13],
  #v[2, 12, 6, 10, 0, 11, 8, 3, 4, 13, 7, 5, 15, 14, 1, 9],
  #v[12, 5, 1, 15, 14, 13, 4, 10, 0, 7, 6, 3, 9, 2, 8, 11],
  #v[13, 11, 7, 14, 12, 1, 3, 9, 5, 0, 15, 4, 8, 6, 2, 10],
  #v[6, 15, 14, 9, 11, 3, 0, 8, 12, 2, 13, 7, 1, 4, 10, 5],
  #v[10, 2, 8, 4, 7, 6, 1, 5, 15, 11, 9, 14, 3, 12, 13, 0]]

def rotr (x n : Word) : Word := (x >>> n) ||| (x <<< (64 - n))

/-- The mixing function `G` on the words `a`, `b`, `c`, `d` with the inputs `x` and `y`. -/
def mix (v : Work) (a b c d : Slot) (x y : Word) : Work :=
  let v := v.set a (v[a] + v[b] + x)
  let v := v.set d (rotr (v[d] ^^^ v[a]) 32)
  let v := v.set c (v[c] + v[d])
  let v := v.set b (rotr (v[b] ^^^ v[c]) 24)
  let v := v.set a (v[a] + v[b] + y)
  let v := v.set d (rotr (v[d] ^^^ v[a]) 16)
  let v := v.set c (v[c] + v[d])
  v.set b (rotr (v[b] ^^^ v[c]) 63)

def mixRound (m : Message) (v : Work) (s : Vector Slot 16) : Work :=
  let v := mix v 0 4 8 12 m[s[0]] m[s[1]]
  let v := mix v 1 5 9 13 m[s[2]] m[s[3]]
  let v := mix v 2 6 10 14 m[s[4]] m[s[5]]
  let v := mix v 3 7 11 15 m[s[6]] m[s[7]]
  let v := mix v 0 5 10 15 m[s[8]] m[s[9]]
  let v := mix v 1 6 11 12 m[s[10]] m[s[11]]
  let v := mix v 2 7 8 13 m[s[12]] m[s[13]]
  mix v 3 4 9 14 m[s[14]] m[s[15]]

def workVector (h : Chain) (t : ℕ) (last : Bool) : Work :=
  h ++ #v[iv.get 0, iv.get 1, iv.get 2, iv.get 3, iv.get 4 ^^^ UInt64.ofNat t,
    iv.get 5 ^^^ UInt64.ofNat (t / 2 ^ 64),
    iv.get 6 ^^^ (if last then 0xFFFFFFFFFFFFFFFF else 0), iv.get 7]

/-- The compression function `F`. The counter `t` is taken modulo 2^128. -/
def compress (h : Chain) (m : Message) (t : ℕ) (last : Bool) : Chain :=
  let v := (List.range 12).foldl (fun v i => mixRound m v (sigma.get ⟨i % 10, Nat.mod_lt i (by decide)⟩))
    (workVector h t last)
  Vector.ofFn fun i : Lane => h[i] ^^^ v[i.val] ^^^ v[i.val + 8]

def leWord (bytes : List UInt8) : Word :=
  bytes.foldr (fun b x => b.toUInt64 ||| (x <<< 8)) 0

def leBytes (x : Word) : List UInt8 :=
  (List.range 8).map fun i => (x >>> UInt64.ofNat (8 * i)).toUInt8

/-- Block `i` of the data, zero-padded to 128 bytes. -/
def block (data : List UInt8) (i : ℕ) : List UInt8 :=
  let bytes := (data.drop (128 * i)).take 128
  bytes ++ List.replicate (128 - bytes.length) 0

def message (bytes : List UInt8) : Message :=
  Vector.ofFn fun k : Slot => leWord ((bytes.drop (8 * k)).take 8)

/-- There is always a last block, an all-zero one for empty data. -/
def blockCount (length : ℕ) : ℕ := max 1 ((length + 127) / 128)

/-- The initialization vector with another first word. -/
def ivWith (x : Word) : Chain := iv.set (0 : Lane) x

theorem ivWith_zero (x : Word) : (ivWith x).get 0 = x := Vector.getElem_set_self _

theorem ivWith_rest (x : Word) (i : Lane) (hi : i ≠ 0) : (ivWith x).get i = iv.get i :=
  Vector.getElem_set_ne _ _ fun h => hi (Fin.ext h.symm)

def initial (nn : ℕ) : Chain := ivWith (iv.get 0 ^^^ 0x01010000 ^^^ UInt64.ofNat nn)

section
variable (F : Chain → Message → ℕ → Bool → Chain)

/-- The first `n` blocks, none of them the last; `start` bytes came before the data. -/
def absorb (start : ℕ) (data : List UInt8) (n : ℕ) (h : Chain) : Chain :=
  (List.range n).foldl (fun h i => F h (message (block data i)) (start + 128 * (i + 1)) false) h

def digest (nn : ℕ) (data : List UInt8) : List UInt8 :=
  let last := blockCount data.length - 1
  let h := F (absorb F 0 data last (initial nn)) (message (block data last)) data.length true
  (h.toList.flatMap leBytes).take nn

def keyedInitial (kk nn : ℕ) : Chain :=
  ivWith (iv.get 0 ^^^ 0x01010000 ^^^ UInt64.ofNat (2 ^ 8 * kk) ^^^ UInt64.ofNat nn)

/-- The padded block `d[i]` of a keyed digest. -/
def keyedBlock (key data : List UInt8) : ℕ → List UInt8
  | 0 => block key 0
  | i + 1 => block data i

/-- The keyed digest, for a key that is not empty: one block for it, then those of the data. -/
def keyedDigest (nn : ℕ) (key data : List UInt8) : List UInt8 :=
  let last := (data.length + 127) / 128
  let h := (List.range last).foldl
    (fun h i => F h (message (keyedBlock key data i)) (128 * (i + 1)) false)
    (keyedInitial key.length nn)
  let h := F h (message (keyedBlock key data last)) (data.length + 128) true
  (h.toList.flatMap leBytes).take nn

theorem block_of_le (data : List UInt8) (h : 128 ≤ data.length) : block data 0 = data.take 128 := by
  have hlen : (data.take 128).length = 128 := by
    rw [List.length_take]
    omega
  unfold block
  dsimp only
  rw [Nat.mul_zero, List.drop_zero, hlen, Nat.sub_self, List.replicate_zero, List.append_nil]

theorem block_drop (data : List UInt8) (i : ℕ) : block (data.drop 128) i = block data (i + 1) := by
  unfold block
  rw [List.drop_drop, Nat.mul_succ, Nat.add_comm 128]

theorem block_length (data : List UInt8) (i : ℕ) : (block data i).length = 128 := by
  unfold block
  dsimp only
  rw [List.length_append, List.length_replicate, List.length_take]
  omega

theorem keyedBlock_eq (key data : List UInt8) (i : ℕ) :
    block (block key 0 ++ data) i = keyedBlock key data i := by
  have hkey := block_length key 0
  cases i with
  | zero =>
    rw [block_of_le _ (by rw [List.length_append]; omega),
      List.take_append_of_le_length hkey.ge, List.take_of_length_le hkey.le]
    rfl
  | succ i =>
    rw [← block_drop, List.drop_append_of_le_length hkey.ge, List.drop_of_length_le hkey.le,
      List.nil_append]
    rfl

theorem absorb_succ (start : ℕ) (data : List UInt8) (n : ℕ) (h : Chain) :
    absorb F start data (n + 1) h =
      absorb F (start + 128) (data.drop 128) n
        (F h (message (block data 0)) (start + 128) false) := by
  unfold absorb
  rw [List.range_succ_eq_map, List.foldl_cons, List.foldl_map]
  refine congrArg₂ (fun f x => List.foldl f x (List.range n)) ?_ rfl
  funext h i
  rw [block_drop, Nat.add_assoc, Nat.add_comm 128, ← Nat.mul_succ]

end

end Argon2Rust.Rfc7693
