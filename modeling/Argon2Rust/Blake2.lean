import Argon2Rust.Bytes
import Argon2Rust.Parameters

set_option autoImplicit false

/-!
# BLAKE2b and `blake2b_long`

A state buffers at most one block and its compression function is a field, as
in `blake2b.rs`. A function that writes into `out` takes the old contents and
returns the new ones; every error path of the source leaves `out` as it was.
`update_append` makes feeding pieces the same as feeding their concatenation,
and `blake2bLong_eq` makes the extension total on the lengths it admits.
-/
namespace Argon2Rust.Blake2
open Bytes Parameters Numerals

abbrev CompressFn := Vector UInt64 8 → UInt64 × UInt64 → UInt64 × UInt64 → Vector UInt64 16 →
  Vector UInt64 8

abbrev Slot := Fin 16

def blockBytes : ℕ := 128
def outBytes : ℕ := 64
def keyBytes : ℕ := 64
def halfBytes : ℕ := outBytes / 2

def iv : Vector UInt64 8 := #v[
  0x6a09e667f3bcc908, 0xbb67ae8584caa73b, 0x3c6ef372fe94f82b, 0xa54ff53a5f1d36f1,
  0x510e527fade682d1, 0x9b05688c2b3e6c1f, 0x1f83d9abfb41bd6b, 0x5be0cd19137e2179]

def sigma : List (Vector (Fin 16) 16) := [
  #v[0, 1, 2, 3, 4, 5, 6, 7, 8, 9, 10, 11, 12, 13, 14, 15],
  #v[14, 10, 4, 8, 9, 15, 13, 6, 1, 12, 0, 2, 11, 7, 5, 3],
  #v[11, 8, 12, 0, 5, 2, 15, 13, 10, 14, 3, 6, 7, 1, 9, 4],
  #v[7, 9, 3, 1, 13, 12, 11, 14, 2, 6, 5, 10, 4, 0, 15, 8],
  #v[9, 0, 5, 7, 2, 4, 10, 15, 14, 1, 11, 12, 6, 8, 3, 13],
  #v[2, 12, 6, 10, 0, 11, 8, 3, 4, 13, 7, 5, 15, 14, 1, 9],
  #v[12, 5, 1, 15, 14, 13, 4, 10, 0, 7, 6, 3, 9, 2, 8, 11],
  #v[13, 11, 7, 14, 12, 1, 3, 9, 5, 0, 15, 4, 8, 6, 2, 10],
  #v[6, 15, 14, 9, 11, 3, 0, 8, 12, 2, 13, 7, 1, 4, 10, 5],
  #v[10, 2, 8, 4, 7, 6, 1, 5, 15, 11, 9, 14, 3, 12, 13, 0],
  #v[0, 1, 2, 3, 4, 5, 6, 7, 8, 9, 10, 11, 12, 13, 14, 15],
  #v[14, 10, 4, 8, 9, 15, 13, 6, 1, 12, 0, 2, 11, 7, 5, 3]]

/-- The `G` macro: column or diagonal `i` of one round, on the words `a`, `b`, `c`, `d`. -/
def g (m : Vector UInt64 16) (s : Vector (Fin 16) 16) (v : Vector UInt64 16) (i : Fin 8)
    (a b c d : Slot) : Vector UInt64 16 :=
  let v := v.set a (v[a] + v[b] + m[s[2 * i.val]])
  let v := v.set d (rotateRight (v[d] ^^^ v[a]) 32)
  let v := v.set c (v[c] + v[d])
  let v := v.set b (rotateRight (v[b] ^^^ v[c]) 24)
  let v := v.set a (v[a] + v[b] + m[s[2 * i.val + 1]])
  let v := v.set d (rotateRight (v[d] ^^^ v[a]) 16)
  let v := v.set c (v[c] + v[d])
  v.set b (rotateRight (v[b] ^^^ v[c]) 63)

def round (m : Vector UInt64 16) (v : Vector UInt64 16) (s : Vector (Fin 16) 16) :
    Vector UInt64 16 :=
  let v := g m s v 0 0 4 8 12
  let v := g m s v 1 1 5 9 13
  let v := g m s v 2 2 6 10 14
  let v := g m s v 3 3 7 11 15
  let v := g m s v 4 0 5 10 15
  let v := g m s v 5 1 6 11 12
  let v := g m s v 6 2 7 8 13
  g m s v 7 3 4 9 14

def compressScalar : CompressFn := fun h t f m =>
  let v : Vector UInt64 16 := h ++ #v[iv[0], iv[1], iv[2], iv[3], iv[4] ^^^ t.1, iv[5] ^^^ t.2,
    iv[6] ^^^ f.1, iv[7] ^^^ f.2]
  let v := sigma.foldl (round m) v
  Vector.ofFn fun i : Fin 8 => h[i] ^^^ (v[i.val] ^^^ v[i.val + 8])

/-- A streaming state. `buf` is the filled part of the buffer, never more than a block. -/
structure Blake2b where
  h : Vector UInt64 8
  t : UInt64 × UInt64
  f : UInt64 × UInt64
  buf : List UInt8
  outlen : ℕ
  lastNode : Bool
  compress : CompressFn
  buf_le : buf.length ≤ blockBytes

def paramWord (outlen keylen : ℕ) (k : ℕ) : UInt64 :=
  word ([UInt8.ofNat outlen, UInt8.ofNat keylen, 1, 1] ++ List.replicate 60 0) k

def initState (outlen keylen : ℕ) (compress : CompressFn) : Blake2b where
  h := Vector.ofFn fun i : Fin 8 => iv[i] ^^^ paramWord outlen keylen i
  t := (0, 0)
  f := (0, 0)
  buf := []
  outlen := outlen
  lastNode := false
  compress := compress
  buf_le := Nat.zero_le _

def initParam (outlen keylen : ℕ) (compress : CompressFn) : Except Error Blake2b :=
  if outlen = 0 ∨ outlen > outBytes then .error .incorrectParameter
  else if keylen > keyBytes then .error .incorrectParameter
  else .ok (initState outlen keylen compress)

namespace Blake2b

def newWithBackend (outlen : ℕ) (compress : CompressFn) : Except Error Blake2b :=
  initParam outlen 0 compress

def incrementCounter (s : Blake2b) (inc : UInt64) : Blake2b :=
  let t0 := s.t.1 + inc
  { s with t := (t0, s.t.2 + if t0 < inc then 1 else 0) }

def setLastblock (s : Blake2b) : Blake2b :=
  { s with f := (0xFFFFFFFFFFFFFFFF, if s.lastNode then 0xFFFFFFFFFFFFFFFF else s.f.2) }

def compressWith (s : Blake2b) (block : List UInt8) : Blake2b :=
  { s with h := s.compress s.h s.t s.f (Vector.ofFn fun i : Fin 16 => word block i) }

/-- Compress the blocks of `pin`, holding back a last one even when it is full. -/
def absorbBlocks (s : Blake2b) (pin : List UInt8) : Blake2b × List UInt8 :=
  if blockBytes < pin.length then
    absorbBlocks ((s.incrementCounter 128).compressWith (pin.take blockBytes))
      (pin.drop blockBytes)
  else (s, pin)
termination_by pin.length
decreasing_by
  rw [List.length_drop]
  unfold blockBytes at *
  omega

theorem absorbBlocks_le (s : Blake2b) (pin : List UInt8) :
    (s.absorbBlocks pin).2.length ≤ blockBytes := by
  induction s, pin using absorbBlocks.induct with
  | case1 s pin h ih =>
    rw [absorbBlocks, if_pos h]
    exact ih
  | case2 s pin h =>
    rw [absorbBlocks, if_neg h]
    exact Nat.le_of_not_lt h

def update (s : Blake2b) (input : List UInt8) : Blake2b :=
  if input.isEmpty then s
  else if s.f.1 ≠ 0 then s
  else if hfull : blockBytes < s.buf.length + input.length then
    let fill := blockBytes - s.buf.length
    let s' := (s.incrementCounter 128).compressWith (s.buf ++ input.take fill)
    let r := s'.absorbBlocks (input.drop fill)
    { r.1 with buf := r.2, buf_le := absorbBlocks_le s' (input.drop fill) }
  else { s with
    buf := s.buf ++ input
    buf_le := by
      rw [List.length_append]
      exact Nat.le_of_not_lt hfull }

def digest (s : Blake2b) : List UInt8 :=
  let s := (s.incrementCounter (UInt64.ofNat s.buf.length)).setLastblock
  (s.compressWith (s.buf ++ List.replicate (blockBytes - s.buf.length) 0)).h.toList.flatMap le64

def finalize (s : Blake2b) (out : List UInt8) : Except Error (List UInt8) :=
  if out.length < s.outlen then .error .incorrectParameter
  else if s.f.1 ≠ 0 then .error .incorrectParameter
  else .ok (s.digest.take s.outlen ++ out.drop s.outlen)

end Blake2b

def blake2bWithBackend (compress : CompressFn) (out input : List UInt8) :
    Except Error (List UInt8) := do
  let state ← Blake2b.newWithBackend out.length compress
  (state.update input).finalize out

/-- The extension loop: what is written to the tail of `out` after the first half digest. -/
def longTail (compress : CompressFn) (toproduce : ℕ) (outBuffer : List UInt8) :
    Except Error (List UInt8) :=
  if outBytes < toproduce then do
    let outBuffer ← blake2bWithBackend compress outBuffer outBuffer
    let rest ← longTail compress (toproduce - halfBytes) outBuffer
    .ok (outBuffer.take halfBytes ++ rest)
  else blake2bWithBackend compress (outBuffer.take toproduce) outBuffer
termination_by toproduce
decreasing_by
  unfold halfBytes outBytes at *
  omega

def blake2bLongWithBackend (compress : CompressFn) (out input : List UInt8) :
    Except Error (List UInt8) :=
  if 0xFFFFFFFF < out.length then .error .incorrectParameter
  else
    let outlenBytes := le32 (UInt32.ofNat out.length)
    if out.length ≤ outBytes then do
      let state ← Blake2b.newWithBackend out.length compress
      ((state.update outlenBytes).update input).finalize out
    else do
      let state ← Blake2b.newWithBackend outBytes compress
      let outBuffer ← ((state.update outlenBytes).update input).finalize (List.replicate outBytes 0)
      let tail ← longTail compress (out.length - halfBytes) outBuffer
      .ok (outBuffer.take halfBytes ++ tail)

namespace Blake2b

theorem absorbBlocks_full (s : Blake2b) (pin : List UInt8) (h : blockBytes < pin.length) :
    s.absorbBlocks pin =
      ((s.incrementCounter 128).compressWith (pin.take blockBytes)).absorbBlocks
        (pin.drop blockBytes) := by
  rw [absorbBlocks, if_pos h]

theorem absorbBlocks_short (s : Blake2b) (pin : List UInt8) (h : pin.length ≤ blockBytes) :
    s.absorbBlocks pin = (s, pin) := by
  rw [absorbBlocks, if_neg (Nat.not_lt_of_le h)]

/-- The state after `pin` has been absorbed from an empty buffer. -/
def refill (s : Blake2b) (pin : List UInt8) : Blake2b :=
  { (s.absorbBlocks pin).1 with
    buf := (s.absorbBlocks pin).2
    buf_le := absorbBlocks_le s pin }

theorem absorbBlocks_append (s : Blake2b) (x y : List UInt8) :
    s.absorbBlocks (x ++ y) =
      (s.absorbBlocks x).1.absorbBlocks ((s.absorbBlocks x).2 ++ y) := by
  induction s, x using absorbBlocks.induct with
  | case1 s x h ih =>
    rw [absorbBlocks_full s x h, ← ih, absorbBlocks_full s (x ++ y)]
    · rw [List.take_append_of_le_length h.le, List.drop_append_of_le_length h.le]
    · rw [List.length_append]
      exact Nat.lt_add_right _ h
  | case2 s x h => rw [absorbBlocks_short s x (Nat.le_of_not_lt h)]

theorem absorbBlocks_setBuf (s : Blake2b) (pin buf : List UInt8) (hb : buf.length ≤ blockBytes) :
    absorbBlocks { s with buf := buf, buf_le := hb } pin =
      ({ (s.absorbBlocks pin).1 with buf := buf, buf_le := hb }, (s.absorbBlocks pin).2) := by
  induction s, pin using absorbBlocks.induct with
  | case1 s pin h ih =>
    rw [absorbBlocks_full _ pin h, absorbBlocks_full s pin h]
    exact ih
  | case2 s pin h =>
    rw [absorbBlocks_short _ pin (Nat.le_of_not_lt h), absorbBlocks_short s pin (Nat.le_of_not_lt h)]

theorem absorbBlocks_fields (s : Blake2b) (pin : List UInt8) :
    (s.absorbBlocks pin).1.f = s.f ∧ (s.absorbBlocks pin).1.outlen = s.outlen := by
  induction s, pin using absorbBlocks.induct with
  | case1 s pin h ih =>
    rw [absorbBlocks_full s pin h]
    exact ih
  | case2 s pin h =>
    rw [absorbBlocks_short s pin (Nat.le_of_not_lt h)]
    exact ⟨rfl, rfl⟩

theorem refill_f (s : Blake2b) (pin : List UInt8) : (s.refill pin).f = s.f :=
  (absorbBlocks_fields s pin).1

theorem refill_outlen (s : Blake2b) (pin : List UInt8) : (s.refill pin).outlen = s.outlen :=
  (absorbBlocks_fields s pin).2

theorem refill_refill (s : Blake2b) (x y : List UInt8) :
    (s.refill x).refill ((s.refill x).buf ++ y) = s.refill (x ++ y) := by
  have h := absorbBlocks_setBuf (s.absorbBlocks x).1 ((s.absorbBlocks x).2 ++ y)
    (s.absorbBlocks x).2 (absorbBlocks_le s x)
  unfold refill
  simp only [h, absorbBlocks_append s x y]

/-- Absorbing is independent of how the buffer and the input share the bytes. -/
theorem update_eq_refill (s : Blake2b) (input : List UInt8) (hf : s.f.1 = 0) :
    s.update input = s.refill (s.buf ++ input) := by
  unfold update
  have hle := s.buf_le
  by_cases he : input.isEmpty
  · rw [if_pos he, List.isEmpty_iff.mp he, List.append_nil]
    unfold refill
    simp only [absorbBlocks_short s s.buf hle]
  · rw [if_neg he, if_neg (not_not.mpr hf)]
    by_cases hfull : blockBytes < s.buf.length + input.length
    · have htake : (s.buf ++ input).take blockBytes =
          s.buf ++ input.take (blockBytes - s.buf.length) := by
        rw [List.take_append, List.take_of_length_le hle]
      have hdrop : (s.buf ++ input).drop blockBytes =
          input.drop (blockBytes - s.buf.length) := by
        rw [List.drop_append, List.drop_eq_nil_of_le hle, List.nil_append]
      have hstep := absorbBlocks_full s (s.buf ++ input) (by rw [List.length_append]; exact hfull)
      rw [htake, hdrop] at hstep
      rw [dif_pos hfull]
      unfold refill
      simp only [hstep]
    · rw [dif_neg hfull]
      unfold refill
      simp only [absorbBlocks_short s (s.buf ++ input)
        (by rw [List.length_append]; exact Nat.le_of_not_lt hfull)]

theorem update_f (s : Blake2b) (input : List UInt8) (hf : s.f.1 = 0) :
    (s.update input).f = s.f := by
  rw [update_eq_refill s input hf, refill_f]

theorem update_outlen (s : Blake2b) (input : List UInt8) (hf : s.f.1 = 0) :
    (s.update input).outlen = s.outlen := by
  rw [update_eq_refill s input hf, refill_outlen]

/-- Feeding two pieces is feeding their concatenation. -/
theorem update_append (s : Blake2b) (x y : List UInt8) (hf : s.f.1 = 0) :
    (s.update x).update y = s.update (x ++ y) := by
  rw [update_eq_refill (s.update x) y (by rw [update_f s x hf]; exact hf),
    update_eq_refill s x hf, update_eq_refill s (x ++ y) hf, refill_refill, List.append_assoc]

theorem foldl_update (s : Blake2b) (pieces : List (List UInt8)) (hf : s.f.1 = 0) :
    pieces.foldl update s = s.update pieces.flatten := by
  induction pieces generalizing s with
  | nil => rfl
  | cons x pieces ih =>
    rw [List.foldl_cons, ih _ (by rw [update_f s x hf]; exact hf), update_append s x _ hf,
      List.flatten_cons]

theorem digest_length (s : Blake2b) : s.digest.length = outBytes := by
  unfold digest
  rw [flatMap_le64_length, Vector.length_toList]
  rfl

theorem finalize_ok (s : Blake2b) (out : List UInt8) (hf : s.f.1 = 0) (ho : out.length = s.outlen) :
    s.finalize out = .ok (s.digest.take s.outlen) := by
  unfold finalize
  rw [if_neg (by omega), if_neg (not_not.mpr hf), List.drop_eq_nil_of_le (by omega),
    List.append_nil]

end Blake2b

def blake2bDigest (compress : CompressFn) (n : ℕ) (input : List UInt8) : List UInt8 :=
  (((initState n 0 compress).update input).digest).take n

theorem blake2bDigest_length (compress : CompressFn) (n : ℕ) (input : List UInt8)
    (hn : n ≤ outBytes) : (blake2bDigest compress n input).length = n := by
  unfold blake2bDigest
  rw [List.length_take, Blake2b.digest_length]
  exact Nat.min_eq_left hn

theorem newWithBackend_ok (compress : CompressFn) (n : ℕ) (h1 : 1 ≤ n) (hn : n ≤ outBytes) :
    Blake2b.newWithBackend n compress = .ok (initState n 0 compress) := by
  unfold Blake2b.newWithBackend initParam
  rw [if_neg (by omega), if_neg (Nat.not_lt_zero _)]

theorem finalize_update_ok (compress : CompressFn) (n : ℕ) (out input : List UInt8)
    (ho : out.length = n) :
    ((initState n 0 compress).update input).finalize out =
      .ok (blake2bDigest compress n input) := by
  have hf := Blake2b.update_f (initState n 0 compress) input rfl
  have hlen := Blake2b.update_outlen (initState n 0 compress) input rfl
  rw [Blake2b.finalize_ok _ _ (by rw [hf]; rfl) (by rw [hlen]; exact ho), hlen]
  rfl

theorem blake2bWithBackend_ok (compress : CompressFn) (out input : List UInt8)
    (h1 : 1 ≤ out.length) (hn : out.length ≤ outBytes) :
    blake2bWithBackend compress out input = .ok (blake2bDigest compress out.length input) := by
  unfold blake2bWithBackend
  rw [newWithBackend_ok compress _ h1 hn]
  exact finalize_update_ok compress _ out input rfl

theorem longTail_ok (compress : CompressFn) (toproduce : ℕ) (outBuffer : List UInt8)
    (h1 : 1 ≤ toproduce) (hb : outBuffer.length = outBytes) :
    ∃ tail, longTail compress toproduce outBuffer = .ok tail ∧ tail.length = toproduce := by
  induction toproduce using Nat.strong_induction_on generalizing outBuffer with
  | _ toproduce ih =>
    rw [longTail]
    by_cases h : outBytes < toproduce
    · have hd := blake2bDigest_length compress outBytes outBuffer le_rfl
      have hlt : toproduce - halfBytes < toproduce := by
        unfold halfBytes outBytes at *
        omega
      obtain ⟨rest, hrest, hlen⟩ := ih _ hlt (blake2bDigest compress outBytes outBuffer)
        (by unfold halfBytes outBytes at *; omega) hd
      rw [if_pos h, blake2bWithBackend_ok compress _ _ (by rw [hb]; decide) hb.le, hb]
      refine ⟨(blake2bDigest compress outBytes outBuffer).take halfBytes ++ rest, ?_, ?_⟩
      · change (longTail compress (toproduce - halfBytes) _).bind _ = _
        rw [hrest]
        rfl
      · rw [List.length_append, List.length_take, hd, hlen]
        unfold halfBytes outBytes at *
        omega
    · have hlen : (outBuffer.take toproduce).length = toproduce := by
        rw [List.length_take, hb]
        omega
      rw [if_neg h, blake2bWithBackend_ok compress _ _ (by omega) (by omega), hlen]
      exact ⟨_, rfl, blake2bDigest_length compress _ _ (by omega)⟩

/-- `H'`, the variable-length hash: what `blake2b_long` writes to `n` bytes of output. -/
def hPrime (compress : CompressFn) (n : ℕ) (input : List UInt8) : List UInt8 :=
  ((blake2bLongWithBackend compress (List.replicate n 0) input).toOption).getD []

theorem blake2bLong_total (compress : CompressFn) (out input : List UInt8)
    (h1 : 1 ≤ out.length) (hn : out.length ≤ 0xFFFFFFFF) :
    ∃ bytes, bytes.length = out.length ∧
      ∀ out' : List UInt8, out'.length = out.length →
        blake2bLongWithBackend compress out' input = .ok bytes := by
  by_cases h : out.length ≤ outBytes
  · refine ⟨blake2bDigest compress out.length (le32 (UInt32.ofNat out.length) ++ input),
      blake2bDigest_length compress _ _ h, ?_⟩
    intro out' ho
    unfold blake2bLongWithBackend
    rw [ho, if_neg (by omega)]
    dsimp only
    rw [if_pos h, newWithBackend_ok compress _ h1 h]
    change (((initState out.length 0 compress).update _).update input).finalize out' = _
    rw [Blake2b.update_append _ _ _ rfl]
    exact finalize_update_ok compress _ out' _ ho
  · have hd := blake2bDigest_length compress outBytes
      (le32 (UInt32.ofNat out.length) ++ input) le_rfl
    obtain ⟨tail, htail, hlen⟩ := longTail_ok compress (out.length - halfBytes)
      (blake2bDigest compress outBytes (le32 (UInt32.ofNat out.length) ++ input))
      (by unfold halfBytes outBytes at *; omega) hd
    refine ⟨(blake2bDigest compress outBytes
      (le32 (UInt32.ofNat out.length) ++ input)).take halfBytes ++ tail, ?_, ?_⟩
    · rw [List.length_append, List.length_take, hd, hlen]
      unfold halfBytes outBytes at *
      omega
    · intro out' ho
      unfold blake2bLongWithBackend
      rw [ho, if_neg (by omega)]
      dsimp only
      rw [if_neg h, newWithBackend_ok compress _ (by decide) le_rfl]
      change ((((initState outBytes 0 compress).update _).update input).finalize _).bind _ = _
      rw [Blake2b.update_append _ _ _ rfl,
        finalize_update_ok compress _ _ _ List.length_replicate]
      change (longTail compress (out.length - halfBytes) _).bind _ = _
      rw [htail]
      rfl

theorem blake2bLong_eq (compress : CompressFn) (out input : List UInt8)
    (h1 : 1 ≤ out.length) (hn : out.length ≤ 0xFFFFFFFF) :
    blake2bLongWithBackend compress out input = .ok (hPrime compress out.length input) := by
  obtain ⟨bytes, -, hall⟩ := blake2bLong_total compress out input h1 hn
  unfold hPrime
  rw [hall out rfl, hall (List.replicate out.length 0) List.length_replicate]
  rfl

theorem hPrime_length (compress : CompressFn) (n : ℕ) (input : List UInt8) (h1 : 1 ≤ n)
    (hn : n ≤ 0xFFFFFFFF) : (hPrime compress n input).length = n := by
  have hr : (List.replicate n (0 : UInt8)).length = n := List.length_replicate
  obtain ⟨bytes, hlen, hall⟩ := blake2bLong_total compress (List.replicate n 0) input
    (by omega) (by omega)
  unfold hPrime
  rw [hall _ rfl]
  exact hlen.trans hr

end Argon2Rust.Blake2
