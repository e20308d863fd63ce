import Argon2Rust.Blake2
import Argon2Rust.Rfc7693

set_option autoImplicit false

namespace Argon2Rust.Blake2Digest
open Bytes Blake2

section Words

theorem load64_go_eq (n : ℕ) (bytes : List UInt8) :
    load64.go n bytes = Rfc7693.leWord (bytes.take n) := by
  induction n generalizing bytes with
  | zero =>
    rw [List.take_zero]
    cases bytes <;> rfl
  | succ n ih =>
    cases bytes with
    | nil => rfl
    | cons b bytes =>
      rw [load64.go, ih bytes, List.take_succ_cons]
      rfl

theorem word_eq (bytes : List UInt8) (k : ℕ) :
    word bytes k = Rfc7693.leWord ((bytes.drop (8 * k)).take 8) := by
  unfold word
  cases bytes.drop (8 * k) with
  | nil => rfl
  | cons b rest => exact load64_go_eq 8 (b :: rest)

theorem le64_eq (x : UInt64) : le64 x = Rfc7693.leBytes x := by
  have hzero : x >>> 0 = x := by
    apply UInt64.toNat_inj.mp
    rw [UInt64.toNat_shiftRight]
    rfl
  change _ = [(x >>> 0).toUInt8, _, _, _, _, _, _, _]
  rw [hzero]
  rfl

theorem message_eq (bytes : List UInt8) :
    (Vector.ofFn fun i : Fin 16 => word bytes i) = Rfc7693.message bytes := by
  unfold Rfc7693.message
  simp only [word_eq]

end Words

section Compress

/-- A 128-bit counter, modulo 2^128, as the two words of the state. -/
def counterAt (n : ℕ) : UInt64 × UInt64 := (UInt64.ofNat n, UInt64.ofNat (n / 2 ^ 64))

def ofCompress (compress : CompressFn) (h : Rfc7693.Chain) (m : Rfc7693.Message) (t : ℕ)
    (last : Bool) : Rfc7693.Chain :=
  compress h (counterAt t) (if last then 0xFFFFFFFFFFFFFFFF else 0, 0) m

theorem sigma_eq : sigma = (List.range 12).map fun i =>
    Rfc7693.sigma.get ⟨i % 10, Nat.mod_lt i (by decide)⟩ := rfl

theorem even_lt (i : Fin 8) : 2 * i.val < 16 := by omega

theorem odd_lt (i : Fin 8) : 2 * i.val + 1 < 16 := by omega

theorem g_eq (m : Vector UInt64 16) (s : Vector (Fin 16) 16) (v : Vector UInt64 16) (i : Fin 8)
    (a b c d : Fin 16) : g m s v i a b c d =
      Rfc7693.mix v a b c d (m.get (s.get ⟨2 * i.val, even_lt i⟩))
        (m.get (s.get ⟨2 * i.val + 1, odd_lt i⟩)) := rfl

theorem round_eq (m : Vector UInt64 16) (v : Vector UInt64 16) (s : Vector (Fin 16) 16) :
    Blake2.round m v s = Rfc7693.mixRound m v s := by
  unfold Blake2.round Rfc7693.mixRound
  simp only [g_eq]
  rfl

theorem rounds_eq (m : Vector UInt64 16) (v : Vector UInt64 16) :
    sigma.foldl (Blake2.round m) v = (List.range 12).foldl (fun v i =>
      Rfc7693.mixRound m v (Rfc7693.sigma.get ⟨i % 10, Nat.mod_lt i (by decide)⟩)) v := by
  rw [sigma_eq, List.foldl_map]
  simp only [round_eq]

/-- `compress_scalar` is the compression function `F`. -/
theorem compressScalar_eq : ofCompress compressScalar = Rfc7693.compress := by
  funext h m t last
  have hseven : Rfc7693.iv.get 7 ^^^ (0 : UInt64) = Rfc7693.iv.get 7 := by decide
  unfold ofCompress compressScalar Rfc7693.compress Rfc7693.workVector
  dsimp only
  rw [rounds_eq, ← hseven]
  simp only [UInt64.xor_assoc]
  rfl

theorem paramWord_zero (k : ℕ) (hk : k ≤ outBytes) :
    paramWord k 0 0 = 0x01010000 ^^^ UInt64.ofNat k := by
  have hdisjoint : ∀ k < 65, (UInt8.ofNat k).toUInt64 ||| 0x01010000 =
      0x01010000 ^^^ UInt64.ofNat k := by decide
  rw [← hdisjoint k (Nat.lt_succ_of_le hk)]
  rfl

theorem paramWord_rest (n k : ℕ) (i : Fin 8) (hi : i ≠ 0) : paramWord n k i = 0 := by
  fin_cases i
  · exact absurd rfl hi
  all_goals rfl

/-- The parameter block changes no word of the initial state but the first. -/
theorem initState_h (n k : ℕ) (compress : CompressFn) :
    (initState n k compress).h = Rfc7693.ivWith (Blake2.iv.get 0 ^^^ paramWord n k 0) := by
  apply Vector.ext
  intro i hi
  have hword : (initState n k compress).h.get ⟨i, hi⟩ = Blake2.iv.get ⟨i, hi⟩ ^^^ paramWord n k i :=
    Vector.getElem_ofFn _
  refine hword.trans ?_
  cases i with
  | zero => exact (Rfc7693.ivWith_zero _).symm
  | succ i =>
    have hne : (⟨i + 1, hi⟩ : Fin 8) ≠ 0 := Fin.ne_of_val_ne (Nat.succ_ne_zero i)
    have hzero : paramWord n k (i + 1) = 0 := paramWord_rest n k ⟨i + 1, hi⟩ hne
    rw [hzero, UInt64.xor_zero]
    exact (Rfc7693.ivWith_rest _ _ hne).symm

theorem initState_eq (n : ℕ) (hn : n ≤ outBytes) (compress : CompressFn) :
    (initState n 0 compress).h = Rfc7693.initial n := by
  rw [initState_h, paramWord_zero n hn, ← UInt64.xor_assoc]
  rfl

end Compress

section Counter

theorem counterAt_add (n : ℕ) (inc : UInt64) :
    (UInt64.ofNat n + inc,
      UInt64.ofNat (n / 2 ^ 64) + if UInt64.ofNat n + inc < inc then 1 else 0) =
        counterAt (n + inc.toNat) := by
  have hinc := inc.toNat_lt
  have hlow : UInt64.ofNat n + inc = UInt64.ofNat (n + inc.toNat) := by
    rw [UInt64.ofNat_add, UInt64.ofNat_toNat]
  have hcarry : UInt64.ofNat n + inc < inc ↔ 2 ^ 64 ≤ n % 2 ^ 64 + inc.toNat := by
    rw [UInt64.lt_iff_toNat_lt, hlow, UInt64.toNat_ofNat']
    omega
  refine Prod.ext hlow ?_
  by_cases h : UInt64.ofNat n + inc < inc
  · have hover := hcarry.mp h
    have hdiv : (n + inc.toNat) / 2 ^ 64 = n / 2 ^ 64 + 1 := by omega
    change UInt64.ofNat (n / 2 ^ 64) + (if UInt64.ofNat n + inc < inc then 1 else 0) =
      UInt64.ofNat ((n + inc.toNat) / 2 ^ 64)
    rw [if_pos h, hdiv, UInt64.ofNat_add]
    rfl
  · have hfits : n % 2 ^ 64 + inc.toNat < 2 ^ 64 := not_le.mp fun hle => h (hcarry.mpr hle)
    have hdiv : (n + inc.toNat) / 2 ^ 64 = n / 2 ^ 64 := by omega
    change UInt64.ofNat (n / 2 ^ 64) + (if UInt64.ofNat n + inc < inc then 1 else 0) =
      UInt64.ofNat ((n + inc.toNat) / 2 ^ 64)
    rw [if_neg h, hdiv, UInt64.add_zero]

theorem incrementCounter_t (s : Blake2b) (n : ℕ) (inc : UInt64) (ht : s.t = counterAt n) :
    (s.incrementCounter inc).t = counterAt (n + inc.toNat) := by
  rw [← counterAt_add]
  unfold Blake2b.incrementCounter
  rw [ht]
  rfl

end Counter

section Absorb

def fullBlocks (length : ℕ) : ℕ := (length - 1) / blockBytes

theorem fullBlocks_eq (length : ℕ) : fullBlocks length = Rfc7693.blockCount length - 1 := by
  unfold fullBlocks Rfc7693.blockCount blockBytes
  omega

/-- Absorbing is the fold over the full blocks, and keeps what is left of the data. -/
theorem absorbBlocks_eq (s : Blake2b) (pin : List UInt8) (start : ℕ) (ht : s.t = counterAt start)
    (hf : s.f = (0, 0)) :
    s.absorbBlocks pin =
      ({ s with
          h := Rfc7693.absorb (ofCompress s.compress) start pin (fullBlocks pin.length) s.h
          t := counterAt (start + 128 * fullBlocks pin.length) },
        pin.drop (128 * fullBlocks pin.length)) := by
  induction s, pin using Blake2b.absorbBlocks.induct generalizing start with
  | case1 s pin h ih =>
    have hstep : (s.incrementCounter 128).t = counterAt (start + 128) :=
      incrementCounter_t s start 128 ht
    have hcount : fullBlocks pin.length = fullBlocks (pin.drop blockBytes).length + 1 := by
      rw [List.length_drop]
      unfold fullBlocks blockBytes at *
      omega
    have hblock : Rfc7693.block pin 0 = pin.take blockBytes := Rfc7693.block_of_le pin (by
      unfold blockBytes at h
      omega)
    rw [Blake2b.absorbBlocks_full s pin h, ih (start + 128) hstep hf, hcount,
      Rfc7693.absorb_succ, hblock, ← message_eq]
    have hh : ((s.incrementCounter 128).compressWith (pin.take blockBytes)).h =
        ofCompress s.compress s.h (Vector.ofFn fun i : Fin 16 => word (pin.take blockBytes) i)
          (start + 128) false := by
      unfold ofCompress
      rw [← hstep, if_neg Bool.false_ne_true, ← hf]
      rfl
    have hskip : 128 * (fullBlocks (pin.drop blockBytes).length + 1) =
        blockBytes + 128 * fullBlocks (pin.drop blockBytes).length :=
      (Nat.mul_succ _ _).trans (Nat.add_comm _ _)
    rw [hh, List.drop_drop, hskip, Nat.add_assoc]
    rfl
  | case2 s pin h =>
    have hzero : fullBlocks pin.length = 0 := by
      unfold fullBlocks blockBytes at *
      omega
    rw [Blake2b.absorbBlocks_short s pin (Nat.le_of_not_lt h), hzero, Nat.mul_zero, Nat.add_zero,
      List.drop_zero, ← ht]
    rfl

theorem digest_eq (s : Blake2b) (n : ℕ) (ht : s.t = counterAt n) (hf : s.f = (0, 0))
    (hlast : s.lastNode = false) :
    s.digest = (ofCompress s.compress s.h
      (Rfc7693.message (s.buf ++ List.replicate (blockBytes - s.buf.length) 0))
      (n + s.buf.length) true).toList.flatMap Rfc7693.leBytes := by
  have hle := s.buf_le
  have hsmall : (UInt64.ofNat s.buf.length).toNat = s.buf.length :=
    UInt64.toNat_ofNat_of_lt' (by
      change _ < 2 ^ 64
      unfold blockBytes at hle
      omega)
  have hcount := incrementCounter_t s n (UInt64.ofNat s.buf.length) ht
  rw [hsmall] at hcount
  have hfinal : ((s.incrementCounter (UInt64.ofNat s.buf.length)).setLastblock).f =
      (0xFFFFFFFFFFFFFFFF, 0) := by
    change ((0xFFFFFFFFFFFFFFFF : UInt64), if s.lastNode = true then _ else s.f.2) = _
    rw [hlast, if_neg Bool.false_ne_true, hf]
  have hwords : le64 = Rfc7693.leBytes := funext le64_eq
  unfold Blake2b.digest ofCompress
  rw [← hcount, if_pos rfl, ← hwords, ← message_eq, ← hfinal]
  rfl

/-- A fresh state, keyed or not, digests the blocks of the data from its own chaining value. -/
theorem update_digest (s : Blake2b) (data : List UInt8) (ht : s.t = (0, 0)) (hf : s.f = (0, 0))
    (hempty : s.buf = []) (hlast : s.lastNode = false) :
    (s.update data).digest =
      (ofCompress s.compress
        (Rfc7693.absorb (ofCompress s.compress) 0 data (Rfc7693.blockCount data.length - 1) s.h)
        (Rfc7693.message (Rfc7693.block data (Rfc7693.blockCount data.length - 1)))
        data.length true).toList.flatMap Rfc7693.leBytes := by
  have habsorb := absorbBlocks_eq s data 0 ht hf
  have hupdate : s.update data = s.refill data := by
    rw [Blake2b.update_eq_refill s data (by rw [hf]), hempty]
    rfl
  rw [hupdate]
  generalize hr : s.refill data = r
  rw [Nat.zero_add] at habsorb
  have hbuf : r.buf = data.drop (128 * fullBlocks data.length) := by
    rw [← hr]
    exact congrArg Prod.snd habsorb
  have hh : r.h = Rfc7693.absorb (ofCompress s.compress) 0 data (fullBlocks data.length) s.h := by
    rw [← hr]
    exact congrArg (fun x => x.1.h) habsorb
  have ht' : r.t = counterAt (128 * fullBlocks data.length) := by
    rw [← hr]
    exact congrArg (fun x => x.1.t) habsorb
  have hf' : r.f = (0, 0) := by
    rw [← hr, ← hf]
    exact congrArg (fun x => x.1.f) habsorb
  have hlast' : r.lastNode = false := by
    rw [← hr, ← hlast]
    exact congrArg (fun x => x.1.lastNode) habsorb
  have hcompress : r.compress = s.compress := by
    rw [← hr]
    exact congrArg (fun x => x.1.compress) habsorb
  have hle := r.buf_le
  rw [hbuf] at hle
  have hlength : 128 * fullBlocks data.length + r.buf.length = data.length := by
    rw [hbuf, List.length_drop]
    unfold fullBlocks blockBytes
    omega
  have hblock : r.buf ++ List.replicate (blockBytes - r.buf.length) 0 =
      Rfc7693.block data (fullBlocks data.length) := by
    have htake : (data.drop (128 * fullBlocks data.length)).take 128 = r.buf := by
      rw [hbuf]
      exact List.take_of_length_le hle
    unfold Rfc7693.block
    rw [htake]
    rfl
  rw [digest_eq r _ ht' hf' hlast', hblock, hlength, hh, hcompress, fullBlocks_eq]

theorem blake2bDigest_eq (compress : CompressFn) (n : ℕ) (hn : n ≤ outBytes)
    (data : List UInt8) :
    blake2bDigest compress n data = Rfc7693.digest (ofCompress compress) n data := by
  unfold blake2bDigest
  rw [update_digest (initState n 0 compress) data rfl rfl rfl rfl, initState_eq n hn]
  rfl

end Absorb

end Argon2Rust.Blake2Digest
