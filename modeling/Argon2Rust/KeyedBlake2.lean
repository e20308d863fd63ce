import Argon2Rust.Blake2Backends
import Argon2Rust.Blake2Stream

set_option autoImplicit false

namespace Argon2Rust.KeyedBlake2
open Bytes Parameters Blake2 Blake2Backends Blake2Digest Blake2Stream

def withKey (outlen : ℕ) (key : List UInt8) (compress : CompressFn) :
    Option (Except Error Stream) :=
  if outlen = 0 ∨ outlen > outBytes then some (.error .incorrectParameter)
  else if key.isEmpty ∨ key.length > keyBytes then some (.error .incorrectParameter)
  else
    match Stream.initParam outlen key.length compress with
    | .error e => some (.error e)
    | .ok state => do
      let block ← copyFromSlice (List.replicate blockBytes 0) 0 key.length key
      let state ← state.update block
      some (.ok state)

section Parameter

theorem or_shift (a : UInt8) (x : UInt64) :
    a.toUInt64 ||| (x <<< 8) = (x <<< 8) ^^^ a.toUInt64 := by
  apply UInt64.toBitVec_inj.mp
  apply BitVec.eq_of_getLsbD_eq
  intro i hi
  have hlow : ((x <<< 8).toBitVec).getLsbD i = (!decide (i < 8) && x.toBitVec.getLsbD (i - 8)) := by
    rw [UInt64.toBitVec_shiftLeft]
    change (x.toBitVec <<< (8 : ℕ)).getLsbD i = _
    rw [BitVec.getLsbD_shiftLeft, decide_eq_true hi, Bool.true_and]
  rw [UInt64.toBitVec_or, UInt64.toBitVec_xor, BitVec.getLsbD_or, BitVec.getLsbD_xor, hlow]
  by_cases h : i < 8
  · rw [decide_eq_true h]
    simp
  · have hhigh : a.toUInt64.toBitVec.getLsbD i = false := by
      change (a.toBitVec.setWidth 64).getLsbD i = false
      rw [BitVec.getLsbD_setWidth, BitVec.getLsbD_of_ge _ _ (by omega), Bool.and_false]
    rw [hhigh]
    simp

theorem paramWord_keyed (n k : ℕ) (hn : n ≤ outBytes) (hk : k ≤ keyBytes) :
    paramWord n k 0 = 0x01010000 ^^^ UInt64.ofNat (2 ^ 8 * k) ^^^ UInt64.ofNat n := by
  have hkey : ∀ k < 65, ((UInt8.ofNat k).toUInt64 ||| 0x010100) <<< 8 =
      0x01010000 ^^^ UInt64.ofNat (2 ^ 8 * k) := by decide
  have hout : ∀ n < 65, (UInt8.ofNat n).toUInt64 = UInt64.ofNat n := by decide
  rw [← hkey k (Nat.lt_succ_of_le hk), ← hout n (Nat.lt_succ_of_le hn), ← or_shift]
  rfl

theorem initState_keyed (n k : ℕ) (hn : n ≤ outBytes) (hk : k ≤ keyBytes)
    (compress : CompressFn) : (initState n k compress).h = Rfc7693.keyedInitial k n := by
  rw [initState_h, paramWord_keyed n k hn hk, ← UInt64.xor_assoc, ← UInt64.xor_assoc]
  rfl

end Parameter

section Digest
variable (compress : CompressFn) {n : ℕ} (key : List UInt8)

theorem blockCount_keyed (data : List UInt8) :
    Rfc7693.blockCount (Rfc7693.block key 0 ++ data).length - 1 = (data.length + 127) / 128 := by
  rw [List.length_append, Rfc7693.block_length]
  unfold Rfc7693.blockCount
  omega

/-- The keyed state that is fed the padded key and then the data. -/
theorem keyed_digest_eq (hn : n ≤ outBytes) (hk : key.length ≤ keyBytes) (data : List UInt8) :
    (((initState n key.length compress).update (Rfc7693.block key 0 ++ data)).digest).take n =
      Rfc7693.keyedDigest (ofCompress compress) n key data := by
  have hlen : (Rfc7693.block key 0 ++ data).length = data.length + 128 := by
    rw [List.length_append, Rfc7693.block_length, Nat.add_comm]
  rw [update_digest (initState n key.length compress) _ rfl rfl rfl rfl, blockCount_keyed, hlen,
    initState_keyed n key.length hn hk]
  unfold Rfc7693.absorb Rfc7693.keyedDigest
  simp only [Rfc7693.keyedBlock_eq, Nat.zero_add]
  rfl

end Digest

section Stream
variable (outlen : ℕ) (key : List UInt8) (compress : CompressFn)

def Admits : Prop := (1 ≤ outlen ∧ outlen ≤ outBytes) ∧ (1 ≤ key.length ∧ key.length ≤ keyBytes)

theorem initParam_holds (h : Admits outlen key) :
    ∃ s, Stream.initParam outlen key.length compress = .ok s ∧
      Holds s (initState outlen key.length compress) := by
  obtain ⟨⟨hout1, hout2⟩, hkey1, hkey2⟩ := h
  refine ⟨_, (if_neg (by omega)).trans (if_neg (Nat.not_lt_of_le hkey2)), ?_⟩
  exact ⟨rfl, rfl, rfl, rfl, rfl, rfl, rfl, rfl, List.length_replicate⟩

theorem keyBlock_eq (hkey : key.length ≤ keyBytes) :
    copyFromSlice (List.replicate blockBytes 0) 0 key.length key =
      some (Rfc7693.block key 0) := by
  have hle : key.length ≤ 128 := hkey.trans (by decide)
  rw [copyFromSlice_ok (Nat.zero_le _) (by rw [List.length_replicate]; exact hle)
    (Nat.sub_zero _).symm, List.take_zero, List.nil_append, List.drop_replicate]
  unfold Rfc7693.block
  dsimp only
  rw [Nat.mul_zero, List.drop_zero, List.take_of_length_le hle]
  rfl

theorem withKey_holds (h : Admits outlen key) :
    ∃ s, withKey outlen key compress = some (.ok s) ∧
      Holds s ((initState outlen key.length compress).update (Rfc7693.block key 0)) := by
  obtain ⟨s₀, hinit, hholds⟩ := initParam_holds outlen key compress h
  obtain ⟨⟨hout1, hout2⟩, hkey1, hkey2⟩ := h
  obtain ⟨s, hupdate, hs⟩ := hholds.update (Rfc7693.block key 0)
  have hne : ¬ key.isEmpty = true := by
    rw [List.isEmpty_iff_length_eq_zero]
    omega
  refine ⟨s, ?_, hs⟩
  unfold withKey
  rw [if_neg (by omega), if_neg (not_or.mpr ⟨hne, Nat.not_lt_of_le hkey2⟩), hinit]
  dsimp only
  rw [keyBlock_eq key hkey2, Option.bind_eq_bind, Option.bind_some, hupdate]
  rfl

theorem withKey_rejects (h : ¬ Admits outlen key) :
    withKey outlen key compress = some (.error .incorrectParameter) := by
  unfold withKey
  by_cases hout : outlen = 0 ∨ outlen > outBytes
  · exact if_pos hout
  · rw [if_neg hout]
    refine if_pos ?_
    by_contra hkey
    obtain ⟨hne, hle⟩ := not_or.mp hkey
    rw [List.isEmpty_iff_length_eq_zero] at hne
    exact h ⟨by omega, by omega⟩

theorem withKey_digest (h : Admits outlen key) :
    ∃ s₀, withKey outlen key compress = some (.ok s₀) ∧
      ∀ chunks : List (List UInt8), ∃ s, chunks.foldlM Stream.update s₀ = some s ∧
        ∀ out : List UInt8, s.finalize out =
          some (if out.length < outlen then .error .incorrectParameter
            else .ok (Rfc7693.keyedDigest (ofCompress compress) outlen key chunks.flatten ++
              out.drop outlen)) := by
  obtain ⟨s₀, hs₀, hholds⟩ := withKey_holds outlen key compress h
  obtain ⟨⟨hout1, hout2⟩, hkey1, hkey2⟩ := h
  refine ⟨s₀, hs₀, fun chunks => ?_⟩
  obtain ⟨s, hupdates, hlast⟩ := hholds.updates chunks
  have hf := Blake2b.update_f (initState outlen key.length compress) (Rfc7693.block key 0) rfl
  rw [Blake2b.foldl_update _ chunks (by rw [hf]; rfl), Blake2b.update_append _ _ _ rfl] at hlast
  refine ⟨s, hupdates, fun out => ?_⟩
  have hlen := Blake2b.update_outlen (initState outlen key.length compress)
    (Rfc7693.block key 0 ++ chunks.flatten) rfl
  have hf' := Blake2b.update_f (initState outlen key.length compress)
    (Rfc7693.block key 0 ++ chunks.flatten) rfl
  rw [hlast.finalize (by rw [hlen]; exact hout2) out,
    ← keyed_digest_eq compress key hout2 hkey2 chunks.flatten]
  have hfresh : ¬ (initState outlen key.length compress).f.1 ≠ 0 := not_not.mpr rfl
  unfold Blake2b.finalize
  rw [hlen, hf', if_neg hfresh]
  rfl

/-- With any backend `with_key` admits exactly the lengths of the RFC, and a keyed stream never
slices out of range: fed any chunks, it writes the keyed digest of their concatenation, or
rejects an `out` that is too short. -/
theorem keyed_stream_digest (backend : Blake2bBackend) :
    (¬ Admits outlen key →
      withKey outlen key (compressFn backend) = some (.error .incorrectParameter)) ∧
    (Admits outlen key → ∃ s₀, withKey outlen key (compressFn backend) = some (.ok s₀) ∧
      ∀ chunks : List (List UInt8), ∃ s, chunks.foldlM Stream.update s₀ = some s ∧
        ∀ out : List UInt8, s.finalize out =
          some (if out.length < outlen then .error .incorrectParameter
            else .ok (Rfc7693.keyedDigest Rfc7693.compress outlen key chunks.flatten ++
              out.drop outlen))) := by
  rw [compressFn_eq, ← compressScalar_eq]
  exact ⟨withKey_rejects outlen key compressScalar, withKey_digest outlen key compressScalar⟩

/-- A key of 64 bytes and two chunks, the second of which crosses a block. -/
theorem keyed_stream_digest_crossing : ∃ s₀ s,
    withKey 64 ((List.range 64).map UInt8.ofNat) (compressFn .avx2) = some (.ok s₀) ∧
      [List.replicate 100 1, List.replicate 160 2].foldlM Stream.update s₀ = some s ∧
      s.finalize (List.replicate 64 0) = some (.ok (Rfc7693.keyedDigest Rfc7693.compress 64
        ((List.range 64).map UInt8.ofNat) (List.replicate 100 1 ++ List.replicate 160 2))) := by
  obtain ⟨s₀, hs₀, hchunks⟩ := (keyed_stream_digest 64 ((List.range 64).map UInt8.ofNat)
    .avx2).2 ⟨⟨by decide, by decide⟩, by decide, by decide⟩
  obtain ⟨s, hs, hfinal⟩ := hchunks [List.replicate 100 1, List.replicate 160 2]
  refine ⟨s₀, s, hs₀, hs, (hfinal _).trans ?_⟩
  rw [if_neg (by decide), List.drop_of_length_le (by decide), List.append_nil, List.flatten_cons,
    List.flatten_cons, List.flatten_nil, List.append_nil]

end Stream

end Argon2Rust.KeyedBlake2
