import Argon2Rust.Blake2Backends
import Argon2Rust.Programs
import Argon2Rust.Rfc9106
import Argon2Rust.Tiling

set_option autoImplicit false

namespace Argon2Rust.LongOutput
open Bytes Parameters Blake2 Blake2Digest Blake2Stream Blake2Backends Rfc9106 Tiling Programs

/-- The output buffer, and the pieces of it written so far. -/
structure Output where
  bytes : List UInt8
  writes : List Piece

abbrev Writing := Program Output Error

/-- `out[off..off + n].copy_from_slice(src)`. -/
def copyAt (off n : ℕ) (src : List UInt8) : Writing Unit := do
  let o ← Program.get
  let bytes ← Program.access (copyFromSlice o.bytes off (off + n) src)
  Program.set ⟨bytes, o.writes ++ [(off, n)]⟩

def finalizeInto (state : Blake2b) : Writing Unit := do
  let o ← Program.get
  let bytes ← Program.lift (state.finalize o.bytes)
  Program.set ⟨bytes, o.writes ++ [(0, state.outlen)]⟩

theorem copyAt_append (written rest src : List UInt8) (writes : List Piece)
    (h : src.length ≤ rest.length) :
    copyAt written.length src.length src ⟨written ++ rest, writes⟩ =
      some (.ok (), ⟨(written ++ src) ++ rest.drop src.length,
        writes ++ [(written.length, src.length)]⟩) := by
  have hcopy : copyFromSlice (written ++ rest) written.length (written.length + src.length) src =
      some (written ++ src ++ rest.drop src.length) := by
    rw [copyFromSlice_ok (Nat.le_add_right _ _) (by rw [List.length_append]; omega) (by omega),
      List.take_left, List.drop_append, List.drop_eq_nil_of_le (Nat.le_add_right _ _),
      List.nil_append, Nat.add_sub_cancel_left]
  unfold copyAt
  rw [Program.get_bind, hcopy, Program.access_some_bind, Program.set_apply]

section Long
variable (compress : CompressFn)

def writeTail (off toproduce : ℕ) (outBuffer : List UInt8) : Writing Unit :=
  if outBytes < toproduce then do
    let outBuffer ← Program.lift (blake2bWithBackend compress outBuffer outBuffer)
    let half ← Program.access (sliceTo outBuffer halfBytes)
    copyAt off halfBytes half
    writeTail (off + halfBytes) (toproduce - halfBytes) outBuffer
  else do
    let target ← Program.access (sliceTo outBuffer toproduce)
    let digest ← Program.lift (blake2bWithBackend compress target outBuffer)
    copyAt off toproduce digest
termination_by toproduce
decreasing_by
  unfold halfBytes outBytes at *
  omega

def blake2bLongInto (input : List UInt8) : Writing Unit := do
  let o ← Program.get
  let outlen := o.bytes.length
  if 0xFFFFFFFF < outlen then Program.lift (.error .incorrectParameter)
  else
    let outlenBytes := le32 (UInt32.ofNat outlen)
    if outlen ≤ outBytes then do
      let state ← Program.lift (Blake2b.newWithBackend outlen compress)
      finalizeInto ((state.update outlenBytes).update input)
    else do
      let state ← Program.lift (Blake2b.newWithBackend outBytes compress)
      let outBuffer ← Program.lift
        (((state.update outlenBytes).update input).finalize (List.replicate outBytes 0))
      let half ← Program.access (sliceTo outBuffer halfBytes)
      copyAt 0 halfBytes half
      writeTail compress halfBytes (outlen - halfBytes) outBuffer

end Long

theorem le32_ofNat (n : ℕ) : le32 (UInt32.ofNat n) = littleEndian32 n := by
  have hbyte : ∀ k : ℕ, k < 4 → (UInt32.ofNat n >>> UInt32.ofNat (8 * k)).toUInt8 =
      UInt8.ofNat (n / 256 ^ k) := by
    intro k hk
    apply UInt8.toNat_inj.mp
    rw [byte_toNat _ _ (by omega), UInt32.toNat_ofNat', UInt8.toNat_ofNat']
    interval_cases k <;> omega
  have hzero : (UInt32.ofNat n).toUInt8 = (UInt32.ofNat n >>> UInt32.ofNat (8 * 0)).toUInt8 :=
    UInt8.toNat_inj.mp (by rw [byte_toNat _ _ (by decide), UInt32.toNat_toUInt8]; omega)
  unfold le32
  rw [hzero]
  exact congr (congrArg _ (hbyte 0 (by decide))) (congr (congrArg _ (hbyte 1 (by decide)))
    (congr (congrArg _ (hbyte 2 (by decide))) (congr (congrArg _ (hbyte 3 (by decide))) rfl)))

section Closed
variable (compress : CompressFn) (n : ℕ) (input : List UInt8)

theorem flatMap_range_succ (f : ℕ → List UInt8) (j : ℕ) :
    (List.range (j + 1)).flatMap f = f 0 ++ (List.range j).flatMap fun i => f (i + 1) := by
  rw [List.range_succ_eq_map, List.flatMap_cons, List.flatMap_map]

theorem v_length (i : ℕ) : (v (blake2bDigest compress) n input (i + 1)).length = outBytes :=
  blake2bDigest_length compress _ _ le_rfl

/-- The loop from the `k`-th block on, `j` blocks before the last digest. -/
theorem longTail_closed (hn : 64 < n) (j k : ℕ) (hk : 1 ≤ k) (hj : k + j = blockCount n) :
    longTail compress (n - 32 * k) (v (blake2bDigest compress) n input k) =
      .ok (((List.range j).flatMap fun i =>
          (v (blake2bDigest compress) n input (k + i + 1)).take 32) ++
        blake2bDigest compress (n - 32 * blockCount n)
          (v (blake2bDigest compress) n input (blockCount n))) := by
  have hlast := blockCount_spec n hn
  obtain ⟨k, rfl⟩ : ∃ l, k = l + 1 := ⟨k - 1, by omega⟩
  have hlen := v_length compress n input k
  induction j generalizing k with
  | zero =>
    have htake : ((v (blake2bDigest compress) n input (k + 1)).take (n - 32 * (k + 1))).length =
        n - 32 * (k + 1) := by
      rw [List.length_take, hlen]
      unfold outBytes
      omega
    rw [longTail, if_neg (by unfold outBytes; omega), blake2bWithBackend_ok compress _ _ (by omega)
      (by unfold outBytes; omega), htake, List.range_zero, List.flatMap_nil, List.nil_append, ← hj,
      Nat.add_zero]
  | succ j ih =>
    have hnext := ih (k + 1) (by omega) (by omega) (v_length compress n input (k + 1))
    have hleft : n - 32 * (k + 1) - halfBytes = n - 32 * (k + 1 + 1) := by
      unfold halfBytes outBytes
      omega
    have hstep : blake2bDigest compress outBytes (v (blake2bDigest compress) n input (k + 1)) =
        v (blake2bDigest compress) n input (k + 1 + 1) := rfl
    have hindex : ∀ i, k + 1 + (i + 1) + 1 = k + 1 + 1 + i + 1 := fun i => by omega
    rw [longTail, if_pos (by unfold outBytes; omega), blake2bWithBackend_ok compress _ _
      (by rw [hlen]; decide) hlen.le, hlen, ok_bind, hstep, hleft, hnext, ok_bind,
      flatMap_range_succ, List.append_assoc]
    simp only [hindex]
    rfl

theorem hPrime_eq (h1 : 1 ≤ n) (hn : n ≤ 0xFFFFFFFF) :
    hPrime compress n input = variableHash (blake2bDigest compress) n input := by
  have hrep : (List.replicate n (0 : UInt8)).length = n := List.length_replicate
  have hok := blake2bLong_eq compress (List.replicate n 0) input (by omega) (by omega)
  rw [hrep] at hok
  refine Except.ok.inj (hok.symm.trans ?_)
  unfold blake2bLongWithBackend variableHash
  rw [hrep, if_neg (by omega), le32_ofNat]
  dsimp only
  by_cases h : n ≤ 64
  · rw [if_pos (by unfold outBytes; exact h), if_pos h,
      newWithBackend_ok compress n h1 (by unfold outBytes; exact h), ok_bind,
      Blake2b.update_append _ _ _ rfl]
    exact finalize_update_ok compress n _ _ hrep
  · have hlast := blockCount_spec n (by omega)
    obtain ⟨j, hj⟩ : ∃ j, 1 + j = blockCount n := ⟨blockCount n - 1, by omega⟩
    have htail := longTail_closed compress n input (by omega) j 1 le_rfl hj
    have hfirst : blake2bDigest compress outBytes (littleEndian32 n ++ input) =
        v (blake2bDigest compress) n input 1 := rfl
    rw [if_neg (by unfold outBytes; exact h), if_neg h,
      newWithBackend_ok compress outBytes (by decide) le_rfl, ok_bind,
      Blake2b.update_append _ _ _ rfl, finalize_update_ok compress _ _ _ List.length_replicate,
      ok_bind, hfirst]
    change (longTail compress (n - 32 * 1) _ >>= _) = _
    have hindex : ∀ i, 1 + i + 1 = i + 1 + 1 := fun i => by omega
    rw [htail, ok_bind, ← hj, Nat.add_comm 1 j, flatMap_range_succ, List.append_assoc]
    simp only [hindex]
    rfl

end Closed

section Writes
variable (compress : CompressFn)

theorem writeTail_step {toproduce : ℕ} {outBuffer rest : List UInt8} (written : List UInt8)
    (writes : List Piece) (h : outBytes < toproduce) (hbuf : outBuffer.length = outBytes)
    (hrest : rest.length = toproduce) :
    writeTail compress written.length toproduce outBuffer ⟨written ++ rest, writes⟩ =
      writeTail compress (written.length + halfBytes) (toproduce - halfBytes)
        (blake2bDigest compress outBytes outBuffer)
        ⟨(written ++ (blake2bDigest compress outBytes outBuffer).take halfBytes) ++
          rest.drop halfBytes, writes ++ [(written.length, halfBytes)]⟩ := by
  have hd := blake2bDigest_length compress outBytes outBuffer le_rfl
  have hok := blake2bWithBackend_ok compress outBuffer outBuffer (by rw [hbuf]; decide) hbuf.le
  rw [hbuf] at hok
  have hhalf : ((blake2bDigest compress outBytes outBuffer).take halfBytes).length =
      halfBytes := by
    rw [List.length_take, hd]
    decide
  have hslice : sliceTo (blake2bDigest compress outBytes outBuffer) halfBytes =
      some ((blake2bDigest compress outBytes outBuffer).take halfBytes) :=
    if_pos (by rw [hd]; decide)
  have hcopy := copyAt_append written rest
    ((blake2bDigest compress outBytes outBuffer).take halfBytes) writes
    (by rw [hhalf, hrest]; unfold halfBytes outBytes at *; omega)
  rw [hhalf] at hcopy
  rw [writeTail, if_pos h, hok, Program.lift_ok_bind, hslice, Program.access_some_bind,
    Program.bind_of_ok hcopy]

theorem writeTail_last {toproduce : ℕ} {outBuffer rest : List UInt8} (written : List UInt8)
    (writes : List Piece) (h : ¬ outBytes < toproduce) (hpos : 0 < toproduce)
    (hbuf : outBuffer.length = outBytes) (hrest : rest.length = toproduce) :
    longTail compress toproduce outBuffer = .ok (blake2bDigest compress toproduce outBuffer) ∧
      writeTail compress written.length toproduce outBuffer ⟨written ++ rest, writes⟩ =
        some (.ok (), ⟨written ++ blake2bDigest compress toproduce outBuffer,
          writes ++ [(written.length, toproduce)]⟩) := by
  have htake : (outBuffer.take toproduce).length = toproduce := by
    rw [List.length_take, hbuf]
    omega
  have hok := blake2bWithBackend_ok compress (outBuffer.take toproduce) outBuffer (by omega)
    (by omega)
  rw [htake] at hok
  have hd := blake2bDigest_length compress toproduce outBuffer (by omega)
  have hcopy := copyAt_append written rest (blake2bDigest compress toproduce outBuffer)
    writes (by omega)
  rw [hd, ← hrest, List.drop_length, List.append_nil, hrest] at hcopy
  have hslice : sliceTo outBuffer toproduce = some (outBuffer.take toproduce) :=
    if_pos (by rw [hbuf]; omega)
  constructor
  · rw [longTail, if_neg h, hok]
  · rw [writeTail, if_neg h, hslice, Program.access_some_bind, hok, Program.lift_ok_bind, hcopy]

/-- The loop writes its pieces in order; the last of them is the tail at the exit. -/
theorem writeTail_eq (toproduce : ℕ) (outBuffer written rest : List UInt8) (writes : List Piece)
    (h33 : 33 ≤ toproduce) (hbuf : outBuffer.length = outBytes) (hrest : rest.length = toproduce) :
    ∃ tail pieces off last, longTail compress toproduce outBuffer = .ok tail ∧
      writeTail compress written.length toproduce outBuffer ⟨written ++ rest, writes⟩ =
        some (.ok (), ⟨written ++ tail, writes ++ pieces ++ [(off, last)]⟩) ∧
      Tiles written.length pieces off ∧ off + last = written.length + toproduce ∧
      33 ≤ last ∧ last ≤ 64 := by
  induction toproduce using Nat.strong_induction_on generalizing outBuffer written rest writes with
  | _ toproduce ih =>
    by_cases h : outBytes < toproduce
    · have hd := blake2bDigest_length compress outBytes outBuffer le_rfl
      have hok := blake2bWithBackend_ok compress outBuffer outBuffer (by rw [hbuf]; decide) hbuf.le
      rw [hbuf] at hok
      have hhalf : ((blake2bDigest compress outBytes outBuffer).take halfBytes).length =
          halfBytes := by
        rw [List.length_take, hd]
        decide
      have hwritten : (written ++ (blake2bDigest compress outBytes outBuffer).take halfBytes).length =
          written.length + halfBytes := by
        rw [List.length_append, hhalf]
      obtain ⟨tail, pieces, off, last, htail, hrun, htiles, hend, hge, hle64⟩ :=
        ih (toproduce - halfBytes) (by unfold halfBytes outBytes at *; omega)
          (blake2bDigest compress outBytes outBuffer)
          (written ++ (blake2bDigest compress outBytes outBuffer).take halfBytes)
          (rest.drop halfBytes) (writes ++ [(written.length, halfBytes)])
          (by unfold halfBytes outBytes at *; omega) hd (by rw [List.length_drop, hrest])
      refine ⟨(blake2bDigest compress outBytes outBuffer).take halfBytes ++ tail,
        (written.length, halfBytes) :: pieces, off, last, ?_, ?_, ?_, ?_, hge, hle64⟩
      · rw [longTail, if_pos h, hok, ok_bind, htail, ok_bind]
      · rw [hwritten] at hrun
        rw [writeTail_step compress written writes h hbuf hrest, hrun, List.append_assoc written,
          List.append_assoc writes, List.singleton_append]
      · rw [hwritten] at htiles
        exact .cons htiles
      · rw [hwritten] at hend
        unfold halfBytes outBytes at *
        omega
    · obtain ⟨htail, hrun⟩ := writeTail_last compress written writes h (by omega) hbuf hrest
      refine ⟨blake2bDigest compress toproduce outBuffer, [], written.length, toproduce, htail, ?_,
        .nil _, rfl, h33, by unfold outBytes at h; omega⟩
      rw [hrun, List.append_nil]

theorem finalizeInto_ok (state : Blake2b) (o : Output) (bytes : List UInt8)
    (h : state.finalize o.bytes = .ok bytes) :
    finalizeInto state o = some (.ok (), ⟨bytes, o.writes ++ [(0, state.outlen)]⟩) := by
  unfold finalizeInto
  rw [Program.get_bind, h, Program.lift_ok_bind, Program.set_apply]

theorem blake2bLongInto_ok (out input : List UInt8) (h1 : 1 ≤ out.length)
    (hn : out.length ≤ 0xFFFFFFFF) :
    ∃ pieces, blake2bLongInto compress input ⟨out, []⟩ =
        some (.ok (), ⟨hPrime compress out.length input, pieces⟩) ∧
      Tiles 0 pieces out.length ∧
      (64 < out.length → ∃ last, pieces.getLast? = some last ∧ 33 ≤ last.2 ∧ last.2 ≤ 64) := by
  have hlong := blake2bLong_eq compress out input h1 hn
  unfold blake2bLongWithBackend at hlong
  unfold blake2bLongInto
  rw [Program.get_bind]
  dsimp only at hlong ⊢
  rw [if_neg (by omega)] at hlong ⊢
  by_cases h : out.length ≤ outBytes
  · rw [if_pos h, newWithBackend_ok compress _ h1 h] at hlong ⊢
    rw [ok_bind, Blake2b.update_append _ _ _ rfl] at hlong
    have hoff := Blake2b.update_outlen (initState out.length 0 compress)
      (le32 (UInt32.ofNat out.length) ++ input) rfl
    refine ⟨[(0, out.length)], ?_, ?_, ?_⟩
    · rw [Program.lift_ok_bind, Blake2b.update_append _ _ _ rfl, finalizeInto_ok _ _ _ hlong, hoff]
      rfl
    · have hsingle := Tiles.single 0 out.length
      rwa [Nat.zero_add] at hsingle
    · intro h64
      unfold outBytes at h
      omega
  · rw [if_neg h, newWithBackend_ok compress _ (by decide) le_rfl] at hlong ⊢
    rw [ok_bind, Blake2b.update_append _ _ _ rfl,
      finalize_update_ok compress _ _ _ List.length_replicate, ok_bind] at hlong
    generalize hbuf : blake2bDigest compress outBytes (le32 (UInt32.ofNat out.length) ++ input) =
      outBuffer at hlong
    have hd : outBuffer.length = outBytes := by
      rw [← hbuf]
      exact blake2bDigest_length compress _ _ le_rfl
    have hhalf : (outBuffer.take halfBytes).length = halfBytes := by
      rw [List.length_take, hd]
      decide
    obtain ⟨tail, pieces, off, last, htail, hrun, htiles, hend, hge, hle⟩ :=
      writeTail_eq compress (out.length - halfBytes) outBuffer (outBuffer.take halfBytes)
        (out.drop halfBytes) [(0, halfBytes)] (by unfold halfBytes outBytes at *; omega) hd
        List.length_drop
    rw [htail, ok_bind, Except.ok.injEq] at hlong
    have hcopy := copyAt_append [] out (outBuffer.take halfBytes) []
      (by rw [hhalf]; unfold halfBytes outBytes at *; omega)
    rw [hhalf] at hcopy hrun
    refine ⟨(0, halfBytes) :: (pieces ++ [(off, last)]), ?_, .cons ?_, ?_⟩
    · have hslice : sliceTo outBuffer halfBytes = some (outBuffer.take halfBytes) :=
        if_pos (by rw [hd]; decide)
      rw [Program.lift_ok_bind, Blake2b.update_append _ _ _ rfl,
        finalize_update_ok compress _ _ _ List.length_replicate, Program.lift_ok_bind, hbuf, hslice,
        Program.access_some_bind,
        ← hlong, ← List.singleton_append, ← List.append_assoc, ← hrun]
      exact Program.bind_of_ok hcopy
    · have hsingle := Tiles.single off last
      rw [hhalf] at htiles hend
      rw [show off + last = out.length by unfold halfBytes outBytes at *; omega] at hsingle
      rw [Nat.zero_add]
      exact htiles.append hsingle
    · intro _
      refine ⟨(off, last), ?_, hge, hle⟩
      rw [← List.cons_append, List.getLast?_append, List.getLast?_singleton, Option.some_or]

theorem blake2bLongInto_error (out input : List UInt8)
    (h : out.length = 0 ∨ 0xFFFFFFFF < out.length) :
    blake2bLongInto compress input ⟨out, []⟩ =
      some (.error .incorrectParameter, ⟨out, []⟩) := by
  unfold blake2bLongInto
  rw [Program.get_bind]
  dsimp only
  by_cases hlong : 0xFFFFFFFF < out.length
  · rw [if_pos hlong]
    rfl
  · have hzero : out.length = 0 := by omega
    have hnew : Blake2b.newWithBackend out.length compress = .error .incorrectParameter :=
      if_pos (Or.inl hzero)
    rw [if_neg hlong, if_pos (by rw [hzero]; exact Nat.zero_le _), hnew, Program.lift_error_bind]

end Writes

/-- On every backend `blake2b_long` has an outcome, an error exactly on the
lengths 0 and above `u32::MAX`, which leaves the buffer alone. On every other
length it writes each byte once and leaves the variable-length hash over BLAKE2b. -/
theorem blake2bLong_rfc (backend : Blake2bBackend) (out input : List UInt8) :
    ∃ result o, blake2bLongInto (compressFn backend) input ⟨out, []⟩ = some (result, o) ∧
      ((∃ e, result = .error e) ↔ out.length = 0 ∨ 0xFFFFFFFF < out.length) ∧
      (∀ e, result = .error e → o = ⟨out, []⟩) ∧
      (result = .ok () →
        o.bytes = variableHash (Rfc7693.digest Rfc7693.compress) out.length input ∧
        (∀ i < out.length, o.writes.countP (covers i) = 1) ∧
        (∀ piece ∈ o.writes, piece.1 + piece.2 ≤ out.length) ∧
        (64 < out.length →
          ∃ last, o.writes.getLast? = some last ∧ 33 ≤ last.2 ∧ last.2 ≤ 64)) := by
  by_cases h : out.length = 0 ∨ 0xFFFFFFFF < out.length
  · refine ⟨_, _, blake2bLongInto_error (compressFn backend) out input h,
      ⟨fun _ => h, fun _ => ⟨_, rfl⟩⟩, fun _ _ => rfl, ?_⟩
    intro hok
    cases hok
  · obtain ⟨pieces, hrun, htiles, hlast⟩ :=
      blake2bLongInto_ok (compressFn backend) out input (by omega) (by omega)
    refine ⟨_, _, hrun, ⟨?_, fun hc => absurd hc h⟩, ?_, ?_⟩
    · rintro ⟨e, he⟩
      cases he
    · intro e he
      cases he
    · intro _
      refine ⟨?_, ?_, fun piece hp => (htiles.within piece hp).2, hlast⟩
      · change hPrime _ _ _ = _
        rw [hPrime_eq _ _ _ (by omega) (by omega), compressFn_eq, ← compressScalar_eq]
        exact variableHash_congr _ _ fun k hk x => blake2bDigest_eq compressScalar k hk x
      · intro i hi
        rw [htiles.countP, if_pos ⟨Nat.zero_le i, hi⟩]

end Argon2Rust.LongOutput
