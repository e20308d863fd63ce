import Argon2Rust.Blake2Digest

set_option autoImplicit false

namespace Argon2Rust.Blake2Stream
open Bytes Parameters Blake2 Blake2Digest

section Slices
variable {α : Type}

def sliceTo (xs : List α) (b : ℕ) : Option (List α) :=
  if b ≤ xs.length then some (xs.take b) else none

/-- `&xs[a..]`. -/
def sliceFrom (xs : List α) (a : ℕ) : Option (List α) :=
  if a ≤ xs.length then some (xs.drop a) else none

def splitAt (xs : List α) (mid : ℕ) : Option (List α × List α) :=
  if mid ≤ xs.length then some (xs.take mid, xs.drop mid) else none

/-- `dst[a..b].copy_from_slice(src)`. -/
def copyFromSlice (dst : List α) (a b : ℕ) (src : List α) : Option (List α) :=
  if a ≤ b ∧ b ≤ dst.length ∧ src.length = b - a then some (dst.take a ++ src ++ dst.drop b)
  else none

def checkedSub (a b : ℕ) : Option ℕ := if b ≤ a then some (a - b) else none

theorem splitAt_length {xs head tail : List α} {mid : ℕ} (h : splitAt xs mid = some (head, tail)) :
    tail.length = xs.length - mid := by
  unfold splitAt at h
  by_cases hmid : mid ≤ xs.length
  · rw [if_pos hmid] at h
    cases h
    exact List.length_drop
  · rw [if_neg hmid] at h
    cases h

end Slices

/-- The buffer as the source has it. A slice of it out of range has no result. -/
structure Stream where
  h : Vector UInt64 8
  t : UInt64 × UInt64
  f : UInt64 × UInt64
  buf : List UInt8
  buflen : ℕ
  outlen : ℕ
  lastNode : Bool
  compress : CompressFn

namespace Stream

def initParam (outlen keylen : ℕ) (compress : CompressFn) : Except Error Stream :=
  if outlen = 0 ∨ outlen > outBytes then .error .incorrectParameter
  else if keylen > keyBytes then .error .incorrectParameter
  else .ok {
    h := Vector.ofFn fun i : Fin 8 => iv.get i ^^^ paramWord outlen keylen i
    t := (0, 0), f := (0, 0), buf := List.replicate blockBytes 0, buflen := 0
    outlen, lastNode := false, compress }

def new (outlen : ℕ) (compress : CompressFn) : Except Error Stream := initParam outlen 0 compress

def incrementCounter (s : Stream) (inc : UInt64) : Stream :=
  let t0 := s.t.1 + inc
  { s with t := (t0, s.t.2 + if t0 < inc then 1 else 0) }

def setLastblock (s : Stream) : Stream :=
  { s with f := (0xFFFFFFFFFFFFFFFF, if s.lastNode then 0xFFFFFFFFFFFFFFFF else s.f.2) }

def compressWith (s : Stream) (block : List UInt8) : Stream :=
  { s with h := s.compress s.h s.t s.f (Vector.ofFn fun i : Fin 16 => word block i) }

def absorbBlocks (s : Stream) (pin : List UInt8) : Option (Stream × List UInt8) :=
  if _hmore : blockBytes < pin.length then
    match _hsplit : splitAt pin blockBytes with
    | none => none
    | some (block, rest) => absorbBlocks ((s.incrementCounter 128).compressWith block) rest
  else some (s, pin)
termination_by pin.length
decreasing_by
  have hlen := splitAt_length ‹_›
  unfold blockBytes at *
  omega

def completeBlock (s : Stream) (pin : List UInt8) : Option (Stream × List UInt8) := do
  let left := s.buflen
  let fill ← checkedSub blockBytes left
  let head ← sliceTo pin fill
  let buf ← copyFromSlice s.buf left s.buf.length head
  let s := ({ s with buf := buf }.incrementCounter 128).compressWith buf
  let pin ← sliceFrom pin fill
  absorbBlocks { s with buflen := 0 } pin

def update (s : Stream) (input : List UInt8) : Option Stream :=
  if input.isEmpty then some s
  else if s.f.1 ≠ 0 then some s
  else do
    let (s, pin) ←
      if blockBytes < s.buflen + input.length then s.completeBlock input else some (s, input)
    let buf ← copyFromSlice s.buf s.buflen (s.buflen + pin.length) pin
    some { s with buf := buf, buflen := s.buflen + pin.length }

def finalize (s : Stream) (out : List UInt8) : Option (Except Error (List UInt8)) :=
  if out.length < s.outlen then some (.error .incorrectParameter)
  else if s.f.1 ≠ 0 then some (.error .incorrectParameter)
  else do
    let s := (s.incrementCounter (UInt64.ofNat s.buflen)).setLastblock
    let tail ← sliceFrom s.buf s.buflen
    let buf ← copyFromSlice s.buf s.buflen s.buf.length (tail.map fun _ => 0)
    let buffer := (s.compressWith buf).h.toList.flatMap le64
    let written ← sliceTo buffer s.outlen
    let out ← copyFromSlice out 0 s.outlen written
    some (.ok out)

end Stream

/-- The stream `s` holds the state `x`, and whatever is left of older bytes behind it. -/
structure Holds (s : Stream) (x : Blake2b) : Prop where
  h_eq : s.h = x.h
  t_eq : s.t = x.t
  f_eq : s.f = x.f
  outlen_eq : s.outlen = x.outlen
  lastNode_eq : s.lastNode = x.lastNode
  compress_eq : s.compress = x.compress
  buflen_eq : s.buflen = x.buf.length
  filled : s.buf.take s.buflen = x.buf
  buf_length : s.buf.length = blockBytes

section Refinement
variable {s : Stream} {x : Blake2b}

theorem copyFromSlice_ok {α : Type} {dst src : List α} {a b : ℕ} (hab : a ≤ b) (hb : b ≤ dst.length)
    (hsrc : src.length = b - a) :
    copyFromSlice dst a b src = some (dst.take a ++ src ++ dst.drop b) := if_pos ⟨hab, hb, hsrc⟩

theorem Holds.compressed (hs : Holds s x) (inc : UInt64) (block : List UInt8) :
    Holds ((s.incrementCounter inc).compressWith block)
      ((x.incrementCounter inc).compressWith block) := by
  have ht : (s.incrementCounter inc).t = (x.incrementCounter inc).t := by
    unfold Stream.incrementCounter Blake2b.incrementCounter
    rw [hs.t_eq]
  have hh : ((s.incrementCounter inc).compressWith block).h =
      ((x.incrementCounter inc).compressWith block).h := by
    change s.compress s.h (s.incrementCounter inc).t s.f _ =
      x.compress x.h (x.incrementCounter inc).t x.f _
    rw [hs.compress_eq, hs.h_eq, ht, hs.f_eq]
  exact ⟨hh, ht, hs.f_eq, hs.outlen_eq, hs.lastNode_eq, hs.compress_eq, hs.buflen_eq, hs.filled,
    hs.buf_length⟩

theorem Holds.absorbed (hs : Holds s x) (pin : List UInt8) :
    ∃ s', s.absorbBlocks pin = some (s', (x.absorbBlocks pin).2) ∧
      Holds s' (x.absorbBlocks pin).1 := by
  induction x, pin using Blake2b.absorbBlocks.induct generalizing s with
  | case1 x pin h ih =>
    have hsplit : splitAt pin blockBytes = some (pin.take blockBytes, pin.drop blockBytes) :=
      if_pos h.le
    obtain ⟨s', hs', hholds⟩ := ih (hs.compressed 128 (pin.take blockBytes))
    refine ⟨s', ?_, ?_⟩
    · rw [Stream.absorbBlocks, dif_pos h, Blake2b.absorbBlocks_full x pin h, ← hs']
      split
      · rename_i hnone
        rw [hsplit] at hnone
        cases hnone
      · rename_i block rest hsome
        rw [hsplit] at hsome
        cases hsome
        rfl
    · rw [Blake2b.absorbBlocks_full x pin h]
      exact hholds
  | case2 x pin h =>
    refine ⟨s, ?_, ?_⟩
    · rw [Stream.absorbBlocks, dif_neg h, Blake2b.absorbBlocks_short x pin (Nat.le_of_not_lt h)]
    · rw [Blake2b.absorbBlocks_short x pin (Nat.le_of_not_lt h)]
      exact hs

theorem Holds.stored (hs : Holds s x) (pin : List UInt8)
    (hfits : (x.buf ++ pin).length ≤ blockBytes) :
    ∃ buf, copyFromSlice s.buf s.buflen (s.buflen + pin.length) pin = some buf ∧
      Holds { s with buf := buf, buflen := s.buflen + pin.length }
        { x with buf := x.buf ++ pin, buf_le := hfits } := by
  have hlevel := hs.buflen_eq
  have hlength := hs.buf_length
  rw [List.length_append] at hfits
  refine ⟨_, copyFromSlice_ok (by omega) (by omega) (by omega),
    hs.h_eq, hs.t_eq, hs.f_eq, hs.outlen_eq, hs.lastNode_eq, hs.compress_eq, ?_, ?_, ?_⟩
  · change s.buflen + pin.length = (x.buf ++ pin).length
    rw [List.length_append, hlevel]
  · change (s.buf.take s.buflen ++ pin ++ s.buf.drop (s.buflen + pin.length)).take
      (s.buflen + pin.length) = x.buf ++ pin
    rw [hs.filled]
    exact List.take_left' (by rw [List.length_append, hlevel])
  · change (s.buf.take s.buflen ++ pin ++ s.buf.drop (s.buflen + pin.length)).length = blockBytes
    rw [hs.filled, List.length_append, List.length_append, List.length_drop]
    omega

theorem Holds.completed (hs : Holds s x) (input : List UInt8)
    (hfull : blockBytes < x.buf.length + input.length) :
    let fill := blockBytes - x.buf.length
    let y := (x.incrementCounter 128).compressWith (x.buf ++ input.take fill)
    ∃ s', s.completeBlock input = some (s', (y.absorbBlocks (input.drop fill)).2) ∧
      Holds s' { (y.absorbBlocks (input.drop fill)).1 with buf := [], buf_le := Nat.zero_le _ } := by
  intro fill y
  have hle := x.buf_le
  have hlevel := hs.buflen_eq
  have hlength := hs.buf_length
  have hfill : checkedSub blockBytes s.buflen = some fill := by
    rw [hlevel]
    exact if_pos hle
  have hhead : sliceTo input fill = some (input.take fill) := if_pos (by omega)
  have htail : sliceFrom input fill = some (input.drop fill) := if_pos (by omega)
  have hcopy : copyFromSlice s.buf s.buflen s.buf.length (input.take fill) =
      some (x.buf ++ input.take fill) := by
    rw [copyFromSlice_ok (by omega) le_rfl (by rw [List.length_take]; omega), hs.filled,
      List.drop_length, List.append_nil]
  have hblock : (x.buf ++ input.take fill).length = blockBytes := by
    rw [List.length_append, List.length_take]
    omega
  have hempty : Holds { s with buf := x.buf ++ input.take fill, buflen := 0 }
      { x with buf := [], buf_le := Nat.zero_le _ } :=
    ⟨hs.h_eq, hs.t_eq, hs.f_eq, hs.outlen_eq, hs.lastNode_eq, hs.compress_eq, rfl, rfl, hblock⟩
  obtain ⟨s', hs', hholds⟩ :=
    (hempty.compressed 128 (x.buf ++ input.take fill)).absorbed (input.drop fill)
  have hset := Blake2b.absorbBlocks_setBuf y (input.drop fill) [] (Nat.zero_le _)
  change ({ y with buf := [], buf_le := Nat.zero_le _ } : Blake2b).absorbBlocks _ = _ at hset
  refine ⟨s', ?_, ?_⟩
  · unfold Stream.completeBlock
    simp only [hfill, hhead, hcopy, htail, Option.bind_eq_bind, Option.bind_some]
    exact hs'.trans (congrArg (fun r => some (s', r.2)) hset)
  · exact Eq.mp (congrArg (Holds s') (congrArg Prod.fst hset)) hholds

/-- `update` never slices out of range, and keeps what the abstract state keeps. -/
theorem Holds.update (hs : Holds s x) (input : List UInt8) :
    ∃ s', s.update input = some s' ∧ Holds s' (x.update input) := by
  unfold Stream.update Blake2b.update
  by_cases hempty : input.isEmpty
  · rw [if_pos hempty, if_pos hempty]
    exact ⟨s, rfl, hs⟩
  · rw [if_neg hempty, if_neg hempty, hs.f_eq]
    by_cases hf : x.f.1 ≠ 0
    · rw [if_pos hf, if_pos hf]
      exact ⟨s, rfl, hs⟩
    · rw [if_neg hf, if_neg hf, hs.buflen_eq]
      by_cases hfull : blockBytes < x.buf.length + input.length
      · obtain ⟨s', hs', hholds⟩ := hs.completed input hfull
        obtain ⟨buf, hbuf, hstored⟩ := hholds.stored
          (((x.incrementCounter 128).compressWith
            (x.buf ++ input.take (blockBytes - x.buf.length))).absorbBlocks
              (input.drop (blockBytes - x.buf.length))).2 (Blake2b.absorbBlocks_le _ _)
        rw [if_pos hfull, dif_pos hfull, hs']
        simp only [Option.bind_eq_bind, Option.bind_some, hbuf]
        exact ⟨_, rfl, hstored⟩
      · obtain ⟨buf, hbuf, hstored⟩ := hs.stored input (by
          rw [List.length_append]
          exact Nat.le_of_not_lt hfull)
        rw [if_neg hfull, dif_neg hfull]
        simp only [Option.bind_eq_bind, Option.bind_some, hbuf]
        exact ⟨_, rfl, hstored⟩

theorem Holds.updates (hs : Holds s x) (chunks : List (List UInt8)) :
    ∃ s', chunks.foldlM Stream.update s = some s' ∧ Holds s' (chunks.foldl Blake2b.update x) := by
  induction chunks generalizing s x with
  | nil => exact ⟨s, rfl, hs⟩
  | cons chunk chunks ih =>
    obtain ⟨s₁, h₁, hholds⟩ := hs.update chunk
    obtain ⟨s₂, h₂, hlast⟩ := ih hholds
    refine ⟨s₂, ?_, hlast⟩
    rw [List.foldlM_cons, h₁]
    exact h₂

theorem Holds.finalize (hs : Holds s x) (houtlen : x.outlen ≤ outBytes) (out : List UInt8) :
    s.finalize out = some (x.finalize out) := by
  have hle := x.buf_le
  have hlevel := hs.buflen_eq
  have hlength := hs.buf_length
  unfold Stream.finalize Blake2b.finalize
  rw [hs.outlen_eq, hs.f_eq]
  by_cases hshort : out.length < x.outlen
  · rw [if_pos hshort, if_pos hshort]
  · rw [if_neg hshort, if_neg hshort]
    by_cases hf : x.f.1 ≠ 0
    · rw [if_pos hf, if_pos hf]
    · rw [if_neg hf, if_neg hf]
      have htail : sliceFrom s.buf s.buflen = some (s.buf.drop s.buflen) := if_pos (by omega)
      have hzeros : (s.buf.drop s.buflen).map (fun _ => (0 : UInt8)) =
          List.replicate (blockBytes - x.buf.length) 0 := by
        rw [List.map_const', List.length_drop, hlength, hlevel]
      have hcopy : copyFromSlice s.buf s.buflen s.buf.length
          (List.replicate (blockBytes - x.buf.length) 0) =
            some (x.buf ++ List.replicate (blockBytes - x.buf.length) 0) := by
        rw [copyFromSlice_ok (by omega) le_rfl (by rw [List.length_replicate]; omega), hs.filled,
          List.drop_length, List.append_nil]
      have hlast : (((s.incrementCounter (UInt64.ofNat s.buflen)).setLastblock).compressWith
          (x.buf ++ List.replicate (blockBytes - x.buf.length) 0)).h.toList.flatMap le64 =
            x.digest := by
        unfold Blake2b.digest Stream.compressWith Stream.setLastblock Stream.incrementCounter
        rw [hs.h_eq, hs.t_eq, hs.f_eq, hs.lastNode_eq, hs.compress_eq, hlevel]
        rfl
      have hwritten : sliceTo x.digest x.outlen = some (x.digest.take x.outlen) :=
        if_pos (by rw [Blake2b.digest_length]; exact houtlen)
      have hout : copyFromSlice out 0 x.outlen (x.digest.take x.outlen) =
          some (x.digest.take x.outlen ++ out.drop x.outlen) := by
        rw [copyFromSlice_ok (Nat.zero_le _) (by omega) (by
          rw [List.length_take, Blake2b.digest_length]
          omega)]
        rfl
      change (sliceFrom s.buf s.buflen >>= fun tail =>
        copyFromSlice s.buf s.buflen s.buf.length (tail.map fun _ => 0) >>= _) = _
      rw [htail, Option.bind_eq_bind, Option.bind_some, hzeros, hcopy, Option.bind_some]
      change (sliceTo ((((s.incrementCounter (UInt64.ofNat s.buflen)).setLastblock).compressWith
        (x.buf ++ List.replicate (blockBytes - x.buf.length) 0)).h.toList.flatMap le64) s.outlen
          >>= fun written => (copyFromSlice out 0 s.outlen written >>= fun out =>
            some (Except.ok out))) = _
      rw [hlast, hs.outlen_eq, hwritten, Option.bind_eq_bind, Option.bind_some, hout]
      rfl

theorem Holds.new (outlen : ℕ) (h1 : 1 ≤ outlen) (hle : outlen ≤ outBytes) (compress : CompressFn) :
    ∃ s, Stream.new outlen compress = .ok s ∧ Holds s (initState outlen 0 compress) := by
  refine ⟨_, (if_neg (by omega)).trans (if_neg (Nat.not_lt_zero _)), ?_⟩
  exact ⟨rfl, rfl, rfl, rfl, rfl, rfl, rfl, rfl, List.length_replicate⟩

end Refinement

/-- A run of updates over the chunks, then `finalize`; no slice of it is out of range. -/
def Writes (compress : CompressFn) (outlen : ℕ) (chunks : List (List UInt8))
    (out written : List UInt8) : Prop :=
  ∃ s₀, Stream.new outlen compress = .ok s₀ ∧
    ∃ s, chunks.foldlM Stream.update s₀ = some s ∧ s.finalize out = some (.ok written)

theorem writes_digest (compress : CompressFn) (outlen : ℕ) (h1 : 1 ≤ outlen)
    (hle : outlen ≤ outBytes) (chunks : List (List UInt8)) (out : List UInt8)
    (hout : outlen ≤ out.length) :
    Writes compress outlen chunks out
      (Rfc7693.digest (ofCompress compress) outlen chunks.flatten ++ out.drop outlen) := by
  obtain ⟨s₀, hnew, hholds⟩ := Holds.new outlen h1 hle compress
  obtain ⟨s, hupdates, hlast⟩ := hholds.updates chunks
  rw [Blake2b.foldl_update _ chunks rfl] at hlast
  have hlen : ((initState outlen 0 compress).update chunks.flatten).outlen = outlen :=
    Blake2b.update_outlen _ _ rfl
  have hf : ((initState outlen 0 compress).update chunks.flatten).f = (0, 0) :=
    Blake2b.update_f _ _ rfl
  refine ⟨s₀, hnew, s, hupdates, ?_⟩
  rw [hlast.finalize (by rw [hlen]; exact hle) out, ← blake2bDigest_eq compress outlen hle]
  unfold Blake2b.finalize blake2bDigest
  rw [hlen, hf, if_neg (by omega), if_neg (not_not.mpr rfl)]

/-- Streaming writes the digest of the concatenation, whatever the split. -/
theorem streaming_digest (outlen : ℕ) (h1 : 1 ≤ outlen) (hle : outlen ≤ outBytes)
    (chunks : List (List UInt8)) (out : List UInt8) (hout : outlen ≤ out.length) :
    Writes compressScalar outlen chunks out
        (Rfc7693.digest Rfc7693.compress outlen chunks.flatten ++ out.drop outlen) ∧
      ∀ compress : CompressFn, Writes compress outlen chunks out
        (Rfc7693.digest (ofCompress compress) outlen chunks.flatten ++ out.drop outlen) := by
  have hwrites := fun compress => writes_digest compress outlen h1 hle chunks out hout
  refine ⟨?_, hwrites⟩
  rw [← compressScalar_eq]
  exact hwrites compressScalar

/-- A full block held back, an empty chunk, then the byte that pushes it out. -/
theorem streaming_digest_boundary :
    Writes compressScalar 32 [List.replicate 128 7, [], [1]] (List.replicate 40 9)
      (Rfc7693.digest Rfc7693.compress 32 (List.replicate 128 7 ++ [1]) ++ List.replicate 8 9) :=
  (streaming_digest 32 (by decide) (by decide) [List.replicate 128 7, [], [1]] (List.replicate 40 9)
    (by decide)).1

end Argon2Rust.Blake2Stream
