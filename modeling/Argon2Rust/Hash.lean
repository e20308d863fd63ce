import Argon2Rust.Blake2
import Argon2Rust.Fill

set_option autoImplicit false

/-!
# Hashing in an arena

The pre-hash, the first two blocks of every lane, the fill and `finalize`. The
fill is a parameter of `hashInArena`, so the single-threaded and the scheduled
computation share everything else. Indices that the source computes in `usize`
are naturals compared against the width's range.
-/
namespace Argon2Rust.Hash
open Bytes Parameters Compression IndexAlpha Segment Blake2 Fill

structure Inputs where
  pwd : List UInt8
  salt : List UInt8
  secret : List UInt8
  ad : List UInt8

def prehashDigestLength : ℕ := 64
def prehashSeedLength : ℕ := 72
def blockSize : ℕ := 1024

def lengthBytes (bytes : List UInt8) : List UInt8 := le32 (UInt32.ofNat bytes.length)

section Prehash
variable {w : PointerWidth} (algorithm : Algorithm) (version : Version) (p : Params w) (x : Inputs)

/-- What `initial_hash_into` feeds to BLAKE2b, piece by piece. -/
def initialHashPieces : List (List UInt8) :=
  [le32 p.lanes, le32 (UInt32.ofNat p.tagLenBytes), le32 p.memoryKib, le32 p.passes,
    le32 version.asU32, le32 algorithm.asU32, lengthBytes x.pwd, x.pwd, lengthBytes x.salt, x.salt,
    lengthBytes x.secret, x.secret, lengthBytes x.ad, x.ad]

def initialHash (compress : CompressFn) : Except Error (List UInt8) := do
  let state ← Blake2b.newWithBackend prehashDigestLength compress
  let digest ← ((initialHashPieces algorithm version p x).foldl Blake2b.update state).finalize
    (List.replicate prehashDigestLength 0)
  .ok (digest ++ List.replicate (prehashSeedLength - prehashDigestLength) 0)

end Prehash

def checkedUsize (w : PointerWidth) (n : ℕ) : Except Error ℕ :=
  if n < 2 ^ w.bits then .ok n else .error .incorrectParameter

def storeFirst (arena : Arena) (index : ℕ) (bytes : List UInt8) : Except Error Arena :=
  if index < arena.size then .ok (arena.setIfInBounds index (Block.fromLeBytes bytes))
  else .error .incorrectParameter

def seedBytes (blockhash : List UInt8) (k lane : UInt32) : List UInt8 :=
  blockhash.take prehashDigestLength ++ le32 k ++ le32 lane

def fillFirstLane (w : PointerWidth) (compress : CompressFn) (blockhash : List UInt8)
    (laneLength : UInt32) (arena : Arena) (lane : ℕ) : Except Error Arena := do
  let bytes ← blake2bLongWithBackend compress (List.replicate blockSize 0)
    (seedBytes blockhash 0 (UInt32.ofNat lane))
  let base ← checkedUsize w (lane * laneLength.toNat)
  let arena ← storeFirst arena base bytes
  let bytes ← blake2bLongWithBackend compress bytes (seedBytes blockhash 1 (UInt32.ofNat lane))
  let second ← checkedUsize w (base + 1)
  storeFirst arena second bytes

def fillFirstBlocks (w : PointerWidth) (compress : CompressFn) (blockhash : List UInt8)
    (arena : Arena) (lanes laneLength : UInt32) : Except Error Arena :=
  (List.range lanes.toNat).foldlM (fillFirstLane w compress blockhash laneLength) arena

def lastBlock (arena : Arena) (index : ℕ) : Except Error Block :=
  match arena[index]? with
  | some block => .ok block
  | none => .error .incorrectParameter

def xorLane (w : PointerWidth) (arena : Arena) (laneLength : UInt32) (blockhash : Block)
    (lane : ℕ) : Except Error Block := do
  let base ← checkedUsize w (lane * laneLength.toNat)
  let index ← checkedUsize w (base + (laneLength.toNat - 1))
  let block ← lastBlock arena index
  .ok (blockhash.xorWith block)

def finalize (w : PointerWidth) (compress : CompressFn) (inst : Instance) (arena : Arena)
    (out : List UInt8) : Except Error (List UInt8) :=
  if inst.laneLength = 0 ∨ inst.lanes = 0 then .error .incorrectParameter
  else do
    let blockhash ← lastBlock arena (inst.laneLength.toNat - 1)
    let blockhash ← (List.range' 1 (inst.lanes.toNat - 1)).foldlM
      (xorLane w arena inst.laneLength) blockhash
    blake2bLongWithBackend compress out blockhash.toLeBytes

section InArena
variable {w : PointerWidth} {Shown : Type} (compress : CompressFn)
  (traced : Instance → Arena → Except Error (Arena × Shown))
  (fill : Instance → Arena → Except Error Arena) (arena : Arena) (algorithm : Algorithm)
  (version : Version) (p : Params w) (x : Inputs) (out : List UInt8)

/-- Steps 3 to 5 of `argon2_ctx()` with both of their hooks: the new contents of `out`, `H0` and
what a callback of the fill is shown. -/
def hashInArenaTraced : Except Error (List UInt8 × List UInt8 × Shown) :=
  if arena.size ≠ p.memoryBlocks.toNat then .error .memoryAllocationError
  else do
    let blockhash ← initialHash algorithm version p x compress
    let h0 := blockhash.take prehashDigestLength
    let arena ← fillFirstBlocks w compress blockhash arena p.lanes p.laneLength
    let inst := Instance.new algorithm version p
    let filled ← traced inst arena
    let out ← finalize w compress inst filled.1 out
    .ok (out, h0, filled.2)

/-- `hash_in_arena` where neither hook is asked for. -/
def hashInArena : Except Error (List UInt8) :=
  (hashInArenaTraced compress (fun inst arena => (fill inst arena).map fun arena => (arena, ()))
    arena algorithm version p x out).map Prod.fst

def hashInArenaSt : Except Error (List UInt8) :=
  hashInArena compress fillMemoryBlocksSt arena algorithm version p x out

theorem hashInArenaTraced_fst :
    (hashInArenaTraced compress traced arena algorithm version p x out).map Prod.fst =
      if arena.size ≠ p.memoryBlocks.toNat then .error .memoryAllocationError
      else (do
        let blockhash ← initialHash algorithm version p x compress
        let arena ← fillFirstBlocks w compress blockhash arena p.lanes p.laneLength
        let filled ← traced (Instance.new algorithm version p) arena
        finalize w compress (Instance.new algorithm version p) filled.1 out) := by
  unfold hashInArenaTraced
  by_cases hsize : arena.size ≠ p.memoryBlocks.toNat
  · rw [if_pos hsize, if_pos hsize]
    rfl
  · rw [if_neg hsize, if_neg hsize]
    simp only [map_bind]
    refine bind_congr fun _ => bind_congr fun _ => bind_congr fun filled => ?_
    cases finalize w compress (Instance.new algorithm version p) filled.1 out <;> rfl

theorem hashInArena_steps :
    hashInArena compress fill arena algorithm version p x out =
      if arena.size ≠ p.memoryBlocks.toNat then .error .memoryAllocationError
      else (do
        let blockhash ← initialHash algorithm version p x compress
        let arena ← fillFirstBlocks w compress blockhash arena p.lanes p.laneLength
        let arena ← fill (Instance.new algorithm version p) arena
        finalize w compress (Instance.new algorithm version p) arena out) := by
  unfold hashInArena
  rw [hashInArenaTraced_fst]
  refine if_congr Iff.rfl rfl (bind_congr fun _ => bind_congr fun arena => ?_)
  cases fill (Instance.new algorithm version p) arena <;> rfl

end InArena

/-- For every instance, the order in which the pool happens to run each slice. -/
abbrev Scheduler := ∀ inst : Instance, ∀ pass slice, Schedule inst pass slice

def pooledFill (scheduler : Scheduler) (inst : Instance) (arena : Arena) : Except Error Arena :=
  fillMemoryBlocks inst (scheduler inst) arena

def validateAndSize {w : PointerWidth} (p : Params w) (x : Inputs) (out : List UInt8) :
    Except Error ℕ := do
  p.validateFor x.pwd.length x.salt.length x.secret.length x.ad.length
  if out.length ≠ p.tagLenBytes then .error .outPtrMismatch
  else .ok p.memoryLayout.1.toNat

def arenaAlign : ℕ := 64

/-- The size in bytes, where it is one that the allocator may be asked for. -/
def checkedLayout (w : PointerWidth) (blocks : ℕ) : Except Error ℕ :=
  if blocks = 0 then .error .memoryAllocationError
  else if 2 ^ w.bits ≤ blocks * blockSize then .error .memoryAllocationError
  else if 2 ^ (w.bits - 1) - arenaAlign < blocks * blockSize then .error .memoryAllocationError
  else .ok (blocks * blockSize)

def Arena.new (w : PointerWidth) (alloc : ℕ → Bool) (blocks : ℕ) : Except Error Arena := do
  let bytes ← checkedLayout w blocks
  if alloc bytes then .ok (Array.replicate blocks Block.zero)
  else .error .memoryAllocationError

def hashOwned {w : PointerWidth} (compress : CompressFn)
    (fill : Instance → Arena → Except Error Arena) (alloc : ℕ → Bool) (algorithm : Algorithm)
    (version : Version) (p : Params w) (x : Inputs) (out : List UInt8) :
    Except Error (List UInt8) := do
  let memoryBlocks ← validateAndSize p x out
  let arena ← Arena.new w alloc memoryBlocks
  hashInArena compress fill arena algorithm version p x out

section Prehash
variable {w : PointerWidth} (compress : CompressFn) (algorithm : Algorithm) (version : Version)
  (p : Params w) (x : Inputs)

def h0 : List UInt8 :=
  blake2bDigest compress prehashDigestLength (initialHashPieces algorithm version p x).flatten

theorem h0_length : (h0 compress algorithm version p x).length = prehashDigestLength :=
  blake2bDigest_length compress _ _ (by decide)

/-- The 72-byte buffer after `initial_hash`: `H0`, then eight zero bytes. -/
def blockhash : List UInt8 :=
  h0 compress algorithm version p x ++
    List.replicate (prehashSeedLength - prehashDigestLength) 0

theorem initialHash_ok :
    initialHash algorithm version p x compress = .ok (blockhash compress algorithm version p x) := by
  unfold initialHash
  rw [newWithBackend_ok compress _ (by decide) (by decide), ok_bind, Blake2b.foldl_update _ _ rfl,
    finalize_update_ok compress _ _ _ List.length_replicate]
  rfl

theorem seedBytes_blockhash (k lane : UInt32) :
    seedBytes (blockhash compress algorithm version p x) k lane =
      h0 compress algorithm version p x ++ le32 k ++ le32 lane := by
  unfold seedBytes blockhash
  rw [List.take_append_of_le_length (h0_length compress algorithm version p x).ge,
    List.take_of_length_le (h0_length compress algorithm version p x).le]

end Prehash

section Layout
variable (w : PointerWidth)

theorem checkedLayout_ok_iff (blocks bytes : ℕ) :
    checkedLayout w blocks = .ok bytes ↔
      (blocks ≠ 0 ∧ blocks * blockSize < 2 ^ w.bits ∧
        blocks * blockSize ≤ 2 ^ (w.bits - 1) - arenaAlign) ∧ bytes = blocks * blockSize := by
  unfold checkedLayout
  simp only [check_ok_iff, Except.ok.injEq, not_le, not_lt]
  constructor
  · rintro ⟨hzero, hwide, hlayout, rfl⟩
    exact ⟨⟨hzero, hwide, hlayout⟩, rfl⟩
  · rintro ⟨⟨hzero, hwide, hlayout⟩, rfl⟩
    exact ⟨hzero, hwide, hlayout, rfl⟩

theorem checkedLayout_error {blocks : ℕ} {e : Error} (h : checkedLayout w blocks = .error e) :
    e = .memoryAllocationError := by
  unfold checkedLayout at h
  split_ifs at h <;> cases h <;> rfl

theorem checkedLayout_mono {m n bytes : ℕ} (hm : m ≠ 0) (hmn : m ≤ n)
    (h : checkedLayout w n = .ok bytes) : checkedLayout w m = .ok (m * blockSize) := by
  obtain ⟨⟨-, hwide, hlayout⟩, -⟩ := (checkedLayout_ok_iff w n bytes).mp h
  have hle : m * blockSize ≤ n * blockSize := Nat.mul_le_mul_right blockSize hmn
  exact (checkedLayout_ok_iff w m _).mpr ⟨⟨hm, hle.trans_lt hwide, hle.trans hlayout⟩, rfl⟩

end Layout

end Argon2Rust.Hash
