import Argon2Rust.HashVerify
import Argon2Rust.PooledAnswers
import Argon2Rust.PooledFill

set_option autoImplicit false

/-!
# Hashing on any machine

A machine brings its instruction sets, the backends it runs, an allocator and a
scheduler. None of them is visible in a hash: the traced computation gives the tag,
`H0` and the matrices of the specification, and what one machine encodes another
of its pointer width verifies.
-/
namespace Argon2Rust.Machines
open Parameters Compression IndexAlpha Segment Blake2 Blake2Backends Base64 Encoding Decoding
  DecodeString Verification Base64Blocks Base64Targets Backends Hash Recurrence Refinement
  TagCorrectness OneShot HashVerify RegisterBlock PoolMemory PooledFill RoundTrip

/-- What the targets of an architecture have for `usize`: x32 and ILP32 are narrow ones of the
64-bit architectures. -/
def pointerWidths : TargetArch → List PointerWidth
  | .x86 | .wasm32 => [.bits32]
  | .x8664 | .aarch64 | .other => [.bits32, .bits64]

/-- A machine, and what one call of `fill_memory_blocks_traced` does there. -/
structure Machine (w : PointerWidth) where
  platform : Platform
  width : w ∈ pointerWidths platform.arch
  backend : Backends.Backend
  haveSsse3 : Bool
  uninit : Registers 2 64
  blake2b : Blake2bBackend
  base64 : Base64Backend
  alloc : ℕ → Bool
  parallel : Bool
  fill : Bool → Instance → Arena → Except Error (Arena × Snapshots)
  ran : ∀ traced algorithm version (p : Params w) (arena : Arena),
    arena.size = p.memoryBlocks.toNat →
    FillMemoryBlocksTraced parallel traced (segmentLoop platform haveSsse3 uninit backend)
      (Instance.new algorithm version p) arena (fill traced (Instance.new algorithm version p) arena)

section Definitions
variable {w : PointerWidth} (m : Machine w)

def Machine.host : Host :=
  ⟨w, (target_lawful w (architecture m.platform)).toBackend m.base64, m.alloc⟩

def Machine.plainFill (inst : Instance) (arena : Arena) : Except Error Arena :=
  (m.fill false inst arena).map Prod.fst

variable (algorithm : Algorithm) (version : Version) (p : Params w) (x : Inputs)
  (out : List UInt8) (traced : Bool)

def Machine.hashInArena (arena : Arena) : Except Error (List UInt8 × List UInt8 × Snapshots) :=
  hashInArenaTraced (compressFn m.blake2b) (m.fill traced) arena algorithm version p x out

def Machine.hashTraced : Except Error (List UInt8 × List UInt8 × Snapshots) := do
  let memoryBlocks ← validateAndSize p x out
  let arena ← Arena.new w m.alloc memoryBlocks
  m.hashInArena algorithm version p x out traced arena

def Machine.hashInner : Except Error (List UInt8) :=
  hashOwned (compressFn m.blake2b) m.plainFill m.alloc algorithm version p x out

end Definitions

def matrixArena (S : Setting) (inst : Instance) (r : ℕ) : Arena :=
  Array.ofFn fun o : Fin inst.memoryBlocks.toNat =>
    S.matrix r (o / inst.laneLength.toNat) (o % inst.laneLength.toNat)

theorem matrixArena_eq {S : Setting} {inst : Instance} {r : ℕ} {arena : Arena}
    (wf : WellFormed inst) (hold : Holds S inst r (fun _ => inst.laneLength.toNat) arena) :
    arena = matrixArena S inst r := by
  have hL : 0 < inst.laneLength.toNat := by
    have hlane := wf.lane_eq
    have hseg := wf.segment_ge
    omega
  refine Array.ext (hold.size_eq.trans Array.size_ofFn.symm) fun o ho ho' => ?_
  have hlt : o < inst.lanes.toNat * inst.laneLength.toNat := by
    rw [← wf.blocks_eq, ← hold.size_eq]
    exact ho
  have hcell := hold.current (o / inst.laneLength.toNat)
    ((Nat.div_lt_iff_lt_mul hL).mpr hlt) (o % inst.laneLength.toNat) (Nat.mod_lt o hL)
    (Nat.mod_lt o hL)
  unfold cell at hcell
  rw [Nat.div_add_mod' o inst.laneLength.toNat, Array.getD_eq_getD_getElem?,
    Array.getElem?_eq_getElem ho] at hcell
  have hmatrix : (matrixArena S inst r)[o] =
      S.matrix r (o / inst.laneLength.toNat) (o % inst.laneLength.toNat) := by
    simp only [matrixArena, Array.getElem_ofFn]
  exact hcell.trans hmatrix.symm

section Fills
variable {w : PointerWidth} (m : Machine w) (algorithm : Algorithm) (version : Version)
  (p : Params w)

theorem Machine.fill_eq (traced : Bool) {arena : Arena}
    (hsize : arena.size = p.memoryBlocks.toNat) :
    m.fill traced (Instance.new algorithm version p) arena =
      .ok (Fill.fillPasses (Instance.new algorithm version p) arena,
        snapshots (Instance.new algorithm version p) traced arena) :=
  fillMemoryBlocksTraced_eq (segmentLoop_lawful m.platform m.haveSsse3 m.uninit m.backend
    (new_wellFormed algorithm version p)) (new_wellFormed algorithm version p) hsize.ge
    p.costs.lanes_le (m.ran traced algorithm version p arena hsize)

variable (x : Inputs)

def matrices (traced : Bool) : Snapshots :=
  if traced then (List.range p.tCost.toNat).map fun r =>
    (r, matrixArena ((request algorithm version p x).setting Rfc7693.compress)
      (Instance.new algorithm version p) r)
  else []

/-- From the first blocks on the arena is known, pass by pass. -/
theorem passesDone_holds {arena : Arena}
    (hold : Holds (rfcSetting compressScalar algorithm version p x)
      (Instance.new algorithm version p) 0 (fun _ => 2) arena) {r : ℕ} (hr : r < p.tCost.toNat) :
    Holds (rfcSetting compressScalar algorithm version p x) (Instance.new algorithm version p) r
      (fun _ => (Instance.new algorithm version p).laneLength.toNat)
      (passesDone (Instance.new algorithm version p) arena (r + 1)) := by
  have hstart : Holds (rfcSetting compressScalar algorithm version p x)
      (Instance.new algorithm version p) 0
      (fun _ => startColumn (Instance.new algorithm version p) 0 0) arena := by
    refine hold.congr fun l _ => ?_
    unfold startColumn
    rw [if_pos ⟨rfl, rfl⟩, Nat.zero_mul]
  exact fillPasses_holds (new_wellFormed algorithm version p)
    (rfcSetting_matches compressScalar algorithm version p x) hstart (r + 1) hr (Nat.succ_pos r)

theorem Machine.hashInArena_eq (out : List UInt8) (traced : Bool) {arena : Arena}
    (hsize : arena.size = p.memoryBlocks.toNat) (hout : out.length = p.tagLenBytes) :
    m.hashInArena algorithm version p x out traced arena =
      .ok ((request algorithm version p x).tag Rfc7693.compress,
        (request algorithm version p x).prehash Rfc7693.compress,
        matrices algorithm version p x traced) := by
  have wf := new_wellFormed algorithm version p
  have hlen := p.lengths
  have htime := p.costs.time_ge
  have hout1 := hlen.out_ge
  have hout2 := hlen.out_le
  obtain ⟨arena₁, hfirst, hold⟩ := fillFirstBlocks_holds compressScalar algorithm version p x arena
    hsize
  have hsize₁ : arena₁.size = p.memoryBlocks.toNat := hold.size_eq
  have hlast := passesDone_holds algorithm version p x hold (r := p.tCost.toNat - 1) (by omega)
  rw [Nat.sub_add_cancel htime] at hlast
  have hfin := finalize_ok wf (rfcSetting_matches compressScalar algorithm version p x) w
    compressScalar out (by omega) (by omega) hlast
  have hshown : snapshots (Instance.new algorithm version p) traced arena₁ =
      matrices algorithm version p x traced := by
    unfold snapshots matrices
    rw [← Blake2Digest.compressScalar_eq]
    cases traced with
    | false => rfl
    | true =>
      refine List.map_congr_left fun r hr => ?_
      rw [matrixArena_eq wf (passesDone_holds algorithm version p x hold (List.mem_range.mp hr))]
      rfl
  have hh0 : (blockhash compressScalar algorithm version p x).take prehashDigestLength =
      (request algorithm version p x).prehash Rfc7693.compress := by
    unfold blockhash
    rw [List.take_append_of_le_length (h0_length compressScalar algorithm version p x).ge,
      List.take_of_length_le (h0_length compressScalar algorithm version p x).le, h0_eq,
      Blake2Digest.compressScalar_eq]
  unfold Machine.hashInArena hashInArenaTraced
  rw [if_neg (not_not.mpr hsize), compressFn_eq, initialHash_ok, ok_bind]
  dsimp only
  rw [hfirst, ok_bind, m.fill_eq algorithm version p traced hsize₁, ok_bind, hh0, hshown]
  dsimp only
  have hfill : Fill.fillPasses (Instance.new algorithm version p) arena₁ =
      passesDone (Instance.new algorithm version p) arena₁ p.tCost.toNat := rfl
  rw [hfill, hfin, ok_bind, hout, ← rfcTag_scalar, rfcTag_eq]

/-- `hash_traced` on any machine: the checks, the allocation, and then the tag, `H0` and the
matrix after every pass as the specification has them. -/
theorem Machine.hashTraced_eq (out : List UInt8) (traced : Bool) :
    m.hashTraced algorithm version p x out traced =
      (validateAndSize p x out >>= fun blocks => Arena.new w m.alloc blocks >>= fun _ =>
        .ok ((request algorithm version p x).tag Rfc7693.compress,
          (request algorithm version p x).prehash Rfc7693.compress,
          matrices algorithm version p x traced)) := by
  unfold Machine.hashTraced
  cases hv : validateAndSize p x out with
  | error e => rfl
  | ok blocks =>
    obtain ⟨-, hout, rfl⟩ := (validateAndSize_ok_iff p x out blocks).mp hv
    rw [ok_bind, ok_bind]
    cases ha : Arena.new w m.alloc p.memoryBlocks.toNat with
    | error e => rfl
    | ok arena =>
      rw [ok_bind, ok_bind]
      exact m.hashInArena_eq algorithm version p x out traced (arenaNew_size m.alloc ha) hout

theorem Machine.hashInner_eq_hashTraced (out : List UInt8) :
    m.hashInner algorithm version p x out =
      (m.hashTraced algorithm version p x out false).map Prod.fst := by
  unfold Machine.hashInner hashOwned Machine.hashTraced
  cases hv : validateAndSize p x out with
  | error e => rfl
  | ok blocks =>
    rw [ok_bind, ok_bind]
    cases ha : Arena.new w m.alloc blocks with
    | error e => rfl
    | ok arena =>
      rw [ok_bind, ok_bind]
      unfold Machine.hashInArena
      rw [hashInArena_steps, hashInArenaTraced_fst]
      refine if_congr Iff.rfl rfl (bind_congr fun _ => bind_congr fun arena => ?_)
      unfold Machine.plainFill
      cases m.fill false (Instance.new algorithm version p) arena <;> rfl

/-- Every platform with any of its backends is a machine, with the pool or without it. -/
theorem exists_machine (platform : Platform) (hwidth : w ∈ pointerWidths platform.arch)
    (backend : Backends.Backend) (haveSsse3 : Bool) (uninit : Registers 2 64) (blake2b : Blake2bBackend) (base64 : Base64Backend)
    (alloc : ℕ → Bool) (parallel : Bool) :
    ∃ m : Machine w, m.platform = platform ∧ m.backend = backend ∧ m.haveSsse3 = haveSsse3 ∧
      m.uninit = uninit ∧ m.blake2b = blake2b ∧ m.base64 = base64 ∧ m.alloc = alloc ∧
      m.parallel = parallel := by
  have hfill : ∀ (traced : Bool) (inst : Instance) (arena : Arena), ∃ r,
      ∀ algorithm version (p : Params w), inst = Instance.new algorithm version p →
        arena.size = p.memoryBlocks.toNat →
        FillMemoryBlocksTraced parallel traced (segmentLoop platform haveSsse3 uninit backend)
          inst arena r := by
    intro traced inst arena
    by_cases hbuilt : ∃ algorithm version, ∃ p : Params w,
        inst = Instance.new algorithm version p ∧ arena.size = p.memoryBlocks.toNat
    · obtain ⟨algorithm, version, p, rfl, hsize⟩ := hbuilt
      have wf := new_wellFormed algorithm version p
      obtain ⟨r, hr⟩ := fillMemoryBlocksTraced_returns traced p.costs.lanes_le
        (segmentLoop_lawful platform haveSsse3 uninit backend wf) wf hsize.ge parallel
      exact ⟨r, fun _ _ _ _ _ => hr⟩
    · exact ⟨.error .incorrectParameter, fun algorithm version p hinst hsize =>
        absurd ⟨algorithm, version, p, hinst, hsize⟩ hbuilt⟩
  choose fill hran using hfill
  exact ⟨⟨platform, hwidth, backend, haveSsse3, uninit, blake2b, base64, alloc, parallel, fill,
    fun traced algorithm version p arena hsize => hran traced _ arena algorithm version p rfl hsize⟩,
    rfl, rfl, rfl, rfl, rfl, rfl, rfl, rfl⟩

/-- On every machine the hooks of `hash_traced` see what the specification says: `H0`, and after
each pass the matrix. The hash without hooks is the same computation. -/
theorem hash_traced_on_any_machine (out : List UInt8) :
    (∀ traced, m.hashTraced algorithm version p x out traced =
      (validateAndSize p x out >>= fun blocks => Arena.new w m.alloc blocks >>= fun _ =>
        .ok ((request algorithm version p x).tag Rfc7693.compress,
          (request algorithm version p x).prehash Rfc7693.compress,
          matrices algorithm version p x traced))) ∧
    m.hashInner algorithm version p x out =
      (m.hashTraced algorithm version p x out false).map Prod.fst :=
  ⟨m.hashTraced_eq algorithm version p x out, m.hashInner_eq_hashTraced algorithm version p x out⟩

end Fills

section Codec
variable {w : PointerWidth} (backend : Base64.Backend) (alloc : ℕ → Bool)

theorem reserveVec_backend (cap : ℕ) :
    reserveVec ⟨w, backend, alloc⟩ cap = reserveVec ⟨w, .scalar, alloc⟩ cap := rfl

theorem decodeBin_backend (src : List UInt8) (pos : ℕ) :
    decodeBin src pos ⟨w, backend, alloc⟩ = decodeBin src pos ⟨w, .scalar, alloc⟩ := by
  unfold decodeBin
  simp only [reserveVec_backend backend alloc, fromBase64Raw_eq]

theorem decodeString_backend (encoded : List UInt8) (algorithm : Algorithm) :
    decodeString ⟨w, backend, alloc⟩ encoded algorithm =
      decodeString ⟨w, .scalar, alloc⟩ encoded algorithm := by
  unfold decodeString
  simp only [decodeBin_backend backend alloc]

theorem decodeBounded_backend (encoded : List UInt8) (algorithm : Algorithm) (ceiling : Params w) :
    decodeBounded ⟨w, backend, alloc⟩ encoded algorithm ceiling =
      decodeBounded ⟨w, .scalar, alloc⟩ encoded algorithm ceiling := by
  unfold decodeBounded
  rw [decodeString_backend]
  rfl

theorem putBase64_backend (out : Writer) (src : List UInt8) :
    out.putBase64 backend src = out.putBase64 .scalar src := by
  unfold Writer.putBase64
  simp only [toBase64Raw_eq]

theorem encodeStringAlloc_backend (algorithm : Algorithm) (version : Version) (p : Params w)
    (salt hash : List UInt8) :
    encodeStringAlloc algorithm version p salt hash ⟨w, backend, alloc⟩ =
      encodeStringAlloc algorithm version p salt hash ⟨w, .scalar, alloc⟩ := by
  unfold encodeStringAlloc encodeStringRaw
  simp only [reserveVec_backend backend alloc, putBase64_backend backend]

end Codec

section Portability
variable {w : PointerWidth} (m m' : Machine w)

theorem Machine.hashOwned_eq (algorithm : Algorithm) (version : Version) (p : Params w)
    (x : Inputs) (out : List UInt8) :
    hashOwned (compressFn m.blake2b) m.plainFill m.alloc algorithm version p x out =
      hashOwned compressScalar (pooledFill PooledAnswers.inOrder) m.alloc algorithm version p x
        out := by
  rw [OneShot.hashOwned_eq, rfcTag_scalar]
  change m.hashInner algorithm version p x out = _
  rw [m.hashInner_eq_hashTraced, m.hashTraced_eq]
  cases validateAndSize p x out with
  | error e => rfl
  | ok blocks =>
    rw [ok_bind, ok_bind]
    cases Arena.new w m.alloc blocks with
    | error e => rfl
    | ok arena => rfl

def Machine.hashEncodedWithAd (argon2 : Argon2 w) (x : Inputs) : Except Error (List UInt8) :=
  Argon2.hashEncodedWithAd m.host (compressFn m.blake2b) m.plainFill argon2 x

def Machine.verifyEncodedWithAd (encoded pwd secret ad : List UInt8) (algorithm : Algorithm) :
    Except Error Unit :=
  Argon2.verifyEncodedWithAd m.host (compressFn m.blake2b) m.plainFill encoded pwd secret ad
    algorithm

def Machine.verifyEncodedBoundedWithAd (encoded pwd secret ad : List UInt8)
    (algorithm : Algorithm) (ceiling : Params w) : Except Error Unit :=
  Argon2.verifyEncodedBoundedWithAd m.host (compressFn m.blake2b) m.plainFill encoded pwd secret ad
    algorithm ceiling

def Machine.plain : Host := ⟨w, .scalar, m.alloc⟩

theorem Machine.hashEncodedWithAd_eq (argon2 : Argon2 w) (x : Inputs) :
    m.hashEncodedWithAd argon2 x = Argon2.hashEncodedWithAd m.plain compressScalar
      (pooledFill PooledAnswers.inOrder) argon2 x := by
  unfold Machine.hashEncodedWithAd Argon2.hashEncodedWithAd Argon2.hashWithAd Argon2.hashIntoWithAd
    Machine.plain Machine.host tryZeroedVec
  simp only [m.hashOwned_eq, encodeStringAlloc_backend, reserveVec_backend _ m.alloc]

theorem Machine.verifyEncodedWithAd_eq (encoded pwd secret ad : List UInt8)
    (algorithm : Algorithm) :
    m.verifyEncodedWithAd encoded pwd secret ad algorithm = Argon2.verifyEncodedWithAd m.plain
      compressScalar (pooledFill PooledAnswers.inOrder) encoded pwd secret ad algorithm := by
  unfold Machine.verifyEncodedWithAd Argon2.verifyEncodedWithAd Argon2.hashIntoWithAd
    Machine.plain Machine.host tryZeroedVec
  simp only [m.hashOwned_eq, decodeString_backend, reserveVec_backend _ m.alloc]

theorem Machine.verifyEncodedBoundedWithAd_eq (encoded pwd secret ad : List UInt8)
    (algorithm : Algorithm) (ceiling : Params w) :
    m.verifyEncodedBoundedWithAd encoded pwd secret ad algorithm ceiling =
      Argon2.verifyEncodedBoundedWithAd m.plain compressScalar (pooledFill PooledAnswers.inOrder)
        encoded pwd secret ad algorithm ceiling := by
  unfold Machine.verifyEncodedBoundedWithAd Argon2.verifyEncodedBoundedWithAd Argon2.hashIntoWithAd
    Machine.plain Machine.host tryZeroedVec
  simp only [m.hashOwned_eq, decodeBounded_backend, reserveVec_backend _ m.alloc]

/-- No result of hashing, encoding or verifying tells two machines of one pointer width apart,
except through memory that one allocator grants and the other refuses; and what one of them
encodes, in at most `u32::MAX` bytes, the other verifies if its allocator refuses nothing. -/
theorem machines_agree :
    (m.alloc = m'.alloc →
      (∀ algorithm version (p : Params w) x out traced,
        m.hashTraced algorithm version p x out traced =
          m'.hashTraced algorithm version p x out traced) ∧
      (∀ argon2 x, m.hashEncodedWithAd argon2 x = m'.hashEncodedWithAd argon2 x) ∧
      (∀ encoded pwd secret ad algorithm, m.verifyEncodedWithAd encoded pwd secret ad algorithm =
        m'.verifyEncodedWithAd encoded pwd secret ad algorithm) ∧
      ∀ encoded pwd secret ad algorithm ceiling,
        m.verifyEncodedBoundedWithAd encoded pwd secret ad algorithm ceiling =
          m'.verifyEncodedBoundedWithAd encoded pwd secret ad algorithm ceiling) ∧
    (m'.host.Allocates → ∀ (argon2 : Argon2 w) (x : Inputs) (s : List UInt8),
      m.hashEncodedWithAd argon2 x = .ok s → s.length ≤ 0xFFFFFFFF →
      m'.verifyEncodedWithAd s x.pwd x.secret x.ad argon2.algorithm = .ok ()) := by
  refine ⟨fun halloc => ⟨?_, ?_, ?_, ?_⟩, fun hgrants argon2 x s hs hlen => ?_⟩
  · intro algorithm version p x out traced
    rw [m.hashTraced_eq, m'.hashTraced_eq, halloc]
  · intro argon2 x
    rw [m.hashEncodedWithAd_eq, m'.hashEncodedWithAd_eq]
    unfold Machine.plain
    rw [halloc]
  · intro encoded pwd secret ad algorithm
    rw [m.verifyEncodedWithAd_eq, m'.verifyEncodedWithAd_eq]
    unfold Machine.plain
    rw [halloc]
  · intro encoded pwd secret ad algorithm ceiling
    rw [m.verifyEncodedBoundedWithAd_eq, m'.verifyEncodedBoundedWithAd_eq]
    unfold Machine.plain
    rw [halloc]
  · rw [m.hashEncodedWithAd_eq] at hs
    rw [m'.verifyEncodedWithAd_eq]
    exact verifyEncodedWithAd_hashEncodedWithAd compressScalar .scalar .scalar m.alloc m'.alloc
      hgrants PooledAnswers.inOrder PooledAnswers.inOrder argon2 x s hs hlen

def Machine.sequential (platform : Platform) (width : w ∈ pointerWidths platform.arch)
    (alloc : ℕ → Bool) (uninit : Registers 2 64) : Machine w where
  platform := platform
  width := width
  backend := detect platform true
  haveSsse3 := probeSsse3 platform
  uninit := uninit
  blake2b := detectBlake2bBackend platform
  base64 := detectBase64Backend platform
  alloc := alloc
  parallel := false
  fill traced inst arena := .ok (tracedPasses (segmentLoop platform (probeSsse3 platform) uninit
    (detect platform true)).fillSegment inst traced arena)
  ran _ algorithm version p _ _ := .sequential
    (fun h => Nat.lt_irrefl 0 ((new_wellFormed algorithm version p).lanes_pos.trans_eq
      (congrArg UInt32.toNat h))) fun h => Bool.false_ne_true h.1

def neonMachine : Platform where
  arch := .aarch64
  std := true
  miri := false
  debugAssertions := false
  appleOrWindows := true
  macos := true
  enabled f := f == .neon
  reported f := [Feature.neon, .sha3].contains f
  translated := false

def pc : Machine .bits64 := .sequential avx2Machine (by decide) (fun _ => true) blankRegisters

def mac : Machine .bits64 := .sequential neonMachine (by decide) (fun _ => true) blankRegisters

example : pc.backend = .avx2 ∧ mac.backend = .neon := by decide

def leastInputs : Inputs := ⟨ascii "password", ascii "somesalt", [], []⟩

theorem machines_agree_least : ∃ s,
    pc.hashEncodedWithAd leastArgon2 leastInputs = .ok s ∧
      mac.hashEncodedWithAd leastArgon2 leastInputs = .ok s ∧
      mac.verifyEncodedWithAd s leastInputs.pwd leastInputs.secret leastInputs.ad
        .argon2id = .ok () := by
  obtain ⟨hsame, hverifies⟩ := machines_agree pc mac
  have hs : pc.hashEncodedWithAd leastArgon2 leastInputs = .ok (leastEncoded leastInputs) :=
    (pc.hashEncodedWithAd_eq leastArgon2 leastInputs).trans
      (hashEncodedWithAd_least leastInputs PooledAnswers.inOrder (by decide) (by decide)
        (by decide))
  exact ⟨_, hs, ((hsame rfl).2.1 leastArgon2 leastInputs).symm.trans hs,
    hverifies (fun _ _ => rfl) leastArgon2 leastInputs _ hs
      (by rw [leastEncoded_length]; decide)⟩

end Portability

end Argon2Rust.Machines
