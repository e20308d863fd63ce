import Argon2Rust.Hash
import Argon2Rust.LongOutput
import Argon2Rust.Refinement

set_option autoImplicit false

namespace Argon2Rust.TagCorrectness
open Bytes Parameters Compression IndexAlpha Segment ReferenceWindow Blake2 Blake2Digest Fill Hash
  LongOutput Recurrence Refinement Rfc9106

section Setting
variable {w : PointerWidth} (compress : CompressFn) (algorithm : Algorithm) (version : Version)
  (p : Params w) (x : Inputs)

/-- What a call asks for, in the words of the specification. -/
def request : Request where
  message := x.pwd
  nonce := x.salt
  secret := x.secret
  associatedData := x.ad
  lanes := p.lanes.toNat
  tagLength := p.tagLenBytes
  memory := p.memoryKib.toNat
  passes := p.passes.toNat
  version := version
  algorithm := algorithm

def rfcSetting : Setting := (request algorithm version p x).setting (ofCompress compress)

def rfcTag : List UInt8 := (request algorithm version p x).tag (ofCompress compress)

theorem rfcSetting_matches :
    Matches (rfcSetting compress algorithm version p x) (Instance.new algorithm version p) where
  lanes_eq := rfl
  segment_eq := p.segmentLength_toNat.symm
  passes_eq := rfl
  algorithm_eq := rfl
  version_eq := rfl

theorem version_asU32_toNat (version : Version) :
    version.asU32.toNat = versionNumber version := by
  cases version <;> rfl

theorem le32_toNat (x : UInt32) : le32 x = littleEndian32 x.toNat := by
  rw [← le32_ofNat, UInt32.ofNat_toNat]

theorem initialHashPieces_flatten :
    (initialHashPieces algorithm version p x).flatten =
      (request algorithm version p x).preimage := by
  unfold initialHashPieces lengthBytes Request.preimage withLength
  rw [le32_toNat p.lanes, le32_toNat p.memoryKib, le32_toNat p.passes, le32_toNat version.asU32,
    le32_toNat algorithm.asU32, asU32_toNat, version_asU32_toNat]
  simp only [le32_ofNat, List.flatten_cons, List.flatten_nil, List.append_nil, List.append_assoc]
  rfl

theorem h0_eq : h0 compress algorithm version p x =
    (request algorithm version p x).prehash (ofCompress compress) := by
  unfold h0 Request.prehash
  rw [initialHashPieces_flatten, blake2bDigest_eq compress _ (by decide)]
  rfl

theorem hPrime_eq_variableHash (n : ℕ) (input : List UInt8) (h1 : 1 ≤ n) (hn : n ≤ 0xFFFFFFFF) :
    hPrime compress n input = variableHash (Rfc7693.digest (ofCompress compress)) n input :=
  (hPrime_eq compress n input h1 hn).trans
    (variableHash_congr n input fun k hk => blake2bDigest_eq compress k hk)

/-- `finalize` makes the tag: it is as long as the parameters say, so the two hashes agree on it. -/
theorem rfcTag_eq : rfcTag compress algorithm version p x =
    hPrime compress p.tagLenBytes (rfcSetting compress algorithm version p x).final.toLeBytes := by
  have hlen := p.lengths
  have hge := hlen.out_ge
  exact (hPrime_eq_variableHash compress _ _ (by omega) hlen.out_le).symm

end Setting

theorem checkedUsize_ok (w : PointerWidth) (n : ℕ) (h : n < 2 ^ 32) : checkedUsize w n = .ok n := by
  unfold checkedUsize
  rw [if_pos]
  cases w with
  | bits32 => exact h
  | bits64 => exact h.trans (by decide)

theorem storeFirst_ok (arena : Arena) (o : UInt32) (bytes : List UInt8)
    (h : o.toNat < arena.size) :
    storeFirst arena o.toNat bytes = .ok (arena.store o (Block.fromLeBytes bytes)) := if_pos h

section First
variable {w : PointerWidth} (compress : CompressFn) (algorithm : Algorithm) (version : Version)
  (p : Params w) (x : Inputs)

theorem first_eq (i c : ℕ) (hc : c < 2) :
    (rfcSetting compress algorithm version p x).matrix 0 i c = Block.fromLeBytes
      (hPrime compress blockSize (h0 compress algorithm version p x ++ le32 (UInt32.ofNat c) ++
        le32 (UInt32.ofNat i))) := by
  rw [Setting.matrix, if_pos ⟨rfl, hc⟩,
    hPrime_eq_variableHash compress blockSize _ (by decide) (by decide), h0_eq, le32_ofNat,
    le32_ofNat]
  rfl

theorem fillFirstLane_holds {f : ℕ → ℕ} {arena : Arena}
    (hold : Holds (rfcSetting compress algorithm version p x) (Instance.new algorithm version p) 0 f
      arena) (l : ℕ) (hl : l < p.lanes.toNat) (hf : f l = 0) :
    ∃ arena', fillFirstLane w compress (blockhash compress algorithm version p x) p.laneLength arena l =
        .ok arena' ∧
      Holds (rfcSetting compress algorithm version p x) (Instance.new algorithm version p) 0
        (Function.update f l 2) arena' := by
  have wf := new_wellFormed algorithm version p
  have hseg := wf.segment_ge
  have hL := wf.lane_eq
  have hlane := lane_fits wf l hl
  have hm := p.memoryBlocks.toNat_lt
  change l * p.laneLength.toNat + p.laneLength.toNat ≤ p.memoryBlocks.toNat at hlane
  change p.laneLength.toNat = 4 * _ at hL
  have hfirst : _ = Block.fromLeBytes (hPrime compress blockSize
      (h0 compress algorithm version p x ++ le32 0 ++ le32 (UInt32.ofNat l))) :=
    first_eq compress algorithm version p x l 0 (by decide)
  have hsecond : _ = Block.fromLeBytes (hPrime compress blockSize
      (h0 compress algorithm version p x ++ le32 1 ++ le32 (UInt32.ofNat l))) :=
    first_eq compress algorithm version p x l 1 (by decide)
  have hlen := hPrime_length compress blockSize
    (h0 compress algorithm version p x ++ le32 0 ++ le32 (UInt32.ofNat l)) (by decide) (by decide)
  have hbase : (UInt32.ofNat (l * p.laneLength.toNat)).toNat = l * p.laneLength.toNat :=
    UInt32.toNat_ofNat_of_lt' (by change _ < 2 ^ 32; omega)
  have hsec : (UInt32.ofNat (l * p.laneLength.toNat + 1)).toNat = l * p.laneLength.toNat + 1 :=
    UInt32.toNat_ofNat_of_lt' (by change _ < 2 ^ 32; omega)
  generalize UInt32.ofNat (l * p.laneLength.toNat) = o₀ at hbase
  generalize UInt32.ofNat (l * p.laneLength.toNat + 1) = o₁ at hsec
  have hold₁ := @Holds.store _ _ _ _ _ hold o₀ l
    (by rw [hbase, hf]; rfl)
    (by rw [hbase]; change _ < p.memoryBlocks.toNat; omega)
    (by rw [hf]; change 0 < p.laneLength.toNat; omega)
  have hf₁ : Function.update f l (f l + 1) l = 1 := by rw [Function.update_self, hf]
  have hold₂ := @Holds.store _ _ _ _ _ hold₁ o₁ l
    (by rw [hsec, hf₁]; rfl)
    (by rw [hsec]; change _ < p.memoryBlocks.toNat; omega)
    (by rw [hf₁]; change 1 < p.laneLength.toNat; omega)
  rw [hf₁, Function.update_idem] at hold₂
  refine ⟨_, ?_, hold₂⟩
  have hrep : (List.replicate blockSize (0 : UInt8)).length = blockSize := List.length_replicate
  have hsize := hold.size_eq
  have hsize₁ := hold₁.size_eq
  change arena.size = p.memoryBlocks.toNat at hsize
  change Array.size _ = p.memoryBlocks.toNat at hsize₁
  rw [hf, hfirst] at hsize₁
  unfold fillFirstLane
  rw [seedBytes_blockhash, seedBytes_blockhash, blake2bLong_eq compress _ _ (by rw [hrep]; decide)
    (by rw [hrep]; decide), hrep, ok_bind, checkedUsize_ok w _ (by omega), ok_bind, ← hbase,
    storeFirst_ok arena _ _ (by rw [hbase]; omega), ok_bind,
    blake2bLong_eq compress _ _ (by rw [hlen]; decide) (by rw [hlen]; decide), hlen, ok_bind, hbase,
    checkedUsize_ok w _ (by omega), ok_bind, ← hsec, storeFirst_ok _ _ _ (by rw [hsec, hsize₁]; omega),
    hf, hfirst, hsecond]

theorem fillFirstBlocks_holds (arena : Arena) (hsize : arena.size = p.memoryBlocks.toNat) :
    ∃ arena', fillFirstBlocks w compress (blockhash compress algorithm version p x) arena p.lanes
        p.laneLength = .ok arena' ∧
      Holds (rfcSetting compress algorithm version p x) (Instance.new algorithm version p) 0
        (fun _ => 2) arena' := by
  have hrun : ∀ m ≤ p.lanes.toNat, ∃ arena',
      (List.range m).foldlM (fillFirstLane w compress (blockhash compress algorithm version p x)
        p.laneLength) arena = .ok arena' ∧
      Holds (rfcSetting compress algorithm version p x) (Instance.new algorithm version p) 0
        (fun l => if l < m then 2 else 0) arena' := by
    intro m hm
    induction m with
    | zero =>
      refine ⟨arena, rfl, hsize, ?_, ?_⟩
      · intro l _ z _ hlt
        rw [if_neg (Nat.not_lt_zero l)] at hlt
        exact absurd hlt (Nat.not_lt_zero z)
      · intro l _ z _ _ hr
        exact absurd rfl hr
    | succ m ih =>
      obtain ⟨arena₁, hok, hold⟩ := ih (by omega)
      obtain ⟨arena₂, hok₂, hold₂⟩ := fillFirstLane_holds compress algorithm version p x hold m
        (by omega) (if_neg (Nat.lt_irrefl m))
      refine ⟨arena₂, ?_, hold₂.congr fun l _ => ?_⟩
      · rw [List.range_succ, List.foldlM_append, hok, ok_bind, List.foldlM_cons, hok₂]
        rfl
      · rcases lt_trichotomy l m with h | h | h
        · rw [Function.update_of_ne (by omega), if_pos h, if_pos (by omega)]
        · rw [h, Function.update_self, if_pos (by omega)]
        · rw [Function.update_of_ne (by omega), if_neg (by omega), if_neg (by omega)]
  obtain ⟨arena', hok, hold⟩ := hrun p.lanes.toNat le_rfl
  exact ⟨arena', hok, hold.congr fun l hl => if_pos hl⟩

end First

theorem zero_xorWith (b : Block) : Block.zero.xorWith b = b := by
  ext k hk
  rw [Block.xorWith_get _ _ k hk]
  unfold Block.zero
  rw [Vector.getElem_replicate, UInt64.zero_xor]

section Finalize
variable {S : Setting} {inst : Instance} (wf : WellFormed inst) (hm : Matches S inst)
include wf hm

theorem lastBlock_ok {r : ℕ} {arena : Arena}
    (hold : Holds S inst r (fun _ => inst.laneLength.toNat) arena) (l : ℕ)
    (hl : l < inst.lanes.toNat) :
    lastBlock arena (l * inst.laneLength.toNat + (inst.laneLength.toNat - 1)) =
      .ok (S.matrix r l (S.columns - 1)) := by
  have hL := wf.lane_eq
  have hseg := wf.segment_ge
  have hlane := lane_fits wf l hl
  have hlt : l * inst.laneLength.toNat + (inst.laneLength.toNat - 1) < arena.size := by
    rw [hold.size_eq]
    omega
  have hcell := hold.current l hl (inst.laneLength.toNat - 1) (by omega) (by omega)
  unfold cell at hcell
  rw [Array.getD_eq_getD_getElem?, Array.getElem?_eq_getElem hlt] at hcell
  unfold lastBlock
  rw [Array.getElem?_eq_getElem hlt, columns_eq wf hm]
  exact congrArg Except.ok hcell

theorem xorLanes_ok (w : PointerWidth) {r : ℕ} {arena : Arena}
    (hold : Holds S inst r (fun _ => inst.laneLength.toNat) arena) (acc : Block)
    (lanes : List ℕ) (hall : ∀ l ∈ lanes, l < inst.lanes.toNat) :
    lanes.foldlM (xorLane w arena inst.laneLength) acc =
      .ok (lanes.foldl (fun acc l => acc.xorWith (S.matrix r l (S.columns - 1))) acc) := by
  have hmem := inst.memoryBlocks.toNat_lt
  have hL := wf.lane_eq
  have hseg := wf.segment_ge
  induction lanes generalizing acc with
  | nil => rfl
  | cons l lanes ih =>
    have hl := hall l List.mem_cons_self
    have hlane := lane_fits wf l hl
    rw [List.foldlM_cons, xorLane, checkedUsize_ok w _ (by omega), ok_bind,
      checkedUsize_ok w _ (by omega), ok_bind, lastBlock_ok wf hm hold l hl, ok_bind, ok_bind,
      ih _ (fun l' hl' => hall l' (List.mem_cons_of_mem l hl')), List.foldl_cons]

theorem finalize_ok (w : PointerWidth) (compress : CompressFn) {arena : Arena} (out : List UInt8)
    (h1 : 1 ≤ out.length) (hn : out.length ≤ 0xFFFFFFFF)
    (hold : Holds S inst (S.passes - 1) (fun _ => inst.laneLength.toNat) arena) :
    finalize w compress inst arena out = .ok (hPrime compress out.length S.final.toLeBytes) := by
  have hL := wf.lane_eq
  have hseg := wf.segment_ge
  have hpos := wf.lanes_pos
  have hne : ¬ (inst.laneLength = 0 ∨ inst.lanes = 0) := by
    rintro (h | h)
    · have h0 := congrArg UInt32.toNat h
      simp only [UInt32.reduceToNat] at h0
      omega
    · have h0 := congrArg UInt32.toNat h
      simp only [UInt32.reduceToNat] at h0
      omega
  have hfirst := lastBlock_ok wf hm hold 0 hpos
  have hrange : List.range S.lanes = 0 :: List.range' 1 (inst.lanes.toNat - 1) := by
    rw [hm.lanes_eq, List.range_eq_range']
    obtain ⟨k, hk⟩ := Nat.exists_eq_add_of_lt hpos
    rw [hk, List.range'_succ]
    congr 2
  rw [Nat.zero_mul, Nat.zero_add] at hfirst
  unfold finalize Setting.final
  rw [if_neg hne, hfirst, ok_bind,
    xorLanes_ok wf hm w hold _ _ (by intro l hl; have := List.mem_range'_1.mp hl; omega), ok_bind,
    blake2bLong_eq compress out _ h1 hn, hrange, List.foldl_cons, zero_xorWith]

end Finalize

/-- A fill that agrees with the single-threaded one leads to the tag of the
recurrence, from any arena of the right size. -/
theorem hashInArena_eq_rfcTag {w : PointerWidth} (compress : CompressFn)
    (fill : Instance → Arena → Except Error Arena) (algorithm : Algorithm) (version : Version)
    (p : Params w) (x : Inputs)
    (hfill : ∀ arena, fill (Instance.new algorithm version p) arena =
      fillMemoryBlocksSt (Instance.new algorithm version p) arena)
    (arena : Arena) (hsize : arena.size = p.memoryBlocks.toNat) (out : List UInt8)
    (hout : out.length = p.tagLenBytes) :
    hashInArena compress fill arena algorithm version p x out =
      .ok (rfcTag compress algorithm version p x) := by
  have wf := new_wellFormed algorithm version p
  have hm := rfcSetting_matches compress algorithm version p x
  have hlen := p.lengths
  have htime := p.costs.time_ge
  obtain ⟨arena₁, hfirst, hold₁⟩ :=
    fillFirstBlocks_holds compress algorithm version p x arena hsize
  have hstart : Holds (rfcSetting compress algorithm version p x)
      (Instance.new algorithm version p) 0
      (fun _ => startColumn (Instance.new algorithm version p) 0 0) arena₁ := by
    refine hold₁.congr fun l _ => ?_
    unfold startColumn
    rw [if_pos ⟨rfl, rfl⟩, Nat.zero_mul]
  have hold₂ := fillPasses_holds wf hm hstart p.tCost.toNat le_rfl htime
  have hlanes : ¬ (Instance.new algorithm version p).lanes = 0 := by
    intro h
    have h0 := congrArg UInt32.toNat h
    have hpos := wf.lanes_pos
    rw [h0] at hpos
    exact Nat.lt_irrefl 0 hpos
  have hout1 := hlen.out_ge
  have hout2 := hlen.out_le
  rw [hashInArena_steps, if_neg (not_not.mpr hsize), initialHash_ok, ok_bind, hfirst, ok_bind, hfill]
  unfold fillMemoryBlocksSt
  rw [if_neg hlanes, ok_bind]
  have hfin := finalize_ok wf hm w compress out (by omega) (by omega) hold₂
  rw [hout, ← rfcTag_eq] at hfin
  exact hfin

theorem rfcTag_scalar {w : PointerWidth} (algorithm : Algorithm) (version : Version)
    (p : Params w) (x : Inputs) :
    rfcTag compressScalar algorithm version p x =
      (request algorithm version p x).tag Rfc7693.compress := by
  unfold rfcTag
  rw [compressScalar_eq]

/-- Functional correctness: the single-threaded hash writes the tag of the recurrence, which for
the scalar backend is that of the specification. -/
theorem hashInArenaSt_eq_rfcTag {w : PointerWidth} (compress : CompressFn) (algorithm : Algorithm)
    (version : Version) (p : Params w) (x : Inputs) (arena : Arena)
    (hsize : arena.size = p.memoryBlocks.toNat) (out : List UInt8)
    (hout : out.length = p.tagLenBytes) :
    hashInArenaSt compress arena algorithm version p x out =
        .ok ((request algorithm version p x).tag (ofCompress compress)) ∧
      hashInArenaSt compressScalar arena algorithm version p x out =
        .ok ((request algorithm version p x).tag Rfc7693.compress) := by
  have hall : ∀ compress : CompressFn, hashInArenaSt compress arena algorithm version p x out =
      .ok (rfcTag compress algorithm version p x) := fun compress =>
    hashInArena_eq_rfcTag compress fillMemoryBlocksSt algorithm version p x (fun _ => rfl) arena
      hsize out hout
  exact ⟨hall compress, (hall compressScalar).trans
    (congrArg Except.ok (rfcTag_scalar algorithm version p x))⟩

theorem hashInArenaSt_eq_rfcTag_least :
    hashInArenaSt compressScalar (Array.replicate 8 Block.zero) .argon2id .v0x13 Params.least
        ⟨[112], [1, 2, 3, 4, 5, 6, 7, 8], [], []⟩ [0, 0, 0, 0] =
      .ok ((request .argon2id .v0x13 Params.least
        ⟨[112], [1, 2, 3, 4, 5, 6, 7, 8], [], []⟩).tag Rfc7693.compress) :=
  (hashInArenaSt_eq_rfcTag compressScalar .argon2id .v0x13 Params.least _
    (Array.replicate 8 Block.zero) (Array.size_replicate.trans (by decide)) [0, 0, 0, 0]
    (by decide)).2

end Argon2Rust.TagCorrectness
