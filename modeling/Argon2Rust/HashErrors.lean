import Argon2Rust.FirstFailure
import Argon2Rust.LongOutput
import Argon2Rust.PooledAnswers

set_option autoImplicit false

namespace Argon2Rust.HashErrors
open Parameters Blake2 Compression IndexAlpha Segment Fill Hash OneShot Memory Pooling PooledAnswers
open TagCorrectness Independence LongOutput Tiling Programs FirstFailure

section Finalize
variable (w : PointerWidth) (compress : CompressFn) (inst : Instance) (arena : Segment.Arena)

def finalizeTag : Writing Unit :=
  if inst.laneLength = 0 ∨ inst.lanes = 0 then Program.lift (.error .incorrectParameter)
  else do
    let blockhash ← Program.lift (lastBlock arena (inst.laneLength.toNat - 1))
    let blockhash ← Program.lift ((List.range' 1 (inst.lanes.toNat - 1)).foldlM
      (xorLane w arena inst.laneLength) blockhash)
    blake2bLongInto compress blockhash.toLeBytes

end Finalize

section InArena
variable {w : PointerWidth} (compress : CompressFn)
  (fill : Instance → Segment.Arena → Except Error Segment.Arena)

/-- `hash_in_arena`; the arena itself does not outlive the call. -/
def hashInArenaInto (arena : Segment.Arena) (algorithm : Algorithm) (version : Version) (p : Params w)
    (x : Inputs) : Writing Unit :=
  if arena.size ≠ p.memoryBlocks.toNat then Program.lift (.error .memoryAllocationError)
  else do
    let blockhash ← Program.lift (initialHash algorithm version p x compress)
    let arena ← Program.lift (fillFirstBlocks w compress blockhash arena p.lanes p.laneLength)
    let inst := Instance.new algorithm version p
    let arena ← Program.lift (fill inst arena)
    finalizeTag w compress inst arena

/-- `hash_owned`: the checks look at the length of the buffer. -/
def hashOwnedInto (alloc : ℕ → Bool) (algorithm : Algorithm) (version : Version) (p : Params w)
    (x : Inputs) : Writing Unit := do
  let o ← Program.get
  let memoryBlocks ← Program.lift (validateAndSize p x o.bytes)
  let arena ← Program.lift (Hash.Arena.new w alloc memoryBlocks)
  hashInArenaInto compress fill arena algorithm version p x

end InArena

def onWorkspace {α : Type} (m : Pooled α) : Program (Workspace × Output) Error α := fun s =>
  some ((m s.1).result, ((m s.1).workspace, s.2))

/-- `hash_in_workspace`: the guard is dropped on both paths. -/
def hashInWorkspaceInto {w : PointerWidth} (wipeEnabled : Bool) (compress : CompressFn) (env : Env)
    (algorithm : Algorithm) (version : Version) (p : Params w) (x : Inputs) :
    Program (Workspace × Output) Error Unit := do
  let s ← Program.get
  let memoryBlocks ← Program.lift (validateAndSize p x s.2.bytes)
  let guard ← onWorkspace (Pooled.acquire wipeEnabled w env.arenaAlloc memoryBlocks)
  let result ← Program.attempt (Program.second (hashInArenaInto compress
    (pooledFill env.scheduler) guard.arena.visible algorithm version p x))
  onWorkspace (Pooled.dropGuard wipeEnabled (fillResidue env guard))
  Program.lift result

section Reported
variable {w : PointerWidth} (p : Params w) (x : Inputs) (out : List UInt8)

def refuses (w : PointerWidth) (alloc : ℕ → Bool) (blocks : ℕ) : Bool :=
  match checkedLayout w blocks with
  | .error _ => true
  | .ok bytes => !alloc bytes

/-- The first of the three things that can go wrong. -/
def firstError (refused : Bool) : Option Error :=
  match p.validateFor x.pwd.length x.salt.length x.secret.length x.ad.length with
  | .error e => some e
  | .ok () => firstFailure [(decide (out.length ≠ p.tagLenBytes), .outPtrMismatch),
      (refused, .memoryAllocationError)]

/-- What a hash answers and leaves in the buffer when `first` goes wrong. -/
structure Reported (first : Option Error) (tag : List UInt8) (result : Except Error Unit)
    (o : Output) : Prop where
  error_iff : ∀ e, result = .error e ↔ first = some e
  unchanged : ∀ e, result = .error e → o = ⟨out, []⟩
  written : result = .ok () → o.bytes = tag

theorem Reported.error {out : List UInt8} {e : Error} {tag : List UInt8} :
    Reported out (some e) tag (.error e) ⟨out, []⟩ where
  error_iff e' := by rw [Except.error.injEq, Option.some.injEq]
  unchanged _ _ := rfl
  written h := by cases h

theorem Reported.ok {out tag : List UInt8} {writes : List Piece} :
    Reported out none tag (.ok ()) ⟨tag, writes⟩ where
  error_iff e := iff_of_false (fun h => nomatch h) (fun h => nomatch h)
  unchanged e h := by cases h
  written _ := rfl

variable {p x out}

theorem firstError_of_invalid {e : Error} (refused : Bool) (h : validateAndSize p x out = .error e) :
    firstError p x out refused = some e := by
  unfold validateAndSize at h
  unfold firstError
  cases hv : p.validateFor x.pwd.length x.salt.length x.secret.length x.ad.length with
  | error e' =>
    rw [hv, error_bind, Except.error.injEq] at h
    rw [h]
  | ok u =>
    rw [hv, ok_bind] at h
    dsimp only
    rw [firstFailure_cons]
    by_cases hlen : out.length ≠ p.tagLenBytes
    · rw [if_pos hlen, Except.error.injEq] at h
      rw [if_pos hlen, h]
    · rw [if_neg hlen] at h
      cases h

theorem firstError_of_valid {blocks : ℕ} (refused : Bool) (h : validateAndSize p x out = .ok blocks) :
    firstError p x out refused = if refused = true then some .memoryAllocationError else none := by
  obtain ⟨hlens, hout, -⟩ := (validateAndSize_ok_iff p x out blocks).mp h
  have hv := (p.validateFor_ok_iff _ _ _ _).mpr hlens
  unfold firstError
  rw [hv]
  dsimp only
  rw [firstFailure_pass _ _ _ (not_not.mpr hout)]
  rfl

end Reported

section Arenas
variable (w : PointerWidth) (alloc : ℕ → Bool)

theorem arenaNew_cases (blocks : ℕ) :
    (refuses w alloc blocks = true ∧
      Hash.Arena.new w alloc blocks = .error .memoryAllocationError) ∨
    (refuses w alloc blocks = false ∧
      ∃ arena, Hash.Arena.new w alloc blocks = .ok arena ∧ arena.size = blocks) := by
  unfold refuses Hash.Arena.new
  cases h : checkedLayout w blocks with
  | error e =>
    rw [checkedLayout_error w h]
    exact Or.inl ⟨rfl, rfl⟩
  | ok bytes =>
    rw [ok_bind]
    cases ha : alloc bytes with
    | false => exact Or.inl ⟨by simp [ha], rfl⟩
    | true => exact Or.inr ⟨by simp [ha], _, rfl, Array.size_replicate⟩

theorem memoryNew_cases (blocks : ℕ) :
    (refuses w alloc blocks = true ∧
      Memory.Arena.new w alloc blocks = .error .memoryAllocationError) ∨
    (refuses w alloc blocks = false ∧
      ∃ a, Memory.Arena.new w alloc blocks = .ok a ∧ a.visible.size = blocks) := by
  unfold refuses Memory.Arena.new
  cases h : checkedLayout w blocks with
  | error e =>
    rw [checkedLayout_error w h]
    exact Or.inl ⟨rfl, rfl⟩
  | ok bytes =>
    rw [ok_bind]
    cases ha : alloc bytes with
    | false => exact Or.inl ⟨by simp [ha], rfl⟩
    | true => exact Or.inr ⟨by simp [ha], _, rfl, (fits_new h).window⟩

variable (wipeEnabled : Bool) (ws : Workspace)

theorem acquireOwned_window {blocks : ℕ} (hpos : 0 < blocks) :
    ((decide (ws.capacity < blocks) && refuses w alloc blocks) = true ∧ ∃ ws' freed,
      ws.acquireOwned wipeEnabled w alloc blocks = ⟨.error .memoryAllocationError, ws', freed⟩) ∨
    ((decide (ws.capacity < blocks) && refuses w alloc blocks) = false ∧ ∃ a ws' freed,
      ws.acquireOwned wipeEnabled w alloc blocks = ⟨.ok a, ws', freed⟩ ∧
        a.visible.size = blocks) := by
  unfold Workspace.acquireOwned
  rw [if_neg hpos.ne']
  by_cases hgrows : ws.capacity < blocks
  · rw [if_pos hgrows, decide_eq_true hgrows, Bool.true_and,
      ws.takeOrNew_grows wipeEnabled w alloc hgrows]
    cases hl : checkedLayout w blocks with
    | error e =>
      rw [checkedLayout_error w hl]
      refine Or.inl ⟨?_, _, _, rfl⟩
      unfold refuses
      rw [hl]
    | ok bytes =>
      dsimp only
      obtain ⟨hr, ha⟩ | ⟨hr, a, ha, hsize⟩ := memoryNew_cases w alloc blocks
      · rw [ha]
        exact Or.inl ⟨hr, _, _, rfl⟩
      · rw [ha]
        exact Or.inr ⟨hr, a, _, _, rfl, hsize⟩
  · obtain ⟨a, -, hfits, htake⟩ := ws.takeOrNew_fits wipeEnabled w alloc hpos
      (Nat.le_of_not_lt hgrows)
    rw [if_neg hgrows, decide_eq_false hgrows, Bool.false_and, htake]
    exact Or.inr ⟨rfl, _, _, _, rfl, visible_retarget hfits⟩

end Arenas

section Late
variable {w : PointerWidth} (compress : CompressFn)

theorem finalizeTag_ok (inst : Instance) (arena : Segment.Arena) (out tag : List UInt8)
    (h1 : 1 ≤ out.length) (hn : out.length ≤ 0xFFFFFFFF)
    (h : Hash.finalize w compress inst arena out = .ok tag) :
    ∃ writes, finalizeTag w compress inst arena ⟨out, []⟩ = some (.ok (), ⟨tag, writes⟩) := by
  unfold Hash.finalize at h
  unfold finalizeTag
  by_cases hzero : inst.laneLength = 0 ∨ inst.lanes = 0
  · rw [if_pos hzero] at h
    cases h
  · rw [if_neg hzero] at h ⊢
    obtain ⟨first, hfirst, h⟩ := (bind_ok_iff _ _ _).mp h
    obtain ⟨last, hlast, h⟩ := (bind_ok_iff _ _ _).mp h
    rw [blake2bLong_eq compress out _ h1 hn, Except.ok.injEq] at h
    obtain ⟨writes, hrun, -, -⟩ := blake2bLongInto_ok compress out last.toLeBytes h1 hn
    rw [hfirst, Program.lift_ok_bind, hlast, Program.lift_ok_bind, hrun, h]
    exact ⟨writes, rfl⟩

variable (scheduler : Scheduler) (algorithm : Algorithm) (version : Version) (p : Params w)
  (x : Inputs) (out : List UInt8)

/-- In an arena of the right size nothing fails: not the pre-hash, not the first
blocks, not the fill and not the finalisation. -/
theorem hashInArenaInto_ok (arena : Segment.Arena) (hsize : arena.size = p.memoryBlocks.toNat)
    (hout : out.length = p.tagLenBytes) :
    ∃ writes, hashInArenaInto compress (pooledFill scheduler) arena algorithm version p x
      ⟨out, []⟩ = some (.ok (), ⟨rfcTag compress algorithm version p x, writes⟩) := by
  have hpure := pooled_eq_rfcTag compress scheduler algorithm version p x out hsize hout
  have hlens := p.lengths
  have hlen : out.length = p.outputLen.toNat := hout
  have hge := hlens.out_ge
  have hle := hlens.out_le
  rw [hashInArena_steps] at hpure
  unfold hashInArenaInto
  rw [if_neg (not_not.mpr hsize)] at hpure ⊢
  obtain ⟨blockhash, hhash, hpure⟩ := (bind_ok_iff _ _ _).mp hpure
  obtain ⟨first, hfirst, hpure⟩ := (bind_ok_iff _ _ _).mp hpure
  obtain ⟨filled, hfilled, hpure⟩ := (bind_ok_iff _ _ _).mp hpure
  rw [hhash, Program.lift_ok_bind, hfirst, Program.lift_ok_bind, hfilled, Program.lift_ok_bind]
  exact finalizeTag_ok compress _ _ out _ (by omega) (by omega) hpure

theorem hashOwnedInto_reported (alloc : ℕ → Bool) :
    ∃ result o, hashOwnedInto compress (pooledFill scheduler) alloc algorithm version p x
        ⟨out, []⟩ = some (result, o) ∧
      Reported out (firstError p x out (refuses w alloc p.memoryBlocks.toNat))
        (rfcTag compress algorithm version p x) result o := by
  unfold hashOwnedInto
  rw [Program.get_bind]
  cases hv : validateAndSize p x out with
  | error e =>
    rw [Program.lift_error_bind, firstError_of_invalid _ hv]
    exact ⟨_, _, rfl, Reported.error⟩
  | ok blocks =>
    obtain ⟨-, hout, hblocks⟩ := (validateAndSize_ok_iff p x out blocks).mp hv
    rw [Program.lift_ok_bind, firstError_of_valid _ hv, ← hblocks]
    obtain ⟨hr, ha⟩ | ⟨hr, arena, ha, hsize⟩ := arenaNew_cases w alloc blocks
    · rw [ha, hr, Program.lift_error_bind, if_pos rfl]
      exact ⟨_, _, rfl, Reported.error⟩
    · obtain ⟨writes, hrun⟩ := hashInArenaInto_ok compress scheduler algorithm version p x out
        arena (hsize.trans hblocks) hout
      rw [ha, hr, Program.lift_ok_bind, hrun, if_neg (by decide)]
      exact ⟨_, _, rfl, Reported.ok⟩

theorem hashInWorkspaceInto_reported (wipeEnabled : Bool) (env : Env) (ws : Workspace) :
    ∃ result ws' o, hashInWorkspaceInto wipeEnabled compress env algorithm version p x
        (ws, ⟨out, []⟩) = some (result, (ws', o)) ∧
      Reported out (firstError p x out (decide (ws.capacity < p.memoryBlocks.toNat) &&
          refuses w env.arenaAlloc p.memoryBlocks.toNat))
        (rfcTag compress algorithm version p x) result o := by
  have hpos : 0 < p.memoryBlocks.toNat := by
    have hs := p.two_le_segmentLength
    have hl := p.costs.lanes_ge
    rw [p.memoryBlocks_toNat]
    exact Nat.mul_pos (by omega) (by omega)
  unfold hashInWorkspaceInto
  rw [Program.get_bind]
  dsimp only
  cases hv : validateAndSize p x out with
  | error e =>
    rw [Program.lift_error_bind, firstError_of_invalid _ hv]
    exact ⟨_, _, _, rfl, Reported.error⟩
  | ok blocks =>
    obtain ⟨-, hout, hblocks⟩ := (validateAndSize_ok_iff p x out blocks).mp hv
    rw [Program.lift_ok_bind, firstError_of_valid _ hv, ← hblocks]
    rw [← hblocks] at hpos
    obtain ⟨hr, ws', freed, ha⟩ | ⟨hr, a, ws', freed, ha, hsize⟩ :=
      acquireOwned_window w env.arenaAlloc wipeEnabled ws hpos
    · have hacquire : onWorkspace (Pooled.acquire wipeEnabled w env.arenaAlloc blocks)
          (ws, (⟨out, []⟩ : Output)) =
            some (.error .memoryAllocationError, (ws', ⟨out, []⟩)) := by
        unfold onWorkspace Pooled.acquire Workspace.acquire
        rw [ha]
        rfl
      rw [Program.bind_of_error hacquire, hr, if_pos rfl]
      exact ⟨_, _, _, rfl, Reported.error⟩
    · have hacquire : onWorkspace (Pooled.acquire wipeEnabled w env.arenaAlloc blocks)
          (ws, (⟨out, []⟩ : Output)) = some (.ok ⟨a⟩, (ws', ⟨out, []⟩)) := by
        unfold onWorkspace Pooled.acquire Workspace.acquire
        rw [ha]
        rfl
      obtain ⟨writes, hrun⟩ := hashInArenaInto_ok compress env.scheduler algorithm version p x out
        a.visible (hsize.trans hblocks) hout
      rw [Program.bind_of_ok hacquire, Program.bind_of_ok (Program.attempt_eq
        (Program.second_eq ws' hrun)), hr, if_neg (by decide)]
      exact ⟨_, _, _, rfl, Reported.ok⟩

end Late

/-- `hash_into_with_ad` fails exactly on the first of an invalid input, a buffer of
the wrong length and an arena that cannot be had, and then leaves the buffer as it
was. In an arena of the right size it cannot fail. -/
theorem hashIntoWithAd_errors {w : PointerWidth} (compress : CompressFn) (argon2 : Argon2 w)
    (x : Inputs) (out : List UInt8) :
    (∀ scheduler alloc, ∃ result o,
      hashOwnedInto compress (pooledFill scheduler) alloc argon2.algorithm argon2.version
        argon2.params x ⟨out, []⟩ = some (result, o) ∧
      Reported out
        (firstError argon2.params x out (refuses w alloc argon2.params.memoryBlocks.toNat))
        (rfcTag compress argon2.algorithm argon2.version argon2.params x) result o) ∧
    (∀ wipeEnabled env ws, ∃ result ws' o,
      hashInWorkspaceInto wipeEnabled compress env argon2.algorithm argon2.version argon2.params x
        (ws, ⟨out, []⟩) = some (result, (ws', o)) ∧
      Reported out
        (firstError argon2.params x out (decide (ws.capacity < argon2.params.memoryBlocks.toNat) &&
          refuses w env.arenaAlloc argon2.params.memoryBlocks.toNat))
        (rfcTag compress argon2.algorithm argon2.version argon2.params x) result o) ∧
    (∀ scheduler arena, arena.size = argon2.params.memoryBlocks.toNat →
      out.length = argon2.params.tagLenBytes → ∃ writes,
      hashInArenaInto compress (pooledFill scheduler) arena argon2.algorithm argon2.version
        argon2.params x ⟨out, []⟩ =
      some (.ok (), ⟨rfcTag compress argon2.algorithm argon2.version argon2.params x, writes⟩)) := by
  refine ⟨?_, ?_, ?_⟩
  · intro scheduler alloc
    exact hashOwnedInto_reported compress scheduler _ _ argon2.params x out alloc
  · intro wipeEnabled env ws
    exact hashInWorkspaceInto_reported compress _ _ argon2.params x out wipeEnabled env ws
  · intro scheduler arena hsize hout
    exact hashInArenaInto_ok compress scheduler _ _ argon2.params x out arena hsize hout

theorem hashIntoWithAd_errors_mismatch :
    hashOwnedInto compressScalar (pooledFill inOrder) (fun _ => true) .argon2id .v0x13 Params.least
      ⟨[], List.replicate 8 0, [], []⟩ ⟨[1, 2, 3], []⟩ =
      some (.error .outPtrMismatch, ⟨[1, 2, 3], []⟩) := by
  obtain ⟨result, o, hrun, hrep⟩ := (hashIntoWithAd_errors compressScalar
    ⟨.argon2id, .v0x13, Params.least⟩ ⟨[], List.replicate 8 0, [], []⟩ [1, 2, 3]).1 inOrder
      (fun _ => true)
  have hresult := (hrep.error_iff .outPtrMismatch).mpr (by decide)
  rw [hrun, hrep.unchanged _ hresult, hresult]

end Argon2Rust.HashErrors
