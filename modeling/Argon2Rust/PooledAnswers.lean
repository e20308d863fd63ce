import Argon2Rust.Pooling
import Argon2Rust.HashVerify

set_option autoImplicit false

namespace Argon2Rust.PooledAnswers
open Parameters Base64 Encoding DecodeString Compression Blake2 Segment IndexAlpha Hash Verification
open OneShot Memory Pooling TagCorrectness RoundTrip Cursor

structure Allocates (w : PointerWidth) (env : Env) : Prop where
  alloc : ∀ cap ≤ isizeMax w, env.alloc cap = true
  arenaAlloc : ∀ cap ≤ isizeMax w, env.arenaAlloc cap = true

section Layout
variable (w : PointerWidth)

theorem layout_le_isizeMax {blocks bytes : ℕ} (h : checkedLayout w blocks = .ok bytes) :
    bytes ≤ isizeMax w := by
  obtain ⟨⟨-, -, hlayout⟩, rfl⟩ := (checkedLayout_ok_iff w blocks bytes).mp h
  unfold isizeMax
  unfold arenaAlign at hlayout
  omega

theorem ownedArena_allocates {alloc : ℕ → Bool} (halloc : ∀ cap ≤ isizeMax w, alloc cap = true)
    (blocks : ℕ) : Hash.Arena.new w alloc blocks =
      (checkedLayout w blocks).map fun _ => Array.replicate blocks Block.zero := by
  unfold Hash.Arena.new
  cases h : checkedLayout w blocks with
  | error e => rfl
  | ok bytes =>
    rw [ok_bind, if_pos (halloc _ (layout_le_isizeMax w h))]
    rfl

end Layout

/-- The parked arena has a size that can be allocated. -/
def Admissible (w : PointerWidth) (ws : Workspace) : Prop :=
  ∀ a, ws.arena = some a → ∃ bytes, checkedLayout w a.capacity = .ok bytes

section Acquire
variable {w : PointerWidth} (wipeEnabled : Bool) {alloc : ℕ → Bool} {ws : Workspace}

theorem admissible_none : Admissible w ⟨none⟩ := nofun

theorem admissible_some {a : Memory.Arena} {bytes : ℕ} (h : checkedLayout w a.capacity = .ok bytes) :
    Admissible w ⟨some a⟩ := by
  intro b hb
  cases hb
  exact ⟨bytes, h⟩

theorem memoryNew_ok (halloc : ∀ cap ≤ isizeMax w, alloc cap = true) {blocks bytes : ℕ}
    (h : checkedLayout w blocks = .ok bytes) :
    Memory.Arena.new w alloc blocks =
      .ok { memory := Array.replicate blocks Block.zero, blocks, zeroed := true } := by
  unfold Memory.Arena.new
  rw [h, ok_bind, if_pos (halloc _ (layout_le_isizeMax w h))]

/-- What an acquired arena offers: a window of the size asked for, in a memory
of a size that can be allocated. -/
structure Fits (w : PointerWidth) (blocks : ℕ) (a : Memory.Arena) : Prop where
  window : a.visible.size = blocks
  layout : ∃ bytes, checkedLayout w a.capacity = .ok bytes

theorem fits_new {blocks bytes : ℕ} (h : checkedLayout w blocks = .ok bytes) :
    Fits w blocks { memory := Array.replicate blocks Block.zero, blocks, zeroed := true } := by
  refine ⟨?_, bytes, ?_⟩
  · unfold Arena.visible
    rw [Array.size_extract, Array.size_replicate, Nat.min_self, Nat.sub_zero]
  · rw [← h]
    exact congrArg (checkedLayout w) Array.size_replicate

theorem takeOrNew_ok (halloc : ∀ cap ≤ isizeMax w, alloc cap = true) (hws : Admissible w ws)
    {blocks bytes : ℕ} (h : checkedLayout w blocks = .ok bytes) :
    ∃ a freed, ws.takeOrNew wipeEnabled w alloc blocks = ⟨.ok a, ⟨none⟩, freed⟩ ∧
      Fits w blocks a := by
  obtain ⟨a, hparked, hfits, htake⟩ | hnew := ws.takeOrNew_cases wipeEnabled w alloc blocks
  · refine ⟨_, _, htake, visible_retarget hfits, ?_⟩
    rw [retarget_capacity]
    exact hws a hparked
  · rw [memoryNew_ok halloc h] at hnew
    exact ⟨_, _, hnew, fits_new h⟩

theorem acquireOwned_spec (halloc : ∀ cap ≤ isizeMax w, alloc cap = true) (hws : Admissible w ws)
    (blocks : ℕ) :
    (checkedLayout w blocks = .error .memoryAllocationError ∧
      ws.acquireOwned wipeEnabled w alloc blocks = ⟨.error .memoryAllocationError, ws, []⟩) ∨
    ∃ bytes, checkedLayout w blocks = .ok bytes ∧ ∃ a freed,
      ws.acquireOwned wipeEnabled w alloc blocks = ⟨.ok a, ⟨none⟩, freed⟩ ∧ Fits w blocks a := by
  unfold Workspace.acquireOwned
  by_cases hzero : blocks = 0
  · rw [if_pos hzero]
    exact Or.inl ⟨if_pos hzero, rfl⟩
  · rw [if_neg hzero]
    by_cases hgrows : ws.capacity < blocks
    · rw [if_pos hgrows]
      cases h : checkedLayout w blocks with
      | error e =>
        cases checkedLayout_error w h
        exact Or.inl ⟨rfl, rfl⟩
      | ok bytes => exact Or.inr ⟨bytes, rfl, takeOrNew_ok wipeEnabled halloc hws h⟩
    · rw [if_neg hgrows]
      have hlayout : ∃ bytes, checkedLayout w ws.capacity = .ok bytes := by
        cases hparked : ws.arena with
        | none =>
          unfold Workspace.capacity at hgrows
          rw [hparked] at hgrows
          exact absurd (Nat.pos_of_ne_zero hzero) hgrows
        | some a =>
          rw [Workspace.capacity_some hparked]
          exact hws a hparked
      obtain ⟨bytes, hbytes⟩ := hlayout
      have h := checkedLayout_mono w hzero (Nat.le_of_not_lt hgrows) hbytes
      exact Or.inr ⟨_, h, takeOrNew_ok wipeEnabled halloc hws h⟩

theorem release_admissible {a : Memory.Arena} {bytes : ℕ} (hws : Admissible w ws)
    (ha : checkedLayout w a.capacity = .ok bytes) :
    Admissible w (ws.release wipeEnabled a).workspace := by
  obtain h | h := ws.release_cases wipeEnabled a
  · rw [h]
    exact hws
  · rw [h]
    rw [← capacity_wipeVisible wipeEnabled] at ha
    exact admissible_some ha

theorem reserve_admissible (hws : Admissible w ws) (blocks : ℕ) :
    Admissible w (ws.reserve wipeEnabled w alloc blocks).workspace := by
  obtain ⟨r, h⟩ | ⟨e, h⟩ | ⟨a, bytes, hlayout, hnew, h⟩ :=
    ws.reserve_cases wipeEnabled w alloc blocks
  · rw [h]
    exact hws
  · rw [h]
    exact admissible_none
  · rw [h]
    have hcap : a.capacity = blocks := (new_sound true hnew).2.2.2
    exact admissible_some (hcap ▸ hlayout)

end Acquire

/-- From every admissible workspace the program answers `r` and leaves one. -/
def Answers {α : Type} (w : PointerWidth) (m : Pooled α) (r : Except Error α) : Prop :=
  ∀ ws, Admissible w ws → (m ws).result = r ∧ Admissible w (m ws).workspace

section Programs
variable {w : PointerWidth} {α β : Type}

theorem answers_lift (r : Except Error α) : Answers w (Pooled.lift r) r := fun _ h => ⟨rfl, h⟩

theorem answers_bind {m : Pooled α} {r : Except Error α} {k : α → Pooled β}
    {q : α → Except Error β} (hm : Answers w m r) (hk : ∀ a, r = .ok a → Answers w (k a) (q a)) :
    Answers w (m >>= k) (r >>= q) := by
  intro ws hws
  obtain ⟨hresult, hleft⟩ := hm ws hws
  cases r with
  | error e =>
    rw [Pooled.bind_of_error m k ws hresult]
    exact ⟨rfl, hleft⟩
  | ok a =>
    rw [Pooled.bind_of_ok m k ws hresult]
    exact hk a rfl _ hleft

theorem answers_ite {c : Prop} [Decidable c] {m m' : Pooled α} {r : Except Error α}
    (hm : c → Answers w m r) (hm' : ¬ c → Answers w m' r) :
    Answers w (if c then m else m') r := by
  by_cases h : c
  · rw [if_pos h]
    exact hm h
  · rw [if_neg h]
    exact hm' h

theorem answers_guard {c : Prop} [Decidable c] {e : Error} {m : Pooled α} {r : Except Error α}
    (hm : Answers w m r) :
    Answers w (if c then Pooled.lift (.error e) else m) (if c then .error e else r) := by
  by_cases h : c
  · rw [if_pos h, if_pos h]
    exact answers_lift _
  · rw [if_neg h, if_neg h]
    exact hm

theorem Answers.answer {m : Pooled α} {r : Except Error α} (hm : Answers w m r)
    (f : Except Error α → Answer) (ws : Workspace) (hws : Admissible w ws) :
    (m.answer f ws).result = f r ∧ Admissible w (m.answer f ws).workspace := by
  obtain ⟨hresult, hleft⟩ := hm ws hws
  exact ⟨congrArg f hresult, hleft⟩

end Programs

section Methods
variable {w : PointerWidth} (wipeEnabled : Bool) (backend : Backend) (compress : CompressFn)
  {env : Env} (henv : Allocates w env)
include henv

/-- The hash in a borrowed arena, whatever the arena held, is the hash in an arena of its own. -/
theorem hashInWorkspace_answers (algorithm : Algorithm) (version : Version) (params : Params w)
    (x : Inputs) (out : List UInt8) :
    Answers w (hashInWorkspace wipeEnabled compress env algorithm version params x out)
      (hashOwned compress (pooledFill env.scheduler) env.alloc algorithm version params x out) := by
  rw [hashOwned_eq]
  unfold hashInWorkspace
  refine answers_bind (answers_lift _) ?_
  intro blocks hblocks
  obtain ⟨-, hout, hsize⟩ := (validateAndSize_ok_iff params x out blocks).mp hblocks
  rw [ownedArena_allocates w henv.alloc]
  intro ws hws
  rcases acquireOwned_spec wipeEnabled henv.arenaAlloc hws blocks with
    ⟨hlayout, hacquire⟩ | ⟨bytes, hlayout, a, freed, hacquire, hfits⟩
  · have hnone : Pooled.acquire wipeEnabled w env.arenaAlloc blocks ws =
        ⟨.error .memoryAllocationError, ws, []⟩ := by
      unfold Pooled.acquire Workspace.acquire
      rw [hacquire]
      rfl
    rw [Pooled.bind_of_error _ _ ws (congrArg Outcome.result hnone), hlayout, hnone]
    exact ⟨rfl, hws⟩
  · have hguard : Pooled.acquire wipeEnabled w env.arenaAlloc blocks ws =
        ⟨.ok ⟨a⟩, ⟨none⟩, freed⟩ := by
      unfold Pooled.acquire Workspace.acquire
      rw [hacquire]
      rfl
    obtain ⟨bytes', hcap⟩ := hfits.layout
    have hresidue : checkedLayout w (fillResidue env ⟨a⟩).arena.capacity = .ok bytes' := by
      rw [← hcap]
      exact congrArg (checkedLayout w) (size_stores _ _)
    rw [Pooled.bind_of_ok _ _ ws (congrArg Outcome.result hguard), hlayout, hguard]
    refine ⟨?_, release_admissible wipeEnabled admissible_none hresidue⟩
    exact pooled_eq_rfcTag compress env.scheduler algorithm version params x out
      (hfits.window.trans hsize) hout

theorem hashIntoUsing_answers (argon2 : Argon2 w) (x : Inputs) (out : List UInt8) :
    Answers w (hashIntoUsing wipeEnabled compress env argon2 x out)
      (argon2.hashIntoWithAd (env.host backend w) compress (pooledFill env.scheduler) x out) :=
  hashInWorkspace_answers wipeEnabled compress henv _ _ _ x out

theorem hashWithAd_answers (argon2 : Argon2 w) (x : Inputs) :
    Answers w (hashWithAd wipeEnabled backend compress env argon2 x)
      (argon2.hashWithAd (env.host backend w) compress (pooledFill env.scheduler) x) :=
  answers_bind (answers_lift _)
    fun out _ => hashIntoUsing_answers wipeEnabled backend compress henv argon2 x out

theorem hashEncodedWithAd_answers (argon2 : Argon2 w) (x : Inputs) :
    Answers w (hashEncodedWithAd wipeEnabled backend compress env argon2 x)
      (argon2.hashEncodedWithAd (env.host backend w) compress (pooledFill env.scheduler) x) :=
  answers_bind (hashWithAd_answers wipeEnabled backend compress henv argon2 x)
    fun _ _ => answers_lift _

theorem verifyUsingAd_answers (argon2 : Argon2 w) (x : Inputs) (expected : List UInt8) :
    Answers w (verifyUsingAd wipeEnabled backend compress env argon2 x expected)
      (argon2.verifyWithAd (env.host backend w) compress (pooledFill env.scheduler) x expected) :=
  answers_bind (answers_lift _) fun out _ =>
    answers_bind (hashIntoUsing_answers wipeEnabled backend compress henv argon2 x out)
      fun _ _ => answers_lift _

omit henv in
/-- Where the pooled and the private branch answer the same, the ceiling does not matter. -/
theorem pooledCeiling_answers {α : Type} (argon2 : Argon2 w) {k : ℕ → Pooled α}
    {r : Except Error α} (hk : ∀ ceiling, Answers w (k ceiling) r) :
    Answers w (pooledCeiling argon2 >>= k) r := by
  intro ws hws
  exact hk _ ws hws

omit henv in
theorem decoded_answers (argon2 : Argon2 w) (decode : Except Error (Decoded w))
    (alone : Decoded w → Except Error Unit) {pooled : Decoded w → Pooled Unit}
    (hpooled : ∀ d, Answers w (pooled d) (alone d)) :
    Answers w (do
      let decoded ← Pooled.lift decode
      let ceiling ← pooledCeiling argon2
      if decoded.params.memoryBlocks.toNat > ceiling then Pooled.lift (alone decoded)
      else pooled decoded) (decode >>= alone) := by
  refine answers_bind (answers_lift _) ?_
  intro d _
  apply pooledCeiling_answers argon2
  intro ceiling
  exact answers_ite (fun _ => answers_lift _) fun _ => hpooled d

theorem pooledCall_answers (argon2 : Argon2 w) (call : Call w) (ws : Workspace)
    (hws : Admissible w ws) :
    (pooledCall wipeEnabled backend compress env argon2 call ws).result =
        oneShot backend compress env argon2 call ∧
      Admissible w (pooledCall wipeEnabled backend compress env argon2 call ws).workspace := by
  have hinto := hashIntoUsing_answers wipeEnabled backend compress henv argon2
  have hhash := hashWithAd_answers wipeEnabled backend compress henv argon2
  have hencoded := hashEncodedWithAd_answers wipeEnabled backend compress henv argon2
  have hverify := verifyUsingAd_answers wipeEnabled backend compress henv argon2
  have hdecoded := fun d : Decoded w =>
    verifyUsingAd_answers wipeEnabled backend compress henv (ofDecoded d)
  cases call with
  | hashInto pwd salt out => exact (hinto ⟨pwd, salt, [], []⟩ out).answer .bytes ws hws
  | hashIntoWithAd x out => exact (hinto x out).answer .bytes ws hws
  | hash pwd salt => exact (hhash ⟨pwd, salt, [], []⟩).answer .bytes ws hws
  | hashWithAd x => exact (hhash x).answer .bytes ws hws
  | hashEncoded pwd salt => exact (hencoded ⟨pwd, salt, [], []⟩).answer .bytes ws hws
  | hashEncodedWithAd x => exact (hencoded x).answer .bytes ws hws
  | verify pwd salt expected =>
    exact (hverify ⟨pwd, salt, [], []⟩ expected).answer .checked ws hws
  | verifyWithAd x expected => exact (hverify x expected).answer .checked ws hws
  | verifyEncoded encoded pwd algorithm =>
    exact (answers_guard (decoded_answers argon2 _ _
      fun d => hdecoded d ⟨pwd, d.salt, [], []⟩ d.hash)).answer .checked ws hws
  | verifyEncodedWithAd encoded pwd secret ad algorithm =>
    exact (answers_guard (decoded_answers argon2 _ _
      fun d => hdecoded d ⟨pwd, d.salt, secret, ad⟩ d.hash)).answer .checked ws hws
  | verifyEncodedBounded encoded pwd algorithm ceiling =>
    exact (answers_guard (decoded_answers argon2 _ _
      fun d => hdecoded d ⟨pwd, d.salt, [], []⟩ d.hash)).answer .checked ws hws
  | verifyEncodedBoundedWithAd encoded pwd secret ad algorithm ceiling =>
    exact (answers_guard (decoded_answers argon2 _ _
      fun d => hdecoded d ⟨pwd, d.salt, secret, ad⟩ d.hash)).answer .checked ws hws

end Methods

section Runs
variable {w : PointerWidth} (wipeEnabled : Bool) (backend : Backend) (compress : CompressFn)

/-- The order in which the one-shot pool runs its segments does not show. -/
theorem oneShot_scheduler (env : Env) (scheduler : Scheduler) (argon2 : Argon2 w) (call : Call w) :
    oneShot backend compress { env with scheduler } argon2 call =
      oneShot backend compress env argon2 call := by
  have hhost : Env.host backend { env with scheduler } w = env.host backend w := rfl
  cases call <;>
    simp only [oneShot, hhost, Argon2.hashIntoWithAd, Argon2.hashWithAd, Argon2.hashEncodedWithAd,
      Argon2.verifyWithAd, Argon2.verifyEncodedWithAd, Argon2.verifyEncodedBoundedWithAd,
      Verification.verifyWithAd, Verification.verify, Verification.verifyEncoded,
      Verification.verifyEncodedBounded, hashOwned_eq] <;>
    rfl

/-- What the one-shot methods answer to the calls of a sequence of operations, each
under the configuration that is current then. -/
def oneShots (scheduler : Scheduler) (argon2 : Argon2 w) :
    List (Env × Operation w) → List (Option Answer)
  | [] => []
  | (_, .setArgon2 argon2) :: ops => none :: oneShots scheduler argon2 ops
  | (_, .reserve) :: ops => none :: oneShots scheduler argon2 ops
  | (_, .clear) :: ops => none :: oneShots scheduler argon2 ops
  | (env, .call call) :: ops =>
    some (oneShot backend compress { env with scheduler } argon2 call) ::
      oneShots scheduler argon2 ops

theorem run_answers (scheduler : Scheduler) (ops : List (Env × Operation w))
    (halloc : ∀ op ∈ ops, Allocates w op.1) (hasher : Hasher w)
    (hws : Admissible w hasher.workspace) :
    (hasher.run wipeEnabled backend compress ops).1 =
      oneShots backend compress scheduler hasher.argon2 ops := by
  induction ops generalizing hasher with
  | nil => rfl
  | cons op ops ih =>
    obtain ⟨env, op⟩ := op
    have henv : Allocates w env := halloc _ List.mem_cons_self
    have hrest : ∀ op ∈ ops, Allocates w op.1 := fun op hop => halloc op (List.mem_cons_of_mem _ hop)
    cases op with
    | setArgon2 argon2 =>
      exact congrArg (none :: ·) (ih hrest { hasher with argon2 := argon2 } hws)
    | reserve =>
      exact congrArg (none :: ·) (ih hrest _ (reserve_admissible wipeEnabled hws _))
    | clear => exact congrArg (none :: ·) (ih hrest _ admissible_none)
    | call call =>
      obtain ⟨hresult, hleft⟩ :=
        pooledCall_answers wipeEnabled backend compress henv hasher.argon2 call _ hws
      rw [← oneShot_scheduler backend compress env scheduler] at hresult
      exact congrArg₂ (fun answer answers => some answer :: answers) hresult (ih hrest _ hleft)

/-- The hasher refines the one-shot API: over any operations, with or without the wipe. -/
theorem hasher_refines_oneShot (argon2 : Argon2 w) (ops : List (Env × Operation w))
    (halloc : ∀ op ∈ ops, Allocates w op.1) (scheduler : Scheduler) :
    ((Hasher.new argon2).run wipeEnabled backend compress ops).1 =
      oneShots backend compress scheduler argon2 ops :=
  run_answers wipeEnabled backend compress scheduler ops halloc (Hasher.new argon2) admissible_none

end Runs

def inOrder : Scheduler := fun inst pass slice =>
  { order := (List.finRange inst.lanes.toNat).flatMap fun lane : Fin inst.lanes.toNat =>
      List.replicate (segmentBlocks inst (Fill.lanePosition pass slice lane)) lane
    complete := fun lane => Interleaving.count_flatMap_replicate _ _ (List.nodup_finRange _) lane
      (List.mem_finRange lane) }

def plainEnv : Env := ⟨fun _ => true, fun _ => true, inOrder, fun _ => Block.zero⟩

def mixedUse : List (Env × Operation .bits64) := [
  (plainEnv, .call (.hash (ascii "password") (ascii "somesalt"))),
  (plainEnv, .call (.verifyEncoded leastString (ascii "password") .argon2id)),
  (plainEnv, .clear),
  (plainEnv, .reserve),
  (plainEnv, .call (.hashInto (ascii "password") (ascii "salt") []))]

theorem hasher_refines_oneShot_mixedUse :
    ((Hasher.new ⟨.argon2id, .v0x13, Params.least⟩).run true .scalar compressScalar mixedUse).1 =
      oneShots .scalar compressScalar inOrder ⟨.argon2id, .v0x13, Params.least⟩ mixedUse := by
  refine hasher_refines_oneShot true .scalar compressScalar _ mixedUse ?_ inOrder
  intro op hop
  have henv : op.1 = plainEnv := by
    unfold mixedUse at hop
    simp only [List.mem_cons, List.not_mem_nil, or_false] at hop
    rcases hop with rfl | rfl | rfl | rfl | rfl <;> rfl
  rw [henv]
  exact ⟨fun _ _ => rfl, fun _ _ => rfl⟩

end Argon2Rust.PooledAnswers
