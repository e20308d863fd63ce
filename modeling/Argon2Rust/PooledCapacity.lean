import Argon2Rust.Pooling

set_option autoImplicit false

namespace Argon2Rust.PooledCapacity
open Parameters Base64 Encoding DecodeString Blake2 Segment IndexAlpha Hash Verification
open OneShot Memory Pooling

section Workspace
variable (wipeEnabled : Bool) (w : PointerWidth) (alloc : ℕ → Bool) (ws : Workspace)

theorem new_capacity {blocks : ℕ} {a : Memory.Arena} (h : Memory.Arena.new w alloc blocks = .ok a) :
    a.capacity = blocks := (new_sound true h).2.2.2

theorem reserve_capacity_le (blocks : ℕ) :
    (ws.reserve wipeEnabled w alloc blocks).workspace.capacity ≤ max ws.capacity blocks := by
  obtain ⟨r, h⟩ | ⟨e, h⟩ | ⟨a, bytes, -, hnew, h⟩ := ws.reserve_cases wipeEnabled w alloc blocks
  · rw [h]
    exact Nat.le_max_left _ _
  · rw [h]
    exact Nat.zero_le _
  · rw [h]
    change a.capacity ≤ _
    rw [new_capacity w alloc hnew]
    exact Nat.le_max_right _ _

/-- What an acquisition leaves parked and what it hands out. -/
structure AcquireWithin (limit : ℕ) (o : Outcome (Except Error Memory.Arena)) : Prop where
  parked : o.workspace.capacity ≤ limit
  acquired : ∀ a, o.result = .ok a → a.capacity ≤ limit

variable {w alloc ws} {limit : ℕ}

theorem takeOrNew_within {blocks : ℕ} (hws : ws.capacity ≤ limit) (hblocks : blocks ≤ limit) :
    AcquireWithin limit (ws.takeOrNew wipeEnabled w alloc blocks) := by
  obtain ⟨a, hparked, -, h⟩ | h := ws.takeOrNew_cases wipeEnabled w alloc blocks
  · rw [h]
    refine ⟨Nat.zero_le _, ?_⟩
    intro b hb
    cases hb
    rw [retarget_capacity, ← Workspace.capacity_some hparked]
    exact hws
  · rw [h]
    refine ⟨Nat.zero_le _, ?_⟩
    intro a hnew
    rw [new_capacity w alloc hnew]
    exact hblocks

theorem acquireOwned_within {blocks : ℕ} (hws : ws.capacity ≤ limit) (hblocks : blocks ≤ limit) :
    AcquireWithin limit (ws.acquireOwned wipeEnabled w alloc blocks) := by
  obtain ⟨e, h⟩ | h := ws.acquireOwned_cases wipeEnabled w alloc blocks
  · rw [h]
    exact ⟨hws, nofun⟩
  · rw [h]
    exact takeOrNew_within wipeEnabled hws hblocks

theorem release_within {a : Memory.Arena} (hws : ws.capacity ≤ limit) (ha : a.capacity ≤ limit) :
    (ws.release wipeEnabled a).workspace.capacity ≤ limit := by
  obtain h | h := ws.release_cases wipeEnabled a
  · rw [h]
    exact hws
  · rw [h]
    change (a.wipeVisible wipeEnabled).capacity ≤ limit
    rw [capacity_wipeVisible]
    exact ha

end Workspace

/-- A program that keeps the capacity under a limit, however it ends. -/
def Within {α : Type} (limit : ℕ) (m : Pooled α) : Prop :=
  ∀ ws : Workspace, ws.capacity ≤ limit → (m ws).workspace.capacity ≤ limit

section Programs
variable {α β : Type} {limit : ℕ}

theorem within_lift (r : Except Error α) : Within limit (Pooled.lift r) := fun _ h => h

theorem within_bind_on {m : Pooled α} {k : α → Pooled β} (ws : Workspace)
    (hm : (m ws).workspace.capacity ≤ limit)
    (hk : ∀ a, (m ws).result = .ok a → (k a (m ws).workspace).workspace.capacity ≤ limit) :
    ((m >>= k) ws).workspace.capacity ≤ limit := by
  cases hr : (m ws).result with
  | error e =>
    rw [Pooled.bind_of_error m k ws hr]
    exact hm
  | ok a =>
    rw [Pooled.bind_of_ok m k ws hr]
    exact hk a hr

theorem within_bind {m : Pooled α} {k : α → Pooled β} (hm : Within limit m)
    (hk : ∀ a, Within limit (k a)) : Within limit (m >>= k) := by
  intro ws hws
  exact within_bind_on ws (hm ws hws) fun a _ => hk a _ (hm ws hws)

theorem within_lift_bind {r : Except Error α} {k : α → Pooled β}
    (hk : ∀ a, r = .ok a → Within limit (k a)) : Within limit (Pooled.lift r >>= k) := by
  intro ws hws
  exact within_bind_on ws hws fun a ha => hk a ha ws hws

theorem within_ite {c : Prop} [Decidable c] {m m' : Pooled α} (hm : c → Within limit m)
    (hm' : ¬ c → Within limit m') : Within limit (if c then m else m') := by
  by_cases h : c
  · rw [if_pos h]
    exact hm h
  · rw [if_neg h]
    exact hm' h

end Programs

section Methods
variable {w : PointerWidth} (wipeEnabled : Bool) (backend : Backend) (compress : CompressFn)
  (env : Env) {limit : ℕ}

theorem fillResidue_capacity (guard : ArenaGuard) :
    (fillResidue env guard).arena.capacity = guard.arena.capacity := size_stores _ _

theorem dropGuard_within {guard : ArenaGuard} (hguard : guard.arena.capacity ≤ limit) :
    Within limit (Pooled.dropGuard wipeEnabled guard) :=
  fun _ hws => release_within wipeEnabled hws hguard

theorem hashInWorkspace_within (algorithm : Algorithm) (version : Version) (params : Params w)
    (hparams : params.memoryBlocks.toNat ≤ limit) (x : Inputs) (out : List UInt8) :
    Within limit (hashInWorkspace wipeEnabled compress env algorithm version params x out) := by
  unfold hashInWorkspace
  apply within_lift_bind
  intro blocks hblocks
  obtain ⟨-, -, rfl⟩ := (validateAndSize_ok_iff params x out blocks).mp hblocks
  intro ws hws
  have hacquire : AcquireWithin limit
      (ws.acquireOwned wipeEnabled w env.arenaAlloc params.memoryBlocks.toNat) :=
    acquireOwned_within wipeEnabled hws hparams
  apply within_bind_on ws hacquire.parked
  intro guard hguard
  obtain ⟨a, ha, rfl⟩ := map_ok _ hguard
  have hdrop : Within limit (Pooled.dropGuard wipeEnabled (fillResidue env ⟨a⟩)) := by
    apply dropGuard_within
    rw [fillResidue_capacity]
    exact hacquire.acquired a ha
  exact within_bind hdrop (fun _ => within_lift _) _ hacquire.parked

theorem hashIntoUsing_within (argon2 : Argon2 w)
    (hargon2 : argon2.params.memoryBlocks.toNat ≤ limit) (x : Inputs) (out : List UInt8) :
    Within limit (hashIntoUsing wipeEnabled compress env argon2 x out) :=
  hashInWorkspace_within wipeEnabled compress env _ _ _ hargon2 x out

theorem hashWithAd_within (argon2 : Argon2 w)
    (hargon2 : argon2.params.memoryBlocks.toNat ≤ limit) (x : Inputs) :
    Within limit (hashWithAd wipeEnabled backend compress env argon2 x) :=
  within_lift_bind fun out _ => hashIntoUsing_within wipeEnabled compress env argon2 hargon2 x out

theorem hashEncodedWithAd_within (argon2 : Argon2 w)
    (hargon2 : argon2.params.memoryBlocks.toNat ≤ limit) (x : Inputs) :
    Within limit (hashEncodedWithAd wipeEnabled backend compress env argon2 x) :=
  within_bind (hashWithAd_within wipeEnabled backend compress env argon2 hargon2 x)
    fun _ => within_lift _

theorem verifyUsingAd_within (argon2 : Argon2 w)
    (hargon2 : argon2.params.memoryBlocks.toNat ≤ limit) (x : Inputs) (expected : List UInt8) :
    Within limit (verifyUsingAd wipeEnabled backend compress env argon2 x expected) :=
  within_lift_bind fun computed _ =>
    within_bind (hashIntoUsing_within wipeEnabled compress env argon2 hargon2 x computed)
      fun _ => within_lift _

/-- The pooled branch is taken only under the larger of the capacity and the configuration. -/
theorem pooledCeiling_within {α : Type} (argon2 : Argon2 w)
    (hargon2 : argon2.params.memoryBlocks.toNat ≤ limit) {k : ℕ → Pooled α}
    (hk : ∀ ceiling ≤ limit, Within limit (k ceiling)) :
    Within limit (pooledCeiling argon2 >>= k) := by
  intro ws hws
  exact hk _ (Nat.max_le.mpr ⟨hws, hargon2⟩) ws hws

theorem decoded_within {argon2 : Argon2 w} (hargon2 : argon2.params.memoryBlocks.toNat ≤ limit)
    (decode : Except Error (Decoded w)) (alone : Decoded w → Except Error Unit)
    {pooled : Decoded w → Pooled Unit}
    (hpooled : ∀ d, d.params.memoryBlocks.toNat ≤ limit → Within limit (pooled d)) :
    Within limit (do
      let decoded ← Pooled.lift decode
      let ceiling ← pooledCeiling argon2
      if decoded.params.memoryBlocks.toNat > ceiling then Pooled.lift (alone decoded)
      else pooled decoded) := by
  apply within_lift_bind
  intro d _
  apply pooledCeiling_within argon2 hargon2
  intro ceiling hceiling
  apply within_ite
  · exact fun _ => within_lift _
  · exact fun hle => hpooled d ((Nat.le_of_not_lt hle).trans hceiling)

theorem pooledCall_within {argon2 : Argon2 w}
    (hargon2 : argon2.params.memoryBlocks.toNat ≤ limit) (call : Call w) (ws : Workspace)
    (hws : ws.capacity ≤ limit) :
    (pooledCall wipeEnabled backend compress env argon2 call ws).workspace.capacity ≤ limit := by
  cases call with
  | hashInto pwd salt out =>
    exact hashIntoUsing_within wipeEnabled compress env argon2 hargon2 _ out ws hws
  | hashIntoWithAd x out =>
    exact hashIntoUsing_within wipeEnabled compress env argon2 hargon2 x out ws hws
  | hash pwd salt =>
    exact hashWithAd_within wipeEnabled backend compress env argon2 hargon2 _ ws hws
  | hashWithAd x =>
    exact hashWithAd_within wipeEnabled backend compress env argon2 hargon2 x ws hws
  | hashEncoded pwd salt =>
    exact hashEncodedWithAd_within wipeEnabled backend compress env argon2 hargon2 _ ws hws
  | hashEncodedWithAd x =>
    exact hashEncodedWithAd_within wipeEnabled backend compress env argon2 hargon2 x ws hws
  | verify pwd salt expected =>
    exact verifyUsingAd_within wipeEnabled backend compress env argon2 hargon2 _ expected ws hws
  | verifyWithAd x expected =>
    exact verifyUsingAd_within wipeEnabled backend compress env argon2 hargon2 x expected ws hws
  | verifyEncoded encoded pwd algorithm =>
    exact within_ite (fun _ => within_lift _) (fun _ => decoded_within hargon2 _ _
      fun d hd => verifyUsingAd_within wipeEnabled backend compress env (ofDecoded d) hd _ _) ws hws
  | verifyEncodedWithAd encoded pwd secret ad algorithm =>
    exact within_ite (fun _ => within_lift _) (fun _ => decoded_within hargon2 _ _
      fun d hd => verifyUsingAd_within wipeEnabled backend compress env (ofDecoded d) hd _ _) ws hws
  | verifyEncodedBounded encoded pwd algorithm ceiling =>
    exact within_ite (fun _ => within_lift _) (fun _ => decoded_within hargon2 _ _
      fun d hd => verifyUsingAd_within wipeEnabled backend compress env (ofDecoded d) hd _ _) ws hws
  | verifyEncodedBoundedWithAd encoded pwd secret ad algorithm ceiling =>
    exact within_ite (fun _ => within_lift _) (fun _ => decoded_within hargon2 _ _
      fun d hd => verifyUsingAd_within wipeEnabled backend compress env (ofDecoded d) hd _ _) ws hws

end Methods

section Runs
variable {w : PointerWidth} (wipeEnabled : Bool) (backend : Backend) (compress : CompressFn)

def configurations (ops : List (Env × Operation w)) : List (Argon2 w) :=
  ops.filterMap fun op => match op.2 with
    | .setArgon2 argon2 => some argon2
    | _ => none

def ownersMaximum (argon2s : List (Argon2 w)) : ℕ :=
  argon2s.foldr (fun argon2 n => max argon2.params.memoryBlocks.toNat n) 0

def Bounded (limit : ℕ) (hasher : Hasher w) : Prop :=
  hasher.reservedBlocks ≤ limit ∧ hasher.argon2.params.memoryBlocks.toNat ≤ limit

theorem step_bounded {limit : ℕ} {hasher : Hasher w} (h : Bounded limit hasher) (env : Env)
    (op : Operation w)
    (hset : ∀ argon2, op = .setArgon2 argon2 → argon2.params.memoryBlocks.toNat ≤ limit) :
    Bounded limit (hasher.step wipeEnabled backend compress env op).2 := by
  obtain ⟨hreserved, hconfigured⟩ := h
  cases op with
  | setArgon2 argon2 => exact ⟨hreserved, hset argon2 rfl⟩
  | reserve =>
    refine ⟨?_, hconfigured⟩
    exact (reserve_capacity_le wipeEnabled w env.arenaAlloc hasher.workspace _).trans
      (Nat.max_le.mpr ⟨hreserved, hconfigured⟩)
  | clear => exact ⟨Nat.zero_le _, hconfigured⟩
  | call call =>
    exact ⟨pooledCall_within wipeEnabled backend compress env hconfigured call _ hreserved,
      hconfigured⟩

theorem run_bounded {limit : ℕ} (ops : List (Env × Operation w)) {hasher : Hasher w}
    (h : Bounded limit hasher)
    (hset : ∀ argon2 ∈ configurations ops, argon2.params.memoryBlocks.toNat ≤ limit) :
    Bounded limit (hasher.run wipeEnabled backend compress ops).2 := by
  induction ops generalizing hasher with
  | nil => exact h
  | cons op ops ih =>
    obtain ⟨env, op⟩ := op
    refine ih (step_bounded wipeEnabled backend compress h env op ?_) ?_
    · rintro argon2 rfl
      exact hset argon2 List.mem_cons_self
    · intro argon2 hmem
      refine hset argon2 ?_
      unfold configurations at hmem ⊢
      rw [List.filterMap_cons]
      split
      · exact hmem
      · exact List.mem_cons_of_mem _ hmem

theorem le_ownersMaximum (argon2s : List (Argon2 w)) :
    ∀ argon2 ∈ argon2s, argon2.params.memoryBlocks.toNat ≤ ownersMaximum argon2s := by
  induction argon2s with
  | nil => nofun
  | cons first argon2s ih =>
    intro argon2 hmem
    rcases List.mem_cons.mp hmem with rfl | hmem
    · exact Nat.le_max_left _ _
    · exact (ih argon2 hmem).trans (Nat.le_max_right _ _)

/-- No ratchet: after any operations, failing ones included, the hasher keeps no more blocks
than the largest configuration that its owner has set. -/
theorem reservedBlocks_le (argon2 : Argon2 w) (ops : List (Env × Operation w)) :
    ((Hasher.new argon2).run wipeEnabled backend compress ops).2.reservedBlocks ≤
      ownersMaximum (argon2 :: configurations ops) := by
  have hall := le_ownersMaximum (argon2 :: configurations ops)
  have hinit : Bounded (ownersMaximum (argon2 :: configurations ops)) (Hasher.new argon2) :=
    ⟨Nat.zero_le _, hall argon2 List.mem_cons_self⟩
  exact (run_bounded wipeEnabled backend compress ops hinit
    fun a ha => hall a (List.mem_cons_of_mem _ ha)).1

end Runs

end Argon2Rust.PooledCapacity
