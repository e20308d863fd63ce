import Argon2Rust.PooledAnswers
import Argon2Rust.Zeroing

set_option autoImplicit false

namespace Argon2Rust.WorkspaceCapacity
open Parameters Compression PooledAnswers Zeroing Memory
open Hash (blockSize arenaAlign checkedLayout checkedLayout_ok_iff checkedLayout_error)

/-- No block, more bytes than `usize` counts, or more than a layout may have. -/
def Rejected (w : PointerWidth) (blocks : ℕ) : Prop :=
  blocks = 0 ∨ 2 ^ w.bits ≤ blocks * blockSize ∨
    2 ^ (w.bits - 1) - arenaAlign < blocks * blockSize

theorem checkedLayout_cases (w : PointerWidth) (blocks : ℕ) :
    (Rejected w blocks ∧ checkedLayout w blocks = .error .memoryAllocationError) ∨
      (¬ Rejected w blocks ∧ checkedLayout w blocks = .ok (blocks * blockSize)) := by
  have hiff := checkedLayout_ok_iff w blocks (blocks * blockSize)
  have hnot : ¬ Rejected w blocks ↔ blocks ≠ 0 ∧ blocks * blockSize < 2 ^ w.bits ∧
      blocks * blockSize ≤ 2 ^ (w.bits - 1) - arenaAlign := by
    unfold Rejected
    rw [not_or, not_or, not_le, not_lt]
  by_cases hr : Rejected w blocks
  · refine Or.inl ⟨hr, ?_⟩
    cases h : checkedLayout w blocks with
    | error e => rw [checkedLayout_error w h]
    | ok bytes =>
      exact absurd hr (hnot.mpr ((checkedLayout_ok_iff w blocks bytes).mp h).1)
  · exact Or.inr ⟨hr, hiff.mpr ⟨hnot.mp hr, rfl⟩⟩

section Outcomes
variable (w : PointerWidth) (alloc : ℕ → Bool) (blocks : ℕ)

theorem arenaNew_cases (hok : ¬ Rejected w blocks) :
    (alloc (blocks * blockSize) = false ∧
      Memory.Arena.new w alloc blocks = .error .memoryAllocationError) ∨
    (alloc (blocks * blockSize) = true ∧
      ∃ a, Memory.Arena.new w alloc blocks = .ok a ∧ a.capacity = blocks) := by
  obtain ⟨hr, -⟩ | ⟨-, hl⟩ := checkedLayout_cases w blocks
  · exact absurd hr hok
  · unfold Memory.Arena.new
    rw [hl, ok_bind]
    cases ha : alloc (blocks * blockSize) with
    | false => exact Or.inl ⟨rfl, rfl⟩
    | true => exact Or.inr ⟨rfl, _, rfl, Array.size_replicate⟩

variable (wipeEnabled : Bool) (ws : Workspace)

theorem reserve_outcomes :
    (blocks ≤ ws.capacity ∧ ws.reserve wipeEnabled w alloc blocks = ⟨.ok (), ws, []⟩) ∨
    (ws.capacity < blocks ∧ Rejected w blocks ∧
      ws.reserve wipeEnabled w alloc blocks = ⟨.error .memoryAllocationError, ws, []⟩) ∨
    (¬ Rejected w blocks ∧ alloc (blocks * blockSize) = false ∧
      ws.reserve wipeEnabled w alloc blocks =
        ⟨.error .memoryAllocationError, ⟨none⟩, ws.dropParked wipeEnabled⟩) ∨
    (¬ Rejected w blocks ∧ ws.capacity < blocks ∧ ∃ a, a.capacity = blocks ∧
      ws.reserve wipeEnabled w alloc blocks = ⟨.ok (), ⟨some a⟩, ws.dropParked wipeEnabled⟩) := by
  unfold Workspace.reserve
  by_cases hroom : blocks ≤ ws.capacity
  · rw [if_pos (Or.inr hroom)]
    exact Or.inl ⟨hroom, rfl⟩
  · have hgrows : ws.capacity < blocks := Nat.lt_of_not_le hroom
    rw [if_neg (by omega)]
    obtain ⟨hr, hl⟩ | ⟨hok, hl⟩ := checkedLayout_cases w blocks
    · rw [hl]
      exact Or.inr (Or.inl ⟨hgrows, hr, rfl⟩)
    · rw [hl]
      dsimp only
      obtain ⟨ha, hnew⟩ | ⟨-, a, hnew, hcap⟩ := arenaNew_cases w alloc blocks hok
      · rw [hnew]
        exact Or.inr (Or.inr (Or.inl ⟨hok, ha, rfl⟩))
      · rw [hnew]
        exact Or.inr (Or.inr (Or.inr ⟨hok, hgrows, a, hcap, rfl⟩))

theorem acquireOwned_outcomes :
    ((blocks = 0 ∨ ws.capacity < blocks ∧ Rejected w blocks) ∧
      ws.acquireOwned wipeEnabled w alloc blocks = ⟨.error .memoryAllocationError, ws, []⟩) ∨
    (¬ Rejected w blocks ∧ alloc (blocks * blockSize) = false ∧
      ws.acquireOwned wipeEnabled w alloc blocks =
        ⟨.error .memoryAllocationError, ⟨none⟩, ws.dropParked wipeEnabled⟩) ∨
    (0 < blocks ∧ ∃ a freed, ws.capacity ≤ a.capacity ∧
      ws.acquireOwned wipeEnabled w alloc blocks = ⟨.ok a, ⟨none⟩, freed⟩) := by
  unfold Workspace.acquireOwned
  by_cases hzero : blocks = 0
  · rw [if_pos hzero]
    exact Or.inl ⟨Or.inl hzero, rfl⟩
  · have hpos : 0 < blocks := Nat.pos_of_ne_zero hzero
    rw [if_neg hzero]
    by_cases hgrows : ws.capacity < blocks
    · rw [if_pos hgrows, ws.takeOrNew_grows wipeEnabled w alloc hgrows]
      obtain ⟨hr, hl⟩ | ⟨hok, hl⟩ := checkedLayout_cases w blocks
      · rw [hl]
        exact Or.inl ⟨Or.inr ⟨hgrows, hr⟩, rfl⟩
      · rw [hl]
        dsimp only
        obtain ⟨ha, hnew⟩ | ⟨-, a, hnew, hcap⟩ := arenaNew_cases w alloc blocks hok
        · rw [hnew]
          exact Or.inr (Or.inl ⟨hok, ha, rfl⟩)
        · rw [hnew]
          exact Or.inr (Or.inr ⟨hpos, a, _, by omega, rfl⟩)
    · obtain ⟨a, hparked, -, htake⟩ := ws.takeOrNew_fits wipeEnabled w alloc hpos
        (Nat.le_of_not_lt hgrows)
      rw [if_neg hgrows, htake]
      refine Or.inr (Or.inr ⟨hpos, _, [], ?_, rfl⟩)
      rw [retarget_capacity, Workspace.capacity_some hparked]

theorem release_capacity (a : Arena) :
    (ws.release wipeEnabled a).workspace.capacity = max ws.capacity a.capacity := by
  have hwiped := capacity_wipeVisible wipeEnabled a
  unfold Workspace.release
  dsimp only
  cases hparked : ws.arena with
  | none =>
    unfold Workspace.capacity
    rw [hparked]
    exact hwiped.trans (Nat.zero_max _).symm
  | some parked =>
    rw [Workspace.capacity_some hparked, Option.any_some, hwiped]
    by_cases hkeep : parked.capacity ≥ a.capacity
    · rw [decide_eq_true hkeep, if_pos rfl, Workspace.capacity_some hparked,
        Nat.max_eq_left hkeep]
    · rw [decide_eq_false hkeep, if_neg (by decide)]
      exact hwiped.trans (Nat.max_eq_right (Nat.le_of_not_le hkeep)).symm

end Outcomes

section Failures
variable {α : Type} (w : PointerWidth) (alloc : ℕ → Bool) (blocks : ℕ) (ws : Workspace)

/-- A failed call leaves the workspace as it was, or the allocator has refused it memory. -/
structure Atomic (o : Outcome (Except Error α)) : Prop where
  kept : Rejected w blocks → ∀ e, o.result = .error e → o = ⟨.error e, ws, []⟩
  refused : ¬ Rejected w blocks → ∀ e, o.result = .error e → alloc (blocks * blockSize) = false

variable {w alloc blocks ws}

theorem Atomic.ok {a : α} {ws' : Workspace} {freed : List (Array Block)} :
    Atomic w alloc blocks ws ⟨.ok a, ws', freed⟩ := ⟨nofun, nofun⟩

theorem Atomic.rejected (h : Rejected w blocks) (e : Error) :
    Atomic w alloc blocks ws (⟨.error e, ws, []⟩ : Outcome (Except Error α)) where
  kept _ e' he := by rw [Except.error.inj he]
  refused hn := absurd h hn

theorem Atomic.failed {e : Error} {ws' : Workspace} {freed : List (Array Block)}
    (hok : ¬ Rejected w blocks) (ha : alloc (blocks * blockSize) = false) :
    Atomic w alloc blocks ws (⟨.error e, ws', freed⟩ : Outcome (Except Error α)) where
  kept hr := absurd hr hok
  refused _ _ _ := ha

theorem Atomic.map {β : Type} {o : Outcome (Except Error α)} (h : Atomic w alloc blocks ws o)
    (f : α → β) : Atomic w alloc blocks ws ⟨o.result.map f, o.workspace, o.freed⟩ := by
  obtain ⟨r, ws', freed⟩ := o
  cases r with
  | ok a => exact Atomic.ok
  | error e =>
    refine ⟨?_, fun hok _ _ => h.refused hok e rfl⟩
    intro hr e' he
    have hkept := h.kept hr e rfl
    rw [Outcome.mk.injEq] at hkept
    rw [hkept.2.1, hkept.2.2, ← Except.error.inj he]
    rfl

variable (wipeEnabled : Bool)

theorem reserve_atomic : Atomic w alloc blocks ws (ws.reserve wipeEnabled w alloc blocks) := by
  obtain ⟨-, h⟩ | ⟨-, hr, h⟩ | ⟨hok, ha, h⟩ | ⟨-, -, a, -, h⟩ :=
    reserve_outcomes w alloc blocks wipeEnabled ws
  · rw [h]
    exact Atomic.ok
  · rw [h]
    exact Atomic.rejected hr _
  · rw [h]
    exact Atomic.failed hok ha
  · rw [h]
    exact Atomic.ok

theorem acquireOwned_atomic :
    Atomic w alloc blocks ws (ws.acquireOwned wipeEnabled w alloc blocks) := by
  obtain ⟨hfails, h⟩ | ⟨hok, ha, h⟩ | ⟨-, a, freed, -, h⟩ :=
    acquireOwned_outcomes w alloc blocks wipeEnabled ws
  · have hr : Rejected w blocks := hfails.elim Or.inl And.right
    rw [h]
    exact Atomic.rejected hr _
  · rw [h]
    exact Atomic.failed hok ha
  · rw [h]
    exact Atomic.ok

theorem acquire_atomic : Atomic w alloc blocks ws (ws.acquire wipeEnabled w alloc blocks) :=
  (acquireOwned_atomic wipeEnabled).map ArenaGuard.mk

/-- A size that no allocation can have is refused, unless so much is parked already. -/
theorem reserve_rejects (hr : Rejected w blocks) (hgrows : ws.capacity < blocks) :
    (ws.reserve wipeEnabled w alloc blocks).result = .error .memoryAllocationError := by
  obtain ⟨hroom, -⟩ | ⟨-, -, h⟩ | ⟨hok, -, -⟩ | ⟨hok, -, -⟩ :=
    reserve_outcomes w alloc blocks wipeEnabled ws
  · exact absurd hroom (Nat.not_le.mpr hgrows)
  · rw [h]
  · exact absurd hr hok
  · exact absurd hr hok

theorem acquireOwned_rejects (hr : Rejected w blocks)
    (hgrows : blocks = 0 ∨ ws.capacity < blocks) :
    (ws.acquireOwned wipeEnabled w alloc blocks).result = .error .memoryAllocationError := by
  unfold Workspace.acquireOwned
  by_cases hzero : blocks = 0
  · rw [if_pos hzero]
  · obtain ⟨-, hl⟩ | ⟨hok, -⟩ := checkedLayout_cases w blocks
    · rw [if_neg hzero, if_pos (hgrows.resolve_left hzero), hl]
    · exact absurd hr hok

end Failures

/-- The arena goes back to workspace `n`, unless it is dropped. -/
def Returns (n : ℕ) : Held → Prop
  | .owned _ => True
  | .guard m _ => m = n

/-- Workspace `n` parks this much, or an arena that goes back to it has it. -/
def Retains (n M : ℕ) (W : World) : Prop :=
  M ≤ (W.workspaces n).capacity ∨
    ∃ slot held, W.held slot = some held ∧ Returns n held ∧ M ≤ held.arena.capacity

/-- The action does not clear workspace `n`, hands every arena back to it, and what
it has to allocate for it is granted. -/
def Returning (n : ℕ) : Action → Prop
  | .reserve m blocks alloc => m = n → alloc (blocks * blockSize) = true
  | .acquire _ m blocks alloc => m = n → alloc (blocks * blockSize) = true
  | .acquireOwned _ m blocks alloc => m = n → alloc (blocks * blockSize) = true
  | .release _ m => m = n
  | .clear m => m ≠ n
  | .dropArena _ => False
  | _ => True

section Steps
variable {n M : ℕ} {W : World}

theorem Retains.park (h : Retains n M W) {α : Type} (m : ℕ) (o : Outcome α)
    (hcap : m = n → (W.workspaces n).capacity ≤ o.workspace.capacity) :
    Retains n M (W.park m o) := by
  obtain hparked | hheld := h
  · left
    change M ≤ (Function.update W.workspaces m o.workspace n).capacity
    by_cases hm : m = n
    · rw [hm, Function.update_self]
      exact hparked.trans (hcap hm)
    · rw [Function.update_of_ne (Ne.symm hm)]
      exact hparked
  · exact Or.inr hheld

theorem Retains.place (h : Retains n M W) {slot : ℕ} (hfree : W.held slot = none)
    (x : Option Held) : Retains n M (W.place slot x) := by
  obtain hparked | ⟨i, held, hi, hret, hle⟩ := h
  · exact Or.inl hparked
  · refine Or.inr ⟨i, held, ?_, hret, hle⟩
    have hne : i ≠ slot := by
      rintro rfl
      rw [hfree] at hi
      cases hi
    exact (Function.update_of_ne hne _ _).trans hi

theorem Retains.onArena (h : Retains n M W) (slot : ℕ) {f : Arena → Arena}
    (hf : ∀ a, (f a).capacity = a.capacity) : Retains n M (W.onArena slot f) := by
  unfold World.onArena
  cases hslot : W.held slot with
  | none => exact h
  | some x =>
    obtain hparked | ⟨i, held, hi, hret, hle⟩ := h
    · exact Or.inl hparked
    · right
      by_cases hne : i = slot
      · subst hne
        rw [hslot] at hi
        cases hi
        refine ⟨i, x.set (f x.arena), Function.update_self _ _ _, ?_, ?_⟩
        · cases x <;> exact hret
        · rw [← hf] at hle
          cases x <;> exact hle
      · exact ⟨i, held, (Function.update_of_ne hne _ _).trans hi, hret, hle⟩

theorem Retains.take (h : Retains n M W) {slot m : ℕ} (hfree : W.held slot = none) {α : Type}
    (o : Outcome α) (r : Except Error Held)
    (herror : ∀ e, r = .error e → m = n → o.workspace = W.workspaces n)
    (hok : ∀ x, r = .ok x → m = n →
      Returns n x ∧ (W.workspaces n).capacity ≤ x.arena.capacity) :
    Retains n M ((W.park m o).take slot r) := by
  cases r with
  | error e => exact h.park m o fun hm => by rw [herror e rfl hm]
  | ok x =>
    by_cases hm : m = n
    · obtain ⟨hret, hcap⟩ := hok x rfl hm
      obtain hparked | hheld := h
      · exact Or.inr ⟨slot, x, Function.update_self _ _ _, hret, hparked.trans hcap⟩
      · have hpark : Retains n M (W.park m o) := Or.inr hheld
        exact hpark.place hfree (some x)
    · exact (h.park m o fun hn => absurd hn hm).place hfree (some x)

theorem Retains.giveBack (h : Retains n M W) {slot m : ℕ} {x : Held} (hslot : W.held slot = some x)
    {α : Type} (o : Outcome α) (hret : Returns n x → m = n)
    (hcap : m = n → o.workspace.capacity = max (W.workspaces n).capacity x.arena.capacity) :
    Retains n M ((W.park m o).place slot none) := by
  have hparked : ∀ k ≤ (W.workspaces n).capacity, k ≤ ((W.park m o).workspaces n).capacity := by
    intro k hk
    change k ≤ (Function.update W.workspaces m o.workspace n).capacity
    by_cases hm : m = n
    · rw [hm, Function.update_self, hcap hm]
      exact hk.trans (Nat.le_max_left _ _)
    · rw [Function.update_of_ne (Ne.symm hm)]
      exact hk
  obtain hk | ⟨i, held, hi, hreturns, hle⟩ := h
  · exact Or.inl (hparked M hk)
  · by_cases hne : i = slot
    · subst hne
      rw [hslot] at hi
      cases hi
      have hm := hret hreturns
      left
      change M ≤ (Function.update W.workspaces m o.workspace n).capacity
      rw [hm, Function.update_self, hcap hm]
      exact hle.trans (Nat.le_max_right _ _)
    · exact Or.inr ⟨i, held, (Function.update_of_ne hne _ _).trans hi, hreturns, hle⟩

theorem retains_unlessHeld {slot : ℕ} {W' : World} (h : Retains n M W)
    (hfree : W.held slot = none → Retains n M W') :
    Retains n M (if (W.held slot).isSome then W else W') := by
  cases hslot : W.held slot with
  | none => exact hfree hslot
  | some x => exact h

theorem writeThrough_capacity (access : Arena → Arena)
    (hacc : ∀ a, (access a).capacity = a.capacity) (stores : List (ℕ × Block)) (a : Arena) :
    (World.writeThrough access stores a).capacity = a.capacity := by
  unfold World.writeThrough
  split
  · exact (size_stores stores _).trans (hacc a)
  · rfl

theorem ensureZeroed_capacity (a : Arena) : a.ensureZeroed.capacity = a.capacity := by
  unfold Arena.ensureZeroed
  split
  · rfl
  · exact Array.size_replicate

variable (wipeEnabled : Bool) (w : PointerWidth)

theorem Retains.acquired (h : Retains n M W) {slot m blocks : ℕ} {alloc : ℕ → Bool}
    (hfree : W.held slot = none) (halloc : m = n → alloc (blocks * blockSize) = true)
    {α : Type} (o : Outcome α) (f : Arena → Held) (harena : ∀ a, (f a).arena = a)
    (hret : m = n → ∀ a, Returns n (f a))
    (hws : o.workspace = ((W.workspaces m).acquireOwned wipeEnabled w alloc blocks).workspace) :
    Retains n M ((W.park m o).take slot
      (((W.workspaces m).acquireOwned wipeEnabled w alloc blocks).result.map f)) := by
  apply h.take hfree
  · rintro e he rfl
    obtain ⟨-, hout⟩ | ⟨-, ha, -⟩ | ⟨-, a, freed, -, hout⟩ :=
      acquireOwned_outcomes w alloc blocks wipeEnabled (W.workspaces m)
    · rw [hws, hout]
    · rw [halloc rfl] at ha
      cases ha
    · rw [hout] at he
      cases he
  · rintro x hx rfl
    obtain ⟨-, hout⟩ | ⟨-, -, hout⟩ | ⟨-, a, freed, hcap, hout⟩ :=
      acquireOwned_outcomes w alloc blocks wipeEnabled (W.workspaces m)
    · rw [hout] at hx
      cases hx
    · rw [hout] at hx
      cases hx
    · rw [hout] at hx
      cases hx
      rw [harena]
      exact ⟨hret rfl a, hcap⟩

/-- Every returning action retains what the workspace has. -/
theorem Retains.step (h : Retains n M W) (action : Action) (haction : Returning n action) :
    Retains n M (W.step wipeEnabled w action) := by
  cases action with
  | newArena slot blocks alloc =>
    apply retains_unlessHeld h
    intro hfree
    cases Memory.Arena.new w alloc blocks with
    | error e => exact h
    | ok a => exact h.place hfree _
  | asMutSlice slot stores =>
    exact h.onArena slot (writeThrough_capacity Arena.asMutSlice (fun _ => rfl) stores)
  | asMutPtr slot stores =>
    exact h.onArena slot (writeThrough_capacity Arena.asMutPtr (fun _ => rfl) stores)
  | ensureZeroed slot => exact h.onArena slot ensureZeroed_capacity
  | reserve m blocks alloc =>
    apply h.park
    rintro rfl
    obtain ⟨-, hout⟩ | ⟨-, -, hout⟩ | ⟨-, ha, -⟩ | ⟨-, hgrows, a, hcap, hout⟩ :=
      reserve_outcomes w alloc blocks wipeEnabled (W.workspaces m)
    · rw [hout]
    · rw [hout]
    · rw [haction rfl] at ha
      cases ha
    · rw [hout]
      exact hgrows.le.trans hcap.ge
  | acquire slot m blocks alloc =>
    apply retains_unlessHeld h
    intro hfree
    have hmap : ∀ r : Except Error Arena,
        (r.map ArenaGuard.mk).map (Held.guard m) = r.map fun a => Held.guard m ⟨a⟩ := by
      intro r
      cases r <;> rfl
    dsimp only [Workspace.acquire]
    rw [hmap]
    exact h.acquired wipeEnabled w hfree haction _ _ (fun _ => rfl) (fun hm _ => hm) rfl
  | acquireOwned slot m blocks alloc =>
    apply retains_unlessHeld h
    intro hfree
    exact h.acquired wipeEnabled w hfree haction _ _ (fun _ => rfl) (fun _ _ => trivial) rfl
  | release slot m =>
    obtain rfl : m = n := haction
    dsimp only [World.step]
    rcases hslot : W.held slot with _ | ⟨a | ⟨k, g⟩⟩
    · exact h
    · exact h.giveBack hslot _ (fun _ => rfl) fun _ =>
        release_capacity wipeEnabled (W.workspaces m) a
    · exact h
  | dropGuard slot =>
    dsimp only [World.step]
    rcases hslot : W.held slot with _ | ⟨a | ⟨m, g⟩⟩
    · exact h
    · exact h
    · refine h.giveBack hslot _ id ?_
      rintro rfl
      exact release_capacity wipeEnabled (W.workspaces m) g.arena
  | clear m => exact h.park m _ fun hm => absurd hm haction
  | dropArena slot => exact haction.elim

theorem Retains.run (h : Retains n M W) (actions : List Action)
    (hactions : ∀ action ∈ actions, Returning n action) :
    Retains n M (W.run wipeEnabled w actions) := by
  induction actions generalizing W with
  | nil => exact h
  | cons action actions ih =>
    rw [List.forall_mem_cons] at hactions
    exact ih (h.step wipeEnabled w action hactions.1) hactions.2

end Steps

/-- A size that no allocation can have never costs a workspace its arena, a release
keeps the larger arena, and between two clears the capacity only grows: whatever
was parked at any moment is parked again once nothing is on loan. -/
theorem workspace_capacity (wipeEnabled : Bool) (w : PointerWidth) :
    (∀ (ws : Workspace) alloc blocks,
      Atomic w alloc blocks ws (ws.reserve wipeEnabled w alloc blocks) ∧
      Atomic w alloc blocks ws (ws.acquire wipeEnabled w alloc blocks) ∧
      Atomic w alloc blocks ws (ws.acquireOwned wipeEnabled w alloc blocks) ∧
      (Rejected w blocks → ws.capacity < blocks →
        (ws.reserve wipeEnabled w alloc blocks).result = .error .memoryAllocationError) ∧
      (Rejected w blocks → blocks = 0 ∨ ws.capacity < blocks →
        (ws.acquireOwned wipeEnabled w alloc blocks).result = .error .memoryAllocationError)) ∧
    (∀ (ws : Workspace) a,
      (ws.release wipeEnabled a).workspace.capacity = max ws.capacity a.capacity) ∧
    (∀ n (W : World) actions, (∀ action ∈ actions, Returning n action) →
      (∀ slot, (W.run wipeEnabled w actions).held slot = none) →
      (W.workspaces n).capacity ≤ ((W.run wipeEnabled w actions).workspaces n).capacity) := by
  refine ⟨?_, ?_, ?_⟩
  · intro ws alloc blocks
    exact ⟨reserve_atomic wipeEnabled, acquire_atomic wipeEnabled, acquireOwned_atomic wipeEnabled,
      reserve_rejects wipeEnabled, acquireOwned_rejects wipeEnabled⟩
  · exact release_capacity wipeEnabled
  · intro n W actions hactions hheld
    have hstart : Retains n (W.workspaces n).capacity W := Or.inl le_rfl
    obtain hparked | ⟨slot, held, hslot, -, -⟩ := hstart.run wipeEnabled w actions hactions
    · exact hparked
    · rw [hheld slot] at hslot
      cases hslot

def threeParked : World := World.init.step true .bits64 (.reserve 0 3 fun _ => true)

def twoLoans : List Action :=
  [.acquireOwned 0 0 1 fun _ => true, .acquireOwned 1 0 2 fun _ => true, .release 1 0, .release 0 0]

theorem workspace_capacity_two_loans :
    (threeParked.workspaces 0).capacity = 3 ∧
      3 ≤ ((threeParked.run true .bits64 twoLoans).workspaces 0).capacity := by
  refine ⟨rfl, (workspace_capacity true .bits64).2.2 0 threeParked twoLoans ?_ ?_⟩
  · intro action haction
    simp only [twoLoans, List.mem_cons, List.not_mem_nil, or_false] at haction
    rcases haction with rfl | rfl | rfl | rfl <;> simp [Returning]
  · intro slot
    match slot with
    | 0 => rfl
    | 1 => rfl
    | _ + 2 => rfl

end Argon2Rust.WorkspaceCapacity
