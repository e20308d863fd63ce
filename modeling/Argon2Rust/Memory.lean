import Argon2Rust.Hash

set_option autoImplicit false

/-!
# Arenas and the workspace

An arena is `capacity` blocks, a visible length and the flag that lets a drop
skip its wipe. A workspace parks at most one arena between two hashes. Every
operation that can free memory also returns what it hands back to the allocator.
-/
namespace Argon2Rust.Memory
open Parameters Compression Hash

structure Arena where
  memory : Array Block
  blocks : ℕ
  zeroed : Bool

def secureWipe (memory : Array Block) (n : ℕ) : Array Block :=
  memory.mapIdx fun i block => if i < n then Block.zero else block

def AllZero (memory : Array Block) : Prop := ∀ i (h : i < memory.size), memory[i] = Block.zero

namespace Arena
variable (wipeEnabled : Bool)

def new (w : PointerWidth) (alloc : ℕ → Bool) (blocks : ℕ) : Except Error Arena := do
  let bytes ← checkedLayout w blocks
  if alloc bytes then .ok { memory := Array.replicate blocks Block.zero, blocks, zeroed := true }
  else .error .memoryAllocationError

def capacity (a : Arena) : ℕ := a.memory.size

def asMutPtr (a : Arena) : Arena := { a with zeroed := false }

def asMutSlice (a : Arena) : Arena := { a with zeroed := false }

def store (a : Arena) (stores : List (ℕ × Block)) : Arena :=
  { a with memory := stores.foldl (fun memory s => memory.setIfInBounds s.1 s.2) a.memory }

/-- The region a borrower can reach. -/
def visible (a : Arena) : Array Block := a.memory.extract 0 a.blocks

def ensureZeroed (a : Arena) : Arena :=
  if a.zeroed then a
  else { a with memory := Array.replicate a.capacity Block.zero, zeroed := true }

def wipeVisible (a : Arena) : Arena :=
  { a with
    memory := if wipeEnabled then secureWipe a.memory a.blocks else a.memory
    zeroed := a.zeroed || wipeEnabled }

def retarget (a : Arena) (blocks : ℕ) : Bool × Arena :=
  if blocks > a.capacity then (false, a) else (true, { a with blocks })

def drop (a : Arena) : Array Block :=
  if a.zeroed then a.memory else (a.wipeVisible wipeEnabled).memory

end Arena

structure Workspace where
  arena : Option Arena

/-- The result of a call, the workspace after it, and the memory it freed. -/
structure Outcome (α : Type) where
  result : α
  workspace : Workspace
  freed : List (Array Block)

namespace Workspace
variable (wipeEnabled : Bool) (w : PointerWidth) (alloc : ℕ → Bool)

def new : Workspace := ⟨none⟩

def capacity (ws : Workspace) : ℕ := (ws.arena.map Arena.capacity).getD 0

/-- What assigning a new arena to the field, or `None`, drops. -/
def dropParked (ws : Workspace) : List (Array Block) :=
  (ws.arena.map (Arena.drop wipeEnabled)).toList

def reserve (ws : Workspace) (blocks : ℕ) : Outcome (Except Error Unit) :=
  if blocks = 0 ∨ ws.capacity ≥ blocks then ⟨.ok (), ws, []⟩
  else match checkedLayout w blocks with
    | .error e => ⟨.error e, ws, []⟩
    | .ok _ => match Arena.new w alloc blocks with
      | .error e => ⟨.error e, ⟨none⟩, ws.dropParked wipeEnabled⟩
      | .ok a => ⟨.ok (), ⟨some a⟩, ws.dropParked wipeEnabled⟩

def takeOrNew (ws : Workspace) (blocks : ℕ) : Outcome (Except Error Arena) :=
  match ws.arena with
  | some a =>
    if a.capacity ≥ blocks then ⟨.ok (a.retarget blocks).2, ⟨none⟩, []⟩
    else ⟨Arena.new w alloc blocks, ⟨none⟩, [a.drop wipeEnabled]⟩
  | none => ⟨Arena.new w alloc blocks, ⟨none⟩, []⟩

def acquireOwned (ws : Workspace) (blocks : ℕ) : Outcome (Except Error Arena) :=
  if blocks = 0 then ⟨.error .memoryAllocationError, ws, []⟩
  else if ws.capacity < blocks then match checkedLayout w blocks with
    | .error e => ⟨.error e, ws, []⟩
    | .ok _ => ws.takeOrNew wipeEnabled w alloc blocks
  else ws.takeOrNew wipeEnabled w alloc blocks

def release (ws : Workspace) (arena : Arena) : Outcome Unit :=
  let arena := arena.wipeVisible wipeEnabled
  let keepParked := ws.arena.any fun parked => parked.capacity ≥ arena.capacity
  if keepParked then ⟨(), ws, [arena.drop wipeEnabled]⟩
  else ⟨(), ⟨some arena⟩, ws.dropParked wipeEnabled⟩

def clear (ws : Workspace) : Outcome Unit := ⟨(), ⟨none⟩, ws.dropParked wipeEnabled⟩

end Workspace

/-- The arena on loan; dropping it releases it to the workspace it came from. -/
structure ArenaGuard where
  arena : Arena

namespace Workspace

def acquire (wipeEnabled : Bool) (w : PointerWidth) (alloc : ℕ → Bool) (ws : Workspace)
    (blocks : ℕ) : Outcome (Except Error ArenaGuard) :=
  let o := ws.acquireOwned wipeEnabled w alloc blocks
  ⟨o.result.map ArenaGuard.mk, o.workspace, o.freed⟩

def dropGuard (wipeEnabled : Bool) (ws : Workspace) (guard : ArenaGuard) : Outcome Unit :=
  ws.release wipeEnabled guard.arena

end Workspace

theorem map_ok {α β : Type} (f : α → β) {r : Except Error α} {y : β} (h : r.map f = .ok y) :
    ∃ x, r = .ok x ∧ f x = y := by
  cases r with
  | error e => cases h
  | ok x =>
    cases h
    exact ⟨x, rfl, rfl⟩

theorem allZero_replicate (n : ℕ) : AllZero (Array.replicate n Block.zero) := by
  intro i h
  exact Array.getElem_replicate h

theorem size_secureWipe (memory : Array Block) (n : ℕ) :
    (secureWipe memory n).size = memory.size := Array.size_mapIdx

theorem getElem_secureWipe (memory : Array Block) (n i : ℕ) (h : i < (secureWipe memory n).size)
    (hlt : i < memory.size) :
    (secureWipe memory n)[i] = if i < n then Block.zero else memory[i] := Array.getElem_mapIdx h

theorem size_stores (stores : List (ℕ × Block)) (memory : Array Block) :
    (stores.foldl (fun memory s => memory.setIfInBounds s.1 s.2) memory).size = memory.size := by
  induction stores generalizing memory with
  | nil => rfl
  | cons s stores ih => rw [List.foldl_cons, ih, Array.size_setIfInBounds]

theorem stores_behind (stores : List (ℕ × Block)) (memory : Array Block) (n i : ℕ)
    (hstores : ∀ s ∈ stores, s.1 < n) (hi : n ≤ i) :
    (stores.foldl (fun memory s => memory.setIfInBounds s.1 s.2) memory)[i]? = memory[i]? := by
  induction stores generalizing memory with
  | nil => rfl
  | cons s stores ih =>
    have hs := hstores s List.mem_cons_self
    rw [List.foldl_cons, ih _ fun s' hs' => hstores s' (List.mem_cons_of_mem _ hs'),
      Array.getElem?_setIfInBounds_ne (by omega)]

/-- The arena invariants; the second one only with the wipe compiled in. -/
structure Sound (wipeEnabled : Bool) (a : Arena) : Prop where
  blocks_le : a.blocks ≤ a.capacity
  behind : wipeEnabled = true → ∀ i, a.blocks ≤ i → ∀ h : i < a.memory.size,
    a.memory[i] = Block.zero
  known : a.zeroed = true → AllZero a.memory

/-- An arena that holds nothing of an earlier borrower, where wipes are compiled in. -/
def Clean (wipeEnabled : Bool) (a : Arena) : Prop := wipeEnabled = true → AllZero a.memory

section ArenaSteps
variable {wipeEnabled : Bool} {a : Arena}

theorem new_sound (wipeEnabled : Bool) {w : PointerWidth} {alloc : ℕ → Bool} {blocks : ℕ}
    (h : Arena.new w alloc blocks = .ok a) :
    Sound wipeEnabled a ∧ Clean wipeEnabled a ∧ a.blocks = blocks ∧ a.capacity = blocks := by
  unfold Arena.new at h
  obtain ⟨bytes, -, h⟩ := (bind_ok_iff _ _ _).mp h
  by_cases halloc : alloc bytes = true
  · rw [if_pos halloc] at h
    cases h
    have hzero := allZero_replicate blocks
    have hsize : (Array.replicate blocks Block.zero).size = blocks := Array.size_replicate
    exact ⟨⟨hsize.ge, fun _ i _ hi => hzero i hi, fun _ => hzero⟩, fun _ => hzero, rfl, hsize⟩
  · rw [if_neg halloc] at h
    cases h

theorem Sound.asMutSlice (ha : Sound wipeEnabled a) : Sound wipeEnabled a.asMutSlice :=
  ⟨ha.blocks_le, ha.behind, nofun⟩

theorem Sound.asMutPtr (ha : Sound wipeEnabled a) : Sound wipeEnabled a.asMutPtr :=
  ⟨ha.blocks_le, ha.behind, nofun⟩

theorem Sound.store (ha : Sound wipeEnabled a) (hflag : a.zeroed = false)
    (stores : List (ℕ × Block)) (hstores : ∀ s ∈ stores, s.1 < a.blocks) :
    Sound wipeEnabled (a.store stores) := by
  have hsize := size_stores stores a.memory
  refine ⟨?_, ?_, ?_⟩
  · exact ha.blocks_le.trans hsize.ge
  · intro hwipe i hi h
    have hlt : i < a.memory.size := hsize ▸ h
    have hsame : (a.store stores).memory[i]? = a.memory[i]? :=
      stores_behind stores a.memory a.blocks i hstores hi
    rw [Array.getElem?_eq_getElem hlt, Array.getElem?_eq_getElem h, Option.some.injEq] at hsame
    exact hsame.trans (ha.behind hwipe i hi hlt)
  · intro hzeroed
    change a.zeroed = true at hzeroed
    rw [hflag] at hzeroed
    cases hzeroed

theorem Sound.ensureZeroed (ha : Sound wipeEnabled a) : Sound wipeEnabled a.ensureZeroed := by
  unfold Arena.ensureZeroed
  cases hzeroed : a.zeroed with
  | true =>
    rw [if_pos rfl]
    exact ha
  | false =>
    rw [if_neg Bool.false_ne_true]
    have hzero := allZero_replicate a.capacity
    exact ⟨ha.blocks_le.trans Array.size_replicate.ge, fun _ i _ hi => hzero i hi, fun _ => hzero⟩

/-- The wipe of the visible window leaves nothing: behind it all is zero already. -/
theorem Sound.wiped (ha : Sound true a) : AllZero (a.wipeVisible true).memory := by
  intro i h
  have hlt : i < a.memory.size := size_secureWipe a.memory a.blocks ▸ h
  refine (getElem_secureWipe a.memory a.blocks i h hlt).trans ?_
  by_cases hi : i < a.blocks
  · exact if_pos hi
  · rw [if_neg hi]
    exact ha.behind rfl i (Nat.le_of_not_lt hi) hlt

theorem capacity_wipeVisible (wipeEnabled : Bool) (a : Arena) :
    (a.wipeVisible wipeEnabled).capacity = a.capacity := by
  cases wipeEnabled with
  | true => exact size_secureWipe a.memory a.blocks
  | false => rfl

theorem Sound.wipeVisible (ha : Sound wipeEnabled a) :
    Sound wipeEnabled (a.wipeVisible wipeEnabled) ∧
      Clean wipeEnabled (a.wipeVisible wipeEnabled) := by
  cases wipeEnabled with
  | true =>
    have hzero := ha.wiped
    refine ⟨⟨?_, fun _ i _ hi => hzero i hi, fun _ => hzero⟩, fun _ => hzero⟩
    rw [capacity_wipeVisible]
    exact ha.blocks_le
  | false =>
    refine ⟨⟨ha.blocks_le, nofun, ?_⟩, nofun⟩
    intro hzeroed
    change (a.zeroed || false) = true at hzeroed
    rw [Bool.or_false] at hzeroed
    exact ha.known hzeroed

/-- A drop may skip the wipe only where the flag already says zero. -/
theorem Sound.drop (ha : Sound true a) : AllZero (a.drop true) := by
  unfold Arena.drop
  cases hzeroed : a.zeroed with
  | true => exact ha.known hzeroed
  | false => exact ha.wiped

theorem Sound.retarget (ha : Sound wipeEnabled a) (hclean : Clean wipeEnabled a) (blocks : ℕ) :
    Sound wipeEnabled (a.retarget blocks).2 ∧ Clean wipeEnabled (a.retarget blocks).2 := by
  unfold Arena.retarget
  by_cases hfits : blocks > a.capacity
  · rw [if_pos hfits]
    exact ⟨ha, hclean⟩
  · rw [if_neg hfits]
    exact ⟨⟨Nat.le_of_not_lt hfits, fun hwipe i _ hi => hclean hwipe i hi, ha.known⟩, hclean⟩

theorem retarget_capacity (a : Arena) (blocks : ℕ) :
    (a.retarget blocks).2.capacity = a.capacity := by
  unfold Arena.retarget
  split <;> rfl

theorem visible_retarget {blocks : ℕ} (h : blocks ≤ a.capacity) :
    (a.retarget blocks).2.visible.size = blocks := by
  unfold Arena.retarget
  rw [if_neg (Nat.not_lt.mpr h)]
  unfold Arena.visible
  rw [Array.size_extract, Nat.sub_zero]
  exact Nat.min_eq_left h

end ArenaSteps

namespace Workspace
variable (wipeEnabled : Bool) (w : PointerWidth) (alloc : ℕ → Bool) (ws : Workspace)

theorem reserve_cases (blocks : ℕ) :
    (∃ r, ws.reserve wipeEnabled w alloc blocks = ⟨r, ws, []⟩) ∨
    (∃ e, ws.reserve wipeEnabled w alloc blocks =
      ⟨.error e, ⟨none⟩, ws.dropParked wipeEnabled⟩) ∨
    ∃ a bytes, checkedLayout w blocks = .ok bytes ∧ Arena.new w alloc blocks = .ok a ∧
      ws.reserve wipeEnabled w alloc blocks = ⟨.ok (), ⟨some a⟩, ws.dropParked wipeEnabled⟩ := by
  unfold reserve
  by_cases hroom : blocks = 0 ∨ ws.capacity ≥ blocks
  · rw [if_pos hroom]
    exact Or.inl ⟨_, rfl⟩
  · rw [if_neg hroom]
    cases checkedLayout w blocks with
    | error e => exact Or.inl ⟨_, rfl⟩
    | ok bytes =>
      cases Arena.new w alloc blocks with
      | error e => exact Or.inr (Or.inl ⟨_, rfl⟩)
      | ok a => exact Or.inr (Or.inr ⟨a, bytes, rfl, rfl, rfl⟩)

theorem takeOrNew_cases (blocks : ℕ) :
    (∃ a, ws.arena = some a ∧ blocks ≤ a.capacity ∧
      ws.takeOrNew wipeEnabled w alloc blocks = ⟨.ok (a.retarget blocks).2, ⟨none⟩, []⟩) ∨
    ws.takeOrNew wipeEnabled w alloc blocks =
      ⟨Arena.new w alloc blocks, ⟨none⟩, ws.dropParked wipeEnabled⟩ := by
  unfold takeOrNew dropParked
  cases ws.arena with
  | none => exact Or.inr rfl
  | some a =>
    change (∃ b, some a = some b ∧ _ ∧ (if a.capacity ≥ blocks then _ else _) = _) ∨
      (if a.capacity ≥ blocks then _ else _) = _
    by_cases hfits : a.capacity ≥ blocks
    · rw [if_pos hfits]
      exact Or.inl ⟨a, rfl, hfits, rfl⟩
    · rw [if_neg hfits]
      exact Or.inr rfl

variable {ws} in
theorem capacity_some {a : Arena} (h : ws.arena = some a) : ws.capacity = a.capacity := by
  unfold capacity
  rw [h]
  rfl

/-- A workspace that is too small frees what it parks before it allocates. -/
theorem takeOrNew_grows {blocks : ℕ} (hgrows : ws.capacity < blocks) :
    ws.takeOrNew wipeEnabled w alloc blocks =
      ⟨Arena.new w alloc blocks, ⟨none⟩, ws.dropParked wipeEnabled⟩ := by
  obtain ⟨a, hparked, hfits, -⟩ | h := ws.takeOrNew_cases wipeEnabled w alloc blocks
  · rw [capacity_some hparked] at hgrows
    exact absurd hfits (Nat.not_le.mpr hgrows)
  · exact h

theorem takeOrNew_fits {blocks : ℕ} (hpos : 0 < blocks) (hroom : blocks ≤ ws.capacity) :
    ∃ a, ws.arena = some a ∧ blocks ≤ a.capacity ∧
      ws.takeOrNew wipeEnabled w alloc blocks = ⟨.ok (a.retarget blocks).2, ⟨none⟩, []⟩ := by
  cases hparked : ws.arena with
  | none =>
    unfold capacity at hroom
    rw [hparked] at hroom
    exact absurd hpos (Nat.not_lt.mpr hroom)
  | some a =>
    rw [capacity_some hparked] at hroom
    refine ⟨a, rfl, hroom, ?_⟩
    unfold takeOrNew
    rw [hparked]
    exact if_pos hroom

theorem acquireOwned_cases (blocks : ℕ) :
    (∃ e, ws.acquireOwned wipeEnabled w alloc blocks = ⟨.error e, ws, []⟩) ∨
    ws.acquireOwned wipeEnabled w alloc blocks = ws.takeOrNew wipeEnabled w alloc blocks := by
  unfold acquireOwned
  by_cases hzero : blocks = 0
  · rw [if_pos hzero]
    exact Or.inl ⟨_, rfl⟩
  · rw [if_neg hzero]
    by_cases hgrows : ws.capacity < blocks
    · rw [if_pos hgrows]
      cases checkedLayout w blocks with
      | error e => exact Or.inl ⟨e, rfl⟩
      | ok bytes => exact Or.inr rfl
    · rw [if_neg hgrows]
      exact Or.inr rfl

theorem release_cases (a : Arena) :
    ws.release wipeEnabled a = ⟨(), ws, [(a.wipeVisible wipeEnabled).drop wipeEnabled]⟩ ∨
    ws.release wipeEnabled a =
      ⟨(), ⟨some (a.wipeVisible wipeEnabled)⟩, ws.dropParked wipeEnabled⟩ := by
  unfold release
  by_cases hkeep : (ws.arena.any fun parked =>
      parked.capacity ≥ (a.wipeVisible wipeEnabled).capacity) = true
  · simp only [hkeep, if_true]
    exact Or.inl trivial
  · simp only [hkeep]
    exact Or.inr rfl

end Workspace

def Workspace.Sound (wipeEnabled : Bool) (ws : Workspace) : Prop :=
  ∀ a, ws.arena = some a → Memory.Sound wipeEnabled a ∧ Clean wipeEnabled a

def FreedClean (wipeEnabled : Bool) (freed : List (Array Block)) : Prop :=
  wipeEnabled = true → ∀ memory ∈ freed, AllZero memory

section WorkspaceSteps
variable {wipeEnabled : Bool} (w : PointerWidth) (alloc : ℕ → Bool) {ws : Workspace}

theorem sound_none (wipeEnabled : Bool) : Workspace.Sound wipeEnabled ⟨none⟩ := nofun

theorem sound_some {a : Arena} (ha : Sound wipeEnabled a) (hclean : Clean wipeEnabled a) :
    Workspace.Sound wipeEnabled ⟨some a⟩ := by
  intro b hb
  cases hb
  exact ⟨ha, hclean⟩

theorem freedClean_nil (wipeEnabled : Bool) : FreedClean wipeEnabled [] :=
  fun _ _ h => absurd h List.not_mem_nil

theorem freedClean_drop {a : Arena} (ha : Sound wipeEnabled a) :
    FreedClean wipeEnabled [a.drop wipeEnabled] := by
  rintro rfl memory hmem
  rw [List.mem_singleton] at hmem
  rw [hmem]
  exact ha.drop

theorem Workspace.Sound.dropParked (hws : ws.Sound wipeEnabled) :
    FreedClean wipeEnabled (ws.dropParked wipeEnabled) := by
  unfold Workspace.dropParked
  cases hparked : ws.arena with
  | none => exact freedClean_nil wipeEnabled
  | some a => exact freedClean_drop (hws a hparked).1

theorem Workspace.Sound.reserve (hws : ws.Sound wipeEnabled) (blocks : ℕ) :
    (ws.reserve wipeEnabled w alloc blocks).workspace.Sound wipeEnabled ∧
      FreedClean wipeEnabled (ws.reserve wipeEnabled w alloc blocks).freed := by
  obtain ⟨r, h⟩ | ⟨e, h⟩ | ⟨a, bytes, -, hnew, h⟩ := ws.reserve_cases wipeEnabled w alloc blocks
  · rw [h]
    exact ⟨hws, freedClean_nil wipeEnabled⟩
  · rw [h]
    exact ⟨sound_none wipeEnabled, hws.dropParked⟩
  · rw [h]
    obtain ⟨ha, hclean, -⟩ := new_sound wipeEnabled hnew
    exact ⟨sound_some ha hclean, hws.dropParked⟩

/-- What an acquisition leaves parked, hands out and frees. -/
structure AcquireSound (wipeEnabled : Bool) (o : Outcome (Except Error Arena)) : Prop where
  parked : o.workspace.Sound wipeEnabled
  acquired : ∀ a, o.result = .ok a → Sound wipeEnabled a ∧ Clean wipeEnabled a
  freed : FreedClean wipeEnabled o.freed

theorem Workspace.Sound.takeOrNew (hws : ws.Sound wipeEnabled) (blocks : ℕ) :
    AcquireSound wipeEnabled (ws.takeOrNew wipeEnabled w alloc blocks) := by
  obtain ⟨a, hparked, -, h⟩ | h := ws.takeOrNew_cases wipeEnabled w alloc blocks
  · rw [h]
    obtain ⟨ha, hclean⟩ := hws a hparked
    refine ⟨sound_none wipeEnabled, ?_, freedClean_nil wipeEnabled⟩
    intro b hb
    cases hb
    exact ha.retarget hclean blocks
  · rw [h]
    refine ⟨sound_none wipeEnabled, ?_, hws.dropParked⟩
    intro a hnew
    obtain ⟨ha, hclean, -⟩ := new_sound wipeEnabled hnew
    exact ⟨ha, hclean⟩

theorem Workspace.Sound.acquireOwned (hws : ws.Sound wipeEnabled) (blocks : ℕ) :
    AcquireSound wipeEnabled (ws.acquireOwned wipeEnabled w alloc blocks) := by
  obtain ⟨e, h⟩ | h := ws.acquireOwned_cases wipeEnabled w alloc blocks
  · rw [h]
    exact ⟨hws, nofun, freedClean_nil wipeEnabled⟩
  · rw [h]
    exact hws.takeOrNew w alloc blocks

theorem Workspace.Sound.release (hws : ws.Sound wipeEnabled) {a : Arena}
    (ha : Memory.Sound wipeEnabled a) :
    (ws.release wipeEnabled a).workspace.Sound wipeEnabled ∧
      FreedClean wipeEnabled (ws.release wipeEnabled a).freed := by
  obtain ⟨hwiped, hclean⟩ := ha.wipeVisible
  obtain h | h := ws.release_cases wipeEnabled a
  · rw [h]
    exact ⟨hws, freedClean_drop hwiped⟩
  · rw [h]
    exact ⟨sound_some hwiped hclean, hws.dropParked⟩

end WorkspaceSteps

end Argon2Rust.Memory
