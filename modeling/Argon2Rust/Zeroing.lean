import Argon2Rust.Memory

set_option autoImplicit false

namespace Argon2Rust.Zeroing
open Parameters Compression Memory

/-- An arena in a caller's hands: owned outright, or on loan from a workspace. -/
inductive Held where
  | owned (arena : Arena)
  | guard (workspace : ℕ) (guard : ArenaGuard)

def Held.arena : Held → Arena
  | .owned a => a
  | .guard _ g => g.arena

def Held.set (a : Arena) : Held → Held
  | .owned _ => .owned a
  | .guard n _ => .guard n ⟨a⟩

structure World where
  workspaces : ℕ → Workspace
  held : ℕ → Option Held
  acquired : List (Array Block)
  freed : List (Array Block)

def World.init : World := ⟨fun _ => Workspace.new, fun _ => none, [], []⟩

/-- A call names the slot it works on, and brings the answers of its allocator. -/
inductive Action where
  | newArena (slot blocks : ℕ) (alloc : ℕ → Bool)
  | asMutSlice (slot : ℕ) (stores : List (ℕ × Block))
  | asMutPtr (slot : ℕ) (stores : List (ℕ × Block))
  | ensureZeroed (slot : ℕ)
  | reserve (workspace blocks : ℕ) (alloc : ℕ → Bool)
  | acquire (slot workspace blocks : ℕ) (alloc : ℕ → Bool)
  | acquireOwned (slot workspace blocks : ℕ) (alloc : ℕ → Bool)
  | release (slot workspace : ℕ)
  | dropGuard (slot : ℕ)
  | clear (workspace : ℕ)
  | dropArena (slot : ℕ)

namespace World
variable (wipeEnabled : Bool) (w : PointerWidth)

def place (W : World) (slot : ℕ) (held : Option Held) : World :=
  { W with held := Function.update W.held slot held }

def park (W : World) (n : ℕ) {α : Type} (o : Outcome α) : World :=
  { W with workspaces := Function.update W.workspaces n o.workspace, freed := W.freed ++ o.freed }

def take (W : World) (slot : ℕ) : Except Error Held → World
  | .error _ => W
  | .ok held => { W.place slot (some held) with acquired := W.acquired ++ [held.arena.memory] }

def onArena (W : World) (slot : ℕ) (f : Arena → Arena) : World :=
  match W.held slot with
  | none => W
  | some held => W.place slot (some (held.set (f held.arena)))

/-- Writes behind the visible window are not reachable from safe code. -/
def writeThrough (access : Arena → Arena) (stores : List (ℕ × Block)) (a : Arena) : Arena :=
  if stores.all fun s => s.1 < a.blocks then (access a).store stores else a

def step (W : World) : Action → World
  | .newArena slot blocks alloc =>
    if (W.held slot).isSome then W
    else match Arena.new w alloc blocks with
      | .error _ => W
      | .ok a => W.place slot (some (.owned a))
  | .asMutSlice slot stores => W.onArena slot (writeThrough Arena.asMutSlice stores)
  | .asMutPtr slot stores => W.onArena slot (writeThrough Arena.asMutPtr stores)
  | .ensureZeroed slot => W.onArena slot Arena.ensureZeroed
  | .reserve n blocks alloc => W.park n ((W.workspaces n).reserve wipeEnabled w alloc blocks)
  | .acquire slot n blocks alloc =>
    if (W.held slot).isSome then W
    else
      let o := (W.workspaces n).acquire wipeEnabled w alloc blocks
      (W.park n o).take slot (o.result.map (.guard n))
  | .acquireOwned slot n blocks alloc =>
    if (W.held slot).isSome then W
    else
      let o := (W.workspaces n).acquireOwned wipeEnabled w alloc blocks
      (W.park n o).take slot (o.result.map .owned)
  | .release slot n =>
    match W.held slot with
    | some (.owned a) => (W.park n ((W.workspaces n).release wipeEnabled a)).place slot none
    | _ => W
  | .dropGuard slot =>
    match W.held slot with
    | some (.guard n g) => (W.park n ((W.workspaces n).dropGuard wipeEnabled g)).place slot none
    | _ => W
  | .clear n => W.park n ((W.workspaces n).clear wipeEnabled)
  | .dropArena slot =>
    match W.held slot with
    | some (.owned a) => { W.place slot none with freed := W.freed ++ [a.drop wipeEnabled] }
    | _ => W

def run (W : World) (actions : List Action) : World := actions.foldl (step wipeEnabled w) W

end World

/-- The invariant of all arenas, parked and held, and of the two logs. -/
structure Inv (wipeEnabled : Bool) (W : World) : Prop where
  parked : ∀ n, (W.workspaces n).Sound wipeEnabled
  held : ∀ slot held, W.held slot = some held → Sound wipeEnabled held.arena
  acquired : FreedClean wipeEnabled W.acquired
  freed : FreedClean wipeEnabled W.freed

section Steps
variable {wipeEnabled : Bool} {w : PointerWidth} {W : World}

theorem inv_init (wipeEnabled : Bool) : Inv wipeEnabled World.init :=
  ⟨fun _ => sound_none wipeEnabled, nofun, freedClean_nil wipeEnabled, freedClean_nil wipeEnabled⟩

theorem freedClean_append {xs ys : List (Array Block)} (hxs : FreedClean wipeEnabled xs)
    (hys : FreedClean wipeEnabled ys) : FreedClean wipeEnabled (xs ++ ys) := by
  intro hwipe memory hmem
  rcases List.mem_append.mp hmem with h | h
  · exact hxs hwipe memory h
  · exact hys hwipe memory h

theorem Inv.place (hW : Inv wipeEnabled W) (slot : ℕ) (held : Option Held)
    (hheld : ∀ x, held = some x → Sound wipeEnabled x.arena) : Inv wipeEnabled (W.place slot held) := by
  refine ⟨hW.parked, ?_, hW.acquired, hW.freed⟩
  intro i x hx
  change Function.update W.held slot held i = some x at hx
  by_cases hi : i = slot
  · subst hi
    rw [Function.update_self] at hx
    exact hheld x hx
  · rw [Function.update_of_ne hi] at hx
    exact hW.held i x hx

theorem Inv.park (hW : Inv wipeEnabled W) (n : ℕ) {α : Type} (o : Outcome α)
    (hparked : o.workspace.Sound wipeEnabled) (hfreed : FreedClean wipeEnabled o.freed) :
    Inv wipeEnabled (W.park n o) := by
  refine ⟨?_, hW.held, hW.acquired, freedClean_append hW.freed hfreed⟩
  intro k
  change (Function.update W.workspaces n o.workspace k).Sound wipeEnabled
  by_cases hk : k = n
  · subst hk
    rw [Function.update_self]
    exact hparked
  · rw [Function.update_of_ne hk]
    exact hW.parked k

theorem Inv.take (hW : Inv wipeEnabled W) (slot : ℕ) (r : Except Error Held)
    (hr : ∀ x, r = .ok x → Sound wipeEnabled x.arena ∧ Clean wipeEnabled x.arena) :
    Inv wipeEnabled (W.take slot r) := by
  cases r with
  | error e => exact hW
  | ok x =>
    obtain ⟨hsound, hclean⟩ := hr x rfl
    have hplaced := hW.place slot (some x) (by
      intro y hy
      cases hy
      exact hsound)
    refine ⟨hplaced.parked, hplaced.held, freedClean_append hW.acquired ?_, hplaced.freed⟩
    intro hwipe memory hmem
    rw [List.mem_singleton] at hmem
    rw [hmem]
    exact hclean hwipe

theorem Inv.onArena (hW : Inv wipeEnabled W) (slot : ℕ) (f : Arena → Arena)
    (hf : ∀ a, Sound wipeEnabled a → Sound wipeEnabled (f a)) :
    Inv wipeEnabled (W.onArena slot f) := by
  unfold World.onArena
  cases hslot : W.held slot with
  | none => exact hW
  | some x =>
    apply hW.place
    intro y hy
    cases hy
    have hx := hf x.arena (hW.held slot x hslot)
    cases x with
    | owned a => exact hx
    | guard n g => exact hx

theorem writeThrough_sound {access : Arena → Arena} (stores : List (ℕ × Block)) (a : Arena)
    (ha : Sound wipeEnabled a) (haccess : Sound wipeEnabled (access a))
    (hflag : (access a).zeroed = false) (hblocks : (access a).blocks = a.blocks) :
    Sound wipeEnabled (World.writeThrough access stores a) := by
  unfold World.writeThrough
  by_cases hall : (stores.all fun s => s.1 < a.blocks) = true
  · rw [if_pos hall]
    apply haccess.store hflag
    intro s hs
    rw [hblocks]
    exact of_decide_eq_true (List.all_eq_true.mp hall s hs)
  · rw [if_neg hall]
    exact ha

theorem Inv.unlessHeld (hW : Inv wipeEnabled W) (slot : ℕ) {W' : World}
    (hW' : Inv wipeEnabled W') :
    Inv wipeEnabled (if (W.held slot).isSome then W else W') := by
  by_cases hslot : (W.held slot).isSome = true
  · rw [if_pos hslot]
    exact hW
  · rw [if_neg hslot]
    exact hW'

theorem Inv.step (hW : Inv wipeEnabled W) (action : Action) :
    Inv wipeEnabled (W.step wipeEnabled w action) := by
  cases action with
  | newArena slot blocks alloc =>
    apply hW.unlessHeld
    cases hnew : Arena.new w alloc blocks with
    | error e => exact hW
    | ok a =>
      apply hW.place
      intro x hx
      cases hx
      exact (new_sound wipeEnabled hnew).1
  | asMutSlice slot stores =>
    exact hW.onArena slot _ fun a ha => writeThrough_sound stores a ha ha.asMutSlice rfl rfl
  | asMutPtr slot stores =>
    exact hW.onArena slot _ fun a ha => writeThrough_sound stores a ha ha.asMutPtr rfl rfl
  | ensureZeroed slot => exact hW.onArena slot _ fun a ha => ha.ensureZeroed
  | reserve n blocks alloc =>
    obtain ⟨hparked, hfreed⟩ := (hW.parked n).reserve w alloc blocks
    exact hW.park n _ hparked hfreed
  | acquire slot n blocks alloc =>
    apply hW.unlessHeld
    have ho := (hW.parked n).acquireOwned w alloc blocks
    apply (hW.park n _ ho.parked ho.freed).take
    intro x hx
    obtain ⟨g, hg, rfl⟩ := map_ok _ hx
    obtain ⟨a, ha, rfl⟩ := map_ok _ hg
    exact ho.acquired a ha
  | acquireOwned slot n blocks alloc =>
    apply hW.unlessHeld
    have ho := (hW.parked n).acquireOwned w alloc blocks
    apply (hW.park n _ ho.parked ho.freed).take
    intro x hx
    obtain ⟨a, ha, rfl⟩ := map_ok _ hx
    exact ho.acquired a ha
  | release slot n =>
    change Inv wipeEnabled (match W.held slot with
      | some (.owned a) => (W.park n ((W.workspaces n).release wipeEnabled a)).place slot none
      | _ => W)
    rcases hslot : W.held slot with _ | ⟨a | ⟨m, g⟩⟩
    · exact hW
    · obtain ⟨hparked, hfreed⟩ := (hW.parked n).release (hW.held slot _ hslot)
      exact (hW.park n _ hparked hfreed).place slot none nofun
    · exact hW
  | dropGuard slot =>
    change Inv wipeEnabled (match W.held slot with
      | some (.guard n g) => (W.park n ((W.workspaces n).dropGuard wipeEnabled g)).place slot none
      | _ => W)
    rcases hslot : W.held slot with _ | ⟨a | ⟨m, g⟩⟩
    · exact hW
    · exact hW
    · obtain ⟨hparked, hfreed⟩ := (hW.parked m).release (hW.held slot _ hslot)
      exact (hW.park m _ hparked hfreed).place slot none nofun
  | clear n => exact hW.park n _ (sound_none wipeEnabled) (hW.parked n).dropParked
  | dropArena slot =>
    change Inv wipeEnabled (match W.held slot with
      | some (.owned a) => { W.place slot none with freed := W.freed ++ [a.drop wipeEnabled] }
      | _ => W)
    rcases hslot : W.held slot with _ | ⟨a | ⟨m, g⟩⟩
    · exact hW
    · have hplaced := hW.place slot none nofun
      exact ⟨hplaced.parked, hplaced.held, hplaced.acquired,
        freedClean_append hW.freed (freedClean_drop (hW.held slot _ hslot))⟩
    · exact hW

theorem Inv.run (hW : Inv wipeEnabled W) (actions : List Action) :
    Inv wipeEnabled (W.run wipeEnabled w actions) := by
  induction actions generalizing W with
  | nil => exact hW
  | cons action actions ih => exact ih (hW.step action)

end Steps

/-- The arenas of a world: the parked ones and those in a caller's hands. -/
def World.Has (W : World) (a : Arena) : Prop :=
  (∃ n, (W.workspaces n).arena = some a) ∨ ∃ slot held, W.held slot = some held ∧ held.arena = a

theorem Inv.sound {wipeEnabled : Bool} {W : World} (hW : Inv wipeEnabled W) (a : Arena)
    (ha : W.Has a) : Sound wipeEnabled a := by
  rcases ha with ⟨n, hparked⟩ | ⟨slot, held, hslot, rfl⟩
  · exact (hW.parked n a hparked).1
  · exact hW.held slot held hslot

/-- After any actions: the length and the flag are true of every arena, and with the wipe
compiled in nothing of a borrower is parked, handed out again or handed back. -/
theorem zeroing_invariants (wipeEnabled : Bool) (w : PointerWidth) (actions : List Action) :
    let W := World.init.run wipeEnabled w actions
    (∀ a, W.Has a → a.blocks ≤ a.capacity ∧ (a.zeroed = true → AllZero a.memory)) ∧
      (wipeEnabled = true →
        (∀ a, W.Has a → ∀ i, a.blocks ≤ i → ∀ h : i < a.memory.size,
          a.memory[i] = Block.zero) ∧
        (∀ n a, (W.workspaces n).arena = some a → AllZero a.memory) ∧
        (∀ memory ∈ W.acquired, AllZero memory) ∧
        ∀ memory ∈ W.freed, AllZero memory) := by
  intro W
  have hW : Inv wipeEnabled W := (inv_init wipeEnabled).run actions
  refine ⟨?_, ?_⟩
  · intro a ha
    have hsound := hW.sound a ha
    exact ⟨hsound.blocks_le, hsound.known⟩
  · intro hwipe
    refine ⟨?_, ?_, hW.acquired hwipe, hW.freed hwipe⟩
    · intro a ha
      exact (hW.sound a ha).behind hwipe
    · intro n a ha
      exact (hW.parked n a ha).2 hwipe

end Argon2Rust.Zeroing
