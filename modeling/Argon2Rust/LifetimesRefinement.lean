import Argon2Rust.Lifetimes

set_option autoImplicit false

namespace Argon2Rust.LifetimesRefinement
open Parameters Compression Hash Memory ArenaBacking Lifetimes

/-- The arenas of a world, by their places. -/
abbrev Model := Place → Option Memory.Arena

def forget (W : Lifetimes.World) : Model := fun p => (W.arenas p).map Placed.arena

namespace Model
variable (A : Model) (n : ℕ) (p : Place)

def workspace : Workspace := ⟨A (.parked n)⟩

def park {α : Type} (o : Outcome α) : Model := Function.update A (.parked n) o.workspace.arena

/-- What a workspace gives out goes to the place it was asked for. -/
def lend {α : Type} (arena : α → Memory.Arena) (o : Outcome (Except Error α)) : Model :=
  Function.update (A.park n o) p (o.result.map arena).toOption

def giveBack (release : Memory.Arena → Outcome Unit) : Model :=
  match A p with
  | none => A
  | some a => park (Function.update A p none) n (release a)

def onArena (f : Memory.Arena → Memory.Arena) : Model := Function.update A p ((A p).map f)

/-- What an action is in the arena model. -/
def step (wipeEnabled : Bool) (w : PointerWidth) (alloc : ℕ → Bool) (A : Model) :
    Lifetimes.Action → Model
  | .newArena slot blocks _ =>
    if (A (.owned slot)).isSome then A
    else Function.update A (.owned slot) (Memory.Arena.new w alloc blocks).toOption
  | .asMutSlice p stores => A.onArena p fun a => a.asMutSlice.store stores
  | .asMutPtr p stores => A.onArena p fun a => a.asMutPtr.store stores
  | .ensureZeroed p => A.onArena p Memory.Arena.ensureZeroed
  | .reserve n blocks _ => A.park n ((A.workspace n).reserve wipeEnabled w alloc blocks)
  | .acquire slot n blocks _ =>
    if (A (.onLoan slot n)).isSome then A
    else A.lend n (.onLoan slot n) ArenaGuard.arena
      ((A.workspace n).acquire wipeEnabled w alloc blocks)
  | .acquireOwned slot n blocks _ =>
    if (A (.owned slot)).isSome then A
    else A.lend n (.owned slot) id ((A.workspace n).acquireOwned wipeEnabled w alloc blocks)
  | .release slot n => A.giveBack n (.owned slot) ((A.workspace n).release wipeEnabled)
  | .dropGuard slot n =>
    A.giveBack n (.onLoan slot n) fun a => (A.workspace n).dropGuard wipeEnabled ⟨a⟩
  | .clear n => A.park n ((A.workspace n).clear wipeEnabled)
  | .dropArena slot => Function.update A (.owned slot) none

def run (wipeEnabled : Bool) (w : PointerWidth) (A : Model)
    (steps : List (Lifetimes.Action × Bool)) : Model :=
  steps.foldl (fun A x => A.step wipeEnabled w (fun _ => x.2) x.1) A

end Model

section Operations
variable {w : PointerWidth} {W W' : Lifetimes.World} {p : Place} {n blocks : ℕ}

theorem forget_update (arenas : Place → Option Placed) (events : List Lifetimes.Event) (p : Place)
    (x : Option Placed) : forget ⟨Function.update arenas p x, events⟩ =
      Function.update (forget ⟨arenas, events⟩) p (x.map Placed.arena) :=
  Function.comp_update (Option.map Placed.arena) arenas p x

theorem forget_none (h : W.arenas p = none) : forget W p = none := congrArg (Option.map _) h

theorem forget_some {a : Placed} (h : W.arenas p = some a) : forget W p = some a.arena :=
  congrArg (Option.map _) h

theorem forget_drop (W : Lifetimes.World) (p : Place) :
    forget (W.drop w p) = Function.update (forget W) p none := by
  have harenas := drop_arenas (w := w) W p
  unfold forget
  rw [harenas]
  exact forget_update W.arenas [] p none

theorem forget_onArena (W : Lifetimes.World) (p : Place) (f : Memory.Arena → Memory.Arena) :
    forget (W.onArena p f) = (forget W).onArena p f := by
  unfold Lifetimes.World.onArena Model.onArena
  cases hp : W.arenas p with
  | none =>
    rw [forget_none hp]
    exact (Function.update_eq_self_iff.mpr (forget_none hp).symm).symm
  | some a =>
    rw [forget_some hp]
    exact forget_update W.arenas W.events p _

theorem forget_move (W : Lifetimes.World) (p q : Place) : forget (W.move p q) =
    Function.update (Function.update (forget W) p none) q (forget W p) := by
  unfold Lifetimes.World.move
  rw [forget_update]
  exact congrArg (fun A => Function.update A q _) (forget_update W.arenas W.events p none)

theorem capacity_eq (W : Lifetimes.World) (n : ℕ) :
    W.capacity n = ((forget W).workspace n).capacity := by
  unfold Lifetimes.World.capacity Workspace.capacity Model.workspace forget
  rw [Option.map_map]
  rfl

variable {sys : Answers} (hk : ArenaBacking.Lawful w sys.kernel)
include hk

theorem forget_create {r : Except Error Unit} (hp : W.arenas p = none)
    (h : W.create w sys p blocks = some (r, W')) :
    ∃ served, r = (Memory.Arena.new w (fun _ => served) blocks).map (fun _ => ()) ∧
      forget W' = Function.update (forget W) p
        (Memory.Arena.new w (fun _ => served) blocks).toOption := by
  obtain ⟨result, made, served, hnew, hmodel⟩ :=
    new_arena hk sys.adviseHuge sys.allocZeroed blocks
  refine ⟨served, ?_⟩
  rw [← hmodel]
  unfold Lifetimes.World.create at h
  rw [hnew, Option.map_some, Option.some.injEq] at h
  cases result with
  | error e =>
    obtain ⟨rfl, rfl⟩ := Prod.mk.inj h
    exact ⟨rfl, (Function.update_eq_self_iff.mpr (forget_none hp).symm).symm⟩
  | ok a =>
    obtain ⟨rfl, rfl⟩ := Prod.mk.inj h
    exact ⟨rfl, forget_update W.arenas W.events p (some a)⟩

theorem forget_reserve (wipeEnabled : Bool) {r : Except Error Unit}
    (h : W.reserve w sys n blocks = some (r, W')) : ∃ served,
      let o := ((forget W).workspace n).reserve wipeEnabled w (fun _ => served) blocks
      r = o.result ∧ forget W' = (forget W).park n o := by
  have hself : Function.update (forget W) (.parked n) ((forget W).workspace n).arena = forget W :=
    Function.update_eq_self _ _
  unfold Lifetimes.World.reserve at h
  unfold Workspace.reserve Model.park
  rw [capacity_eq] at h
  by_cases hroom : blocks = 0 ∨ ((forget W).workspace n).capacity ≥ blocks
  · rw [if_pos hroom] at h
    cases h
    refine ⟨false, ?_⟩
    rw [if_pos hroom]
    exact ⟨rfl, hself.symm⟩
  · rw [if_neg hroom] at h
    cases hlayout : checkedLayout w blocks with
    | error e =>
      rw [hlayout] at h
      cases h
      refine ⟨false, ?_⟩
      rw [if_neg hroom]
      exact ⟨rfl, hself.symm⟩
    | ok bytes =>
      rw [hlayout] at h
      have hp : (W.drop w (.parked n)).arenas (.parked n) = none := by
        rw [drop_arenas, Function.update_self]
      obtain ⟨served, hr, hforget⟩ := forget_create hk hp h
      rw [forget_drop, Function.update_idem] at hforget
      refine ⟨served, ?_⟩
      rw [if_neg hroom, hr, hforget]
      dsimp only
      cases Memory.Arena.new w (fun _ => served) blocks <;> exact ⟨rfl, rfl⟩

theorem forget_takeOrNew (wipeEnabled : Bool) {r : Except Error Unit} (hne : p ≠ .parked n)
    (hp : W.arenas p = none) (h : W.takeOrNew w sys n p blocks = some (r, W')) : ∃ served,
      let o := ((forget W).workspace n).takeOrNew wipeEnabled w (fun _ => served) blocks
      r = o.result.map (fun _ => ()) ∧ forget W' = (forget W).lend n p id o := by
  have hid (x : Except Error Memory.Arena) : x.map id = x := by cases x <;> rfl
  unfold Lifetimes.World.takeOrNew at h
  unfold Workspace.takeOrNew Model.lend Model.park Model.workspace
  cases hparked : W.arenas (.parked n) with
  | none =>
    rw [hparked] at h
    obtain ⟨served, hr, hforget⟩ := forget_create hk hp h
    have hself : Function.update (forget W) (.parked n) none = forget W :=
      Function.update_eq_self_iff.mpr (forget_none hparked).symm
    refine ⟨served, ?_⟩
    rw [forget_none hparked]
    dsimp only
    rw [hid, hself]
    exact ⟨hr, hforget⟩
  | some a =>
    rw [hparked] at h
    dsimp only at h
    by_cases hfits : a.arena.capacity ≥ blocks
    · rw [if_pos hfits] at h
      cases h
      refine ⟨false, ?_⟩
      rw [forget_some hparked]
      dsimp only
      rw [if_pos hfits, forget_move, forget_onArena]
      unfold Model.onArena
      rw [forget_some hparked, Function.update_self, Function.update_idem]
      exact ⟨rfl, rfl⟩
    · rw [if_neg hfits] at h
      have hp' : (W.drop w (.parked n)).arenas p = none := by
        rw [drop_arenas, Function.update_of_ne hne, hp]
      obtain ⟨served, hr, hforget⟩ := forget_create hk hp' h
      rw [forget_drop] at hforget
      refine ⟨served, ?_⟩
      rw [forget_some hparked]
      dsimp only
      rw [if_neg hfits, hid]
      exact ⟨hr, hforget⟩

theorem forget_acquireOwned (wipeEnabled : Bool) {r : Except Error Unit} (hne : p ≠ .parked n)
    (hp : W.arenas p = none) (h : W.acquireOwned w sys n p blocks = some (r, W')) : ∃ served,
      let o := ((forget W).workspace n).acquireOwned wipeEnabled w (fun _ => served) blocks
      r = o.result.map (fun _ => ()) ∧ forget W' = (forget W).lend n p id o := by
  have hrejected (e : Error) : forget W = (forget W).lend n p id
      ⟨.error e, (forget W).workspace n, []⟩ := by
    have hself : Function.update (forget W) (.parked n) (forget W (.parked n)) = forget W :=
      Function.update_eq_self _ _
    unfold Model.lend Model.park Model.workspace
    dsimp only
    rw [hself]
    exact (Function.update_eq_self_iff.mpr (forget_none hp).symm).symm
  unfold Lifetimes.World.acquireOwned at h
  unfold Workspace.acquireOwned
  rw [capacity_eq] at h
  by_cases hzero : blocks = 0
  · rw [if_pos hzero] at h
    cases h
    refine ⟨false, ?_⟩
    rw [if_pos hzero]
    exact ⟨rfl, hrejected _⟩
  rw [if_neg hzero] at h
  simp only [if_neg hzero]
  by_cases hgrows : ((forget W).workspace n).capacity < blocks
  · rw [if_pos hgrows] at h
    simp only [if_pos hgrows]
    cases hlayout : checkedLayout w blocks with
    | error e =>
      rw [hlayout] at h
      cases h
      exact ⟨false, rfl, hrejected _⟩
    | ok bytes =>
      rw [hlayout] at h
      exact forget_takeOrNew hk wipeEnabled hne hp h
  · rw [if_neg hgrows] at h
    simp only [if_neg hgrows]
    exact forget_takeOrNew hk wipeEnabled hne hp h

omit hk in
theorem forget_release (wipeEnabled : Bool) (W : Lifetimes.World) (hne : p ≠ .parked n) :
    forget (W.release wipeEnabled w n p) =
      (forget W).giveBack n p (((forget W).workspace n).release wipeEnabled) := by
  unfold Lifetimes.World.release Model.giveBack
  dsimp only
  cases hp : W.arenas p with
  | none =>
    have hsame : W.onArena p (Memory.Arena.wipeVisible wipeEnabled) = W := by
      unfold Lifetimes.World.onArena
      rw [hp]
    rw [hsame, hp, forget_none hp]
  | some a =>
    have hforget := forget_onArena W p (Memory.Arena.wipeVisible wipeEnabled)
    have harenas : (W.onArena p (Memory.Arena.wipeVisible wipeEnabled)).arenas =
        Function.update W.arenas p (some { a with arena := a.arena.wipeVisible wipeEnabled }) := by
      unfold Lifetimes.World.onArena
      rw [hp]
    generalize W.onArena p (Memory.Arena.wipeVisible wipeEnabled) = V at hforget harenas ⊢
    unfold Model.onArena at hforget
    rw [forget_some hp, Option.map_some] at hforget
    rw [harenas, Function.update_self, Function.update_of_ne hne.symm, forget_some hp]
    unfold Workspace.release Model.park Model.workspace
    dsimp only
    have hany : ((forget W (.parked n)).any fun parked =>
        decide (parked.capacity ≥ (a.arena.wipeVisible wipeEnabled).capacity)) =
        (W.arenas (.parked n)).any fun parked =>
          decide (parked.arena.capacity ≥ (a.arena.wipeVisible wipeEnabled).capacity) := by
      unfold forget
      exact Option.any_map
    rw [hany]
    split
    · rw [forget_drop, hforget, Function.update_idem]
      refine (Function.update_eq_self_iff.mpr ?_).symm
      exact (Function.update_of_ne hne.symm none (forget W)).symm
    · rw [forget_move, forget_drop, hforget, Function.update_of_ne hne, Function.update_self,
        Function.update_comm hne.symm, Function.update_idem, Function.update_idem]

end Operations

section Steps
variable {wipeEnabled : Bool} {w : PointerWidth} {W W' : Lifetimes.World}

theorem forget_unlessUsed {A : Bool → Model} {p : Place}
    {r : Option (Except Error Unit × Lifetimes.World)} (h : W.unlessUsed p r = some W')
    (hr : W.arenas p = none → ∀ x, r = some (x, W') → ∃ served, forget W' = A served) :
    ∃ served, forget W' = if (forget W p).isSome then forget W else A served := by
  unfold Lifetimes.World.unlessUsed at h
  cases hp : W.arenas p with
  | some a =>
    rw [hp] at h
    cases h
    rw [forget_some hp]
    exact ⟨false, rfl⟩
  | none =>
    rw [hp] at h
    obtain ⟨⟨x, V⟩, hx, rfl⟩ := Option.map_eq_some_iff.mp h
    rw [forget_none hp]
    exact hr hp x hx

theorem lend_acquire (A : Model) (n : ℕ) (p : Place) (ws : Workspace) (alloc : ℕ → Bool)
    (blocks : ℕ) : A.lend n p ArenaGuard.arena (ws.acquire wipeEnabled w alloc blocks) =
      A.lend n p id (ws.acquireOwned wipeEnabled w alloc blocks) := by
  unfold Workspace.acquire Model.lend Model.park
  dsimp only
  cases (ws.acquireOwned wipeEnabled w alloc blocks).result <;> rfl

theorem forget_step (action : Lifetimes.Action)
    (hsys : ∀ sys, action.answers = some sys → ArenaBacking.Lawful w sys.kernel)
    (h : W.step wipeEnabled w action = some W') :
    ∃ served, forget W' = (forget W).step wipeEnabled w (fun _ => served) action := by
  cases action with
  | newArena slot blocks sys =>
    refine forget_unlessUsed h fun hp x hx => ?_
    obtain ⟨served, -, hforget⟩ := forget_create (hsys sys rfl) hp hx
    exact ⟨served, hforget⟩
  | asMutSlice p stores =>
    cases h
    exact ⟨false, forget_onArena W p _⟩
  | asMutPtr p stores =>
    cases h
    exact ⟨false, forget_onArena W p _⟩
  | ensureZeroed p =>
    cases h
    exact ⟨false, forget_onArena W p _⟩
  | reserve n blocks sys =>
    obtain ⟨⟨r, V⟩, hrun, rfl⟩ := Option.map_eq_some_iff.mp h
    obtain ⟨served, -, hforget⟩ := forget_reserve (hsys sys rfl) wipeEnabled hrun
    exact ⟨served, hforget⟩
  | acquire slot n blocks sys =>
    refine forget_unlessUsed h fun hp x hx => ?_
    have hne : Place.onLoan slot n ≠ .parked n := nofun
    obtain ⟨served, -, hforget⟩ := forget_acquireOwned (hsys sys rfl) wipeEnabled hne hp hx
    exact ⟨served, hforget.trans (lend_acquire _ _ _ _ _ _).symm⟩
  | acquireOwned slot n blocks sys =>
    refine forget_unlessUsed h fun hp x hx => ?_
    have hne : Place.owned slot ≠ .parked n := nofun
    obtain ⟨served, -, hforget⟩ := forget_acquireOwned (hsys sys rfl) wipeEnabled hne hp hx
    exact ⟨served, hforget⟩
  | release slot n =>
    cases h
    exact ⟨false, forget_release wipeEnabled W nofun⟩
  | dropGuard slot n =>
    cases h
    exact ⟨false, forget_release wipeEnabled W nofun⟩
  | clear n =>
    cases h
    exact ⟨false, forget_drop W _⟩
  | dropArena slot =>
    cases h
    exact ⟨false, forget_drop W _⟩

/-- Over any actions with any answers of the system, the arenas are those of the arena model
for some answers of its allocator. -/
theorem forget_run (W : Lifetimes.World) (actions : List Lifetimes.Action)
    (hsys : ∀ action ∈ actions, ∀ sys, action.answers = some sys →
      ArenaBacking.Lawful w sys.kernel) (h : W.run wipeEnabled w actions = some W') :
    ∃ answers : List Bool, answers.length = actions.length ∧
      forget W' = (forget W).run wipeEnabled w (actions.zip answers) := by
  induction actions generalizing W with
  | nil =>
    cases h
    exact ⟨[], rfl, rfl⟩
  | cons action actions ih =>
    rw [List.forall_mem_cons] at hsys
    obtain ⟨V, hV, hrest⟩ := Option.bind_eq_some_iff.mp h
    obtain ⟨served, hstep⟩ := forget_step action hsys.1 hV
    obtain ⟨answers, hlength, hrun⟩ := ih V hsys.2 hrest
    refine ⟨served :: answers, congrArg Nat.succ hlength, ?_⟩
    rw [hrun, hstep]
    rfl

end Steps

end Argon2Rust.LifetimesRefinement
