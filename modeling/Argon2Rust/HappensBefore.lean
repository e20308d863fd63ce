import Mathlib.Data.Set.Insert
import Mathlib.Tactic

set_option autoImplicit false

/-!
# What happens before what

Each thread has the set of facts that happen before its next action, and each
atomic location the set that an acquire load of it adds. A release store replaces
that set with the thread's own, a relaxed store with nothing, and an addition
continues the release sequence: it keeps the set and, if it is a release, adds to
it. A new thread starts with what its parent knows.
-/
namespace Argon2Rust.HappensBefore

/-- An action on the atomics, with its ordering. -/
inductive Op (Thread Loc : Type) where
  | none
  | loadRelaxed (loc : Loc)
  | loadAcquire (loc : Loc)
  | storeRelaxed (loc : Loc)
  | storeRelease (loc : Loc)
  | addRelaxed (loc : Loc)
  | addRelease (loc : Loc)
  | fork (child : Thread)

structure Knowledge (Thread Loc Fact : Type) where
  knows : Thread → Set Fact
  message : Loc → Set Fact

def Op.overwrites {Thread Loc : Type} (loc : Loc) : Op Thread Loc → Prop
  | .storeRelaxed l | .storeRelease l => l = loc
  | _ => False

section Actions
variable {Thread Loc Fact : Type} [DecidableEq Thread]

def Knowledge.start : Knowledge Thread Loc Fact := ⟨fun _ => ∅, fun _ => ∅⟩

def Knowledge.learn (x : Knowledge Thread Loc Fact) (t : Thread) (facts : Set Fact) :
    Knowledge Thread Loc Fact :=
  { x with knows := Function.update x.knows t (x.knows t ∪ facts) }

theorem learn_knows (x : Knowledge Thread Loc Fact) (t : Thread) (facts : Set Fact) :
    (x.learn t facts).knows t = x.knows t ∪ facts :=
  Function.update_self _ _ _

theorem learn_mono (x : Knowledge Thread Loc Fact) (t : Thread) (facts : Set Fact) (u : Thread) :
    x.knows u ⊆ (x.learn t facts).knows u := by
  by_cases h : u = t
  · subst h
    rw [learn_knows]
    exact Set.subset_union_left
  · exact (Function.update_of_ne h _ _).ge

variable [DecidableEq Loc]

def Knowledge.publish (x : Knowledge Thread Loc Fact) (loc : Loc) (facts : Set Fact) :
    Knowledge Thread Loc Fact :=
  { x with message := Function.update x.message loc facts }

def Knowledge.perform (x : Knowledge Thread Loc Fact) (t : Thread) :
    Op Thread Loc → Knowledge Thread Loc Fact
  | .none | .loadRelaxed _ | .addRelaxed _ => x
  | .loadAcquire loc => x.learn t (x.message loc)
  | .storeRelaxed loc => x.publish loc ∅
  | .storeRelease loc => x.publish loc (x.knows t)
  | .addRelease loc => x.publish loc (x.message loc ∪ x.knows t)
  | .fork child => x.learn child (x.knows t)

variable (x : Knowledge Thread Loc Fact) (t : Thread)

theorem perform_knows (op : Op Thread Loc) (u : Thread) :
    x.knows u ⊆ (x.perform t op).knows u := by
  cases op with
  | loadAcquire loc => exact learn_mono x t _ u
  | fork child => exact learn_mono x child _ u
  | _ => exact subset_rfl

theorem loadAcquire_knows (loc : Loc) :
    x.message loc ⊆ (x.perform t (.loadAcquire loc)).knows t := by
  change _ ⊆ (x.learn t _).knows t
  rw [learn_knows]
  exact Set.subset_union_right

theorem storeRelease_message (loc : Loc) :
    (x.perform t (.storeRelease loc)).message loc = x.knows t :=
  Function.update_self _ _ _

theorem addRelease_message (loc : Loc) :
    (x.perform t (.addRelease loc)).message loc = x.message loc ∪ x.knows t :=
  Function.update_self _ _ _

/-- Only a store takes facts away from a location. -/
theorem perform_message {op : Op Thread Loc} {loc : Loc} (h : ¬ op.overwrites loc) :
    x.message loc ⊆ (x.perform t op).message loc := by
  cases op with
  | storeRelaxed l => exact (Function.update_of_ne (fun he => h he.symm) _ _).ge
  | storeRelease l => exact (Function.update_of_ne (fun he => h he.symm) _ _).ge
  | addRelease l =>
    by_cases he : loc = l
    · subst he
      rw [addRelease_message]
      exact Set.subset_union_left
    · exact (Function.update_of_ne he _ _).ge
  | _ => exact subset_rfl

end Actions

end Argon2Rust.HappensBefore
