import Mathlib.Tactic

set_option autoImplicit false

/-!
# Interleavings of actors over a shared store

Every actor owns a local state and steps on it together with a shared store. If
the steps of different actors commute, as long as an invariant of the local
states holds, then the shared store after an interleaving depends only on how
many steps each actor takes.
-/
namespace Argon2Rust.Interleaving

structure World (Actor Local Shared : Type) where
  locals : Actor → Local
  shared : Shared

variable {Actor Local Shared : Type} [DecidableEq Actor]

def World.step (f : Actor → Local × Shared → Local × Shared) (x : World Actor Local Shared)
    (a : Actor) : World Actor Local Shared :=
  let r := f a (x.locals a, x.shared)
  ⟨Function.update x.locals a r.1, r.2⟩

def World.run (f : Actor → Local × Shared → Local × Shared) (x : World Actor Local Shared)
    (order : List Actor) : World Actor Local Shared :=
  order.foldl (World.step f) x

/-- Pairwise commuting steps, under an invariant of the local states that steps keep. -/
structure Commuting (f : Actor → Local × Shared → Local × Shared) (Inv : Actor → Local → Prop) :
    Prop where
  kept : ∀ a l sh, Inv a l → Inv a (f a (l, sh)).1
  local_eq : ∀ a b, a ≠ b → ∀ la lb sh, Inv a la → Inv b lb →
    (f a (la, (f b (lb, sh)).2)).1 = (f a (la, sh)).1
  shared_eq : ∀ a b, a ≠ b → ∀ la lb sh, Inv a la → Inv b lb →
    (f a (la, (f b (lb, sh)).2)).2 = (f b (lb, (f a (la, sh)).2)).2

theorem count_flatMap_replicate (n : Actor → ℕ) (actors : List Actor) (hnd : actors.Nodup)
    (a : Actor) (ha : a ∈ actors) :
    (actors.flatMap fun b => List.replicate (n b) b).count a = n a := by
  induction actors with
  | nil => cases ha
  | cons b actors ih =>
    obtain ⟨hb, hnd'⟩ := List.nodup_cons.mp hnd
    rw [List.flatMap_cons, List.count_append, List.count_replicate]
    rcases List.mem_cons.mp ha with rfl | ha'
    · have hz : (actors.flatMap fun b => List.replicate (n b) b).count a = 0 := by
        refine List.count_eq_zero.mpr fun hm => ?_
        obtain ⟨c, hc, hac⟩ := List.mem_flatMap.mp hm
        exact hb ((List.eq_of_mem_replicate hac) ▸ hc)
      rw [if_pos (beq_self_eq_true a), hz, Nat.add_zero]
    · have hne : ¬ (b == a) = true := fun h => hb ((beq_iff_eq.mp h) ▸ ha')
      rw [if_neg hne, ih hnd' ha', Nat.zero_add]

section Runs
variable (f : Actor → Local × Shared → Local × Shared)

theorem run_append (x : World Actor Local Shared) (ps qs : List Actor) :
    x.run f (ps ++ qs) = (x.run f ps).run f qs :=
  List.foldl_append

theorem run_concat (x : World Actor Local Shared) (order : List Actor) (a : Actor) :
    x.run f (order ++ [a]) = (x.run f order).step f a :=
  run_append f x order [a]

theorem step_self (x : World Actor Local Shared) (a : Actor) :
    (x.step f a).locals a = (f a (x.locals a, x.shared)).1 := Function.update_self ..

theorem step_other (x : World Actor Local Shared) {a b : Actor} (h : b ≠ a) :
    (x.step f a).locals b = x.locals b := Function.update_of_ne h ..

theorem locals_of_count_zero (x : World Actor Local Shared) (order : List Actor) (a : Actor)
    (h : order.count a = 0) : (x.run f order).locals a = x.locals a := by
  induction order generalizing x with
  | nil => rfl
  | cons b order ih =>
    rw [List.count_eq_zero, List.mem_cons, not_or] at h
    exact (ih (x.step f b) (List.count_eq_zero.mpr h.2)).trans (step_other f x h.1)

theorem run_replicate (n : ℕ) (a : Actor) (x : World Actor Local Shared) :
    x.run f (List.replicate n a) =
      ⟨Function.update x.locals a ((f a)^[n] (x.locals a, x.shared)).1,
        ((f a)^[n] (x.locals a, x.shared)).2⟩ := by
  induction n generalizing x with
  | zero =>
    change x = _
    rw [Function.iterate_zero, id_eq, Function.update_eq_self]
  | succ n ih =>
    change (x.step f a).run f (List.replicate n a) = _
    rw [ih, Function.iterate_succ_apply]
    simp only [World.step, Function.update_self, Function.update_idem]

theorem run_flatMap_replicate (n : Actor → ℕ) (actors : List Actor) (hnd : actors.Nodup)
    (x : World Actor Local Shared) :
    (x.run f (actors.flatMap fun a => List.replicate (n a) a)).shared =
      actors.foldl (fun sh a => ((f a)^[n a] (x.locals a, sh)).2) x.shared := by
  induction actors generalizing x with
  | nil => rfl
  | cons a actors ih =>
    obtain ⟨ha, hnd'⟩ := List.nodup_cons.mp hnd
    rw [List.flatMap_cons, run_append, run_replicate, ih hnd', List.foldl_cons]
    refine List.foldl_ext _ _ _ fun sh b hb => ?_
    have hne : b ≠ a := fun h => ha (h ▸ hb)
    dsimp only
    rw [Function.update_of_ne hne]

variable {f} {Inv : Actor → Local → Prop} (hc : Commuting f Inv)
include hc

theorem step_inv (x : World Actor Local Shared) (a : Actor) (hx : ∀ b, Inv b (x.locals b)) :
    ∀ b, Inv b ((x.step f a).locals b) := by
  intro b
  by_cases h : b = a
  · subst h
    change Inv b (Function.update x.locals b _ b)
    rw [Function.update_self]
    exact hc.kept _ _ _ (hx _)
  · change Inv b (Function.update x.locals a _ b)
    rw [Function.update_of_ne h]
    exact hx b

theorem step_comm (x : World Actor Local Shared) (a b : Actor) (hx : ∀ c, Inv c (x.locals c)) :
    (x.step f a).step f b = (x.step f b).step f a := by
  by_cases h : a = b
  · rw [h]
  · have hab : Function.update x.locals a (f a (x.locals a, x.shared)).1 b = x.locals b :=
      Function.update_of_ne (Ne.symm h) _ _
    have hba : Function.update x.locals b (f b (x.locals b, x.shared)).1 a = x.locals a :=
      Function.update_of_ne h _ _
    simp only [World.step, hab, hba, World.mk.injEq]
    rw [hc.local_eq b a (Ne.symm h) _ _ _ (hx b) (hx a), hc.local_eq a b h _ _ _ (hx a) (hx b)]
    exact ⟨Function.update_comm h _ _ _, hc.shared_eq b a (Ne.symm h) _ _ _ (hx b) (hx a)⟩

theorem run_perm {ps qs : List Actor} (hp : ps.Perm qs) (x : World Actor Local Shared)
    (hx : ∀ a, Inv a (x.locals a)) : x.run f ps = x.run f qs := by
  induction hp generalizing x with
  | nil => rfl
  | cons a _ ih => exact ih (x.step f a) (step_inv hc x a hx)
  | swap a b ps =>
    change ((x.step f b).step f a).run f ps = ((x.step f a).step f b).run f ps
    rw [step_comm hc x a b hx]
  | trans _ _ ih₁ ih₂ => exact (ih₁ x hx).trans (ih₂ x hx)

/-- Any interleaving that gives every actor its number of steps leaves the shared
store that the actors leave when they run one after another. -/
theorem run_shared_of_count (n : Actor → ℕ) (actors : List Actor) (hnd : actors.Nodup)
    (hall : ∀ a, a ∈ actors) (order : List Actor) (hcount : ∀ a, order.count a = n a)
    (x : World Actor Local Shared) (hx : ∀ a, Inv a (x.locals a)) :
    (x.run f order).shared =
      actors.foldl (fun sh a => ((f a)^[n a] (x.locals a, sh)).2) x.shared := by
  have hp : order.Perm (actors.flatMap fun a => List.replicate (n a) a) := by
    rw [List.perm_iff_count]
    intro a
    rw [hcount, count_flatMap_replicate n actors hnd a (hall a)]
  rw [run_perm hc hp x hx]
  exact run_flatMap_replicate f n actors hnd x

end Runs

end Argon2Rust.Interleaving
