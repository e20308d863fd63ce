import Argon2Rust.PoolEffects
import Argon2Rust.SegmentLoops

set_option autoImplicit false

/-!
# The pool and the memory it fills

The pool of `fill_pooled` together with the arena and with the variables of every
call of `fill_segment` that is going on, for the loop of any backend. One step is
an access of the pool, the set-up of a call, or one block of a call. However the
workers interleave, the arena is what the lanes of the current slice, each run for
some number of blocks, make of the arena that the slices before it leave.
-/
namespace Argon2Rust.PoolMemory
open Parameters Compression IndexAlpha Segment ReferenceWindow Fill Interleaving Pool SegmentLoops

def slicePosition (k : ℕ) (lane : UInt32) : Position :=
  ⟨UInt32.ofNat (k / 4), lane, UInt32.ofNat (k % 4), 0⟩

structure System (loop : SegmentLoop) (inst : Instance) where
  pool : State inst
  arena : Arena
  /-- The variables of each call of `fill_segment` that has set them up. -/
  calls : Worker inst → Option loop.Variables

section Steps
variable {loop : SegmentLoop} {inst : Instance}

def System.start (arena : Arena) : System loop inst := ⟨State.start inst, arena, fun _ => none⟩

def System.setUp (s : System loop inst) (worker : Worker inst) (pos : Position) :
    System loop inst :=
  { s with calls :=
      Function.update s.calls worker (some (loop.start inst pos s.arena)) }

def System.block (s : System loop inst) (worker : Worker inst) (pos : Position)
    (v : loop.Variables) : System loop inst :=
  let r := loop.blockStep inst pos (v, s.arena)
  { s with arena := r.2, calls := Function.update s.calls worker (some r.1) }

def System.access (traced : Bool) (worker : Worker inst) (ok : Bool) (s : System loop inst) :
    Option (System loop inst) :=
  (s.pool.step traced worker ok).map fun pool =>
    { s with pool := pool, calls := Function.update s.calls worker none }

/-- The next step of a worker. A call of `fill_segment` sets up its variables, makes its blocks
and then returns; with `ok` false it unwinds instead, at any point. -/
def System.step (traced : Bool) (worker : Worker inst) (ok : Bool) (s : System loop inst) :
    Option (System loop inst) :=
  match s.pool.filling worker, ok with
  | some (k, lane), true =>
    match s.calls worker with
    | none => some (s.setUp worker (slicePosition k lane))
    | some v =>
      if (loop.cursor v).i < inst.segmentLength then
        some (s.block worker (slicePosition k lane) v)
      else s.access traced worker true
  | _, _ => s.access traced worker ok

inductive System.Reachable (traced : Bool) (arena : Arena) : System loop inst → Prop
  | start : System.Reachable traced arena (System.start arena)
  | step {s s' : System loop inst} (worker : Worker inst) (ok : Bool) :
      System.Reachable traced arena s → s.step traced worker ok = some s' →
      System.Reachable traced arena s'

/-- The call of `fill_segment` is at its end, or there is none. -/
def System.CallDone (s : System loop inst) (worker : Worker inst) : Prop :=
  ∀ k lane, s.pool.filling worker = some (k, lane) →
    ∃ v, s.calls worker = some v ∧ ¬ (loop.cursor v).i < inst.segmentLength

theorem System.step_cases {traced ok : Bool} {worker : Worker inst} {s s' : System loop inst}
    (h : s.step traced worker ok = some s') :
    (∃ k lane, s.pool.filling worker = some (k, lane) ∧ s.calls worker = none ∧
      s' = s.setUp worker (slicePosition k lane)) ∨
    (∃ k lane v, s.pool.filling worker = some (k, lane) ∧ s.calls worker = some v ∧
      (loop.cursor v).i < inst.segmentLength ∧ s' = s.block worker (slicePosition k lane) v) ∨
    ∃ pool, s.pool.step traced worker ok = some pool ∧ (ok = true → s.CallDone worker) ∧
      s' = ⟨pool, s.arena, Function.update s.calls worker none⟩ := by
  have haccess : s.access traced worker ok = some s' → (ok = true → s.CallDone worker) →
      ∃ pool, s.pool.step traced worker ok = some pool ∧ (ok = true → s.CallDone worker) ∧
        s' = ⟨pool, s.arena, Function.update s.calls worker none⟩ := by
    intro ha hdone
    obtain ⟨pool, hpool, rfl⟩ := Option.map_eq_some_iff.mp ha
    exact ⟨pool, hpool, hdone, rfl⟩
  unfold System.step at h
  cases hcall : s.pool.filling worker with
  | none =>
    rw [hcall] at h
    exact Or.inr (Or.inr (haccess h fun _ k lane hk => absurd (hcall.symm.trans hk) nofun))
  | some call =>
    obtain ⟨k, lane⟩ := call
    rw [hcall] at h
    cases ok with
    | false => exact Or.inr (Or.inr (haccess h nofun))
    | true =>
      cases hv : s.calls worker with
      | none =>
        rw [hv] at h
        exact Or.inl ⟨k, lane, rfl, rfl, (Option.some.inj h).symm⟩
      | some v =>
        rw [hv] at h
        dsimp only at h
        by_cases hactive : (loop.cursor v).i < inst.segmentLength
        · rw [if_pos hactive] at h
          exact Or.inr (Or.inl ⟨k, lane, v, rfl, rfl, hactive, (Option.some.inj h).symm⟩)
        · rw [if_neg hactive] at h
          exact Or.inr (Or.inr (haccess h fun _ _ _ _ => ⟨v, hv, hactive⟩))

/-- Without the memory the system is the pool. -/
theorem System.Reachable.pool {traced : Bool} {arena : Arena} {s : System loop inst}
    (h : s.Reachable traced arena) : Pool.Reachable traced s.pool := by
  induction h with
  | start => exact .start
  | step worker ok _ hstep ih =>
    rcases System.step_cases hstep with ⟨k, lane, -, -, rfl⟩ | ⟨k, lane, v, -, -, -, rfl⟩ |
      ⟨pool, hpool, -, rfl⟩
    · exact ih
    · exact ih
    · exact ih.step worker ok hpool

end Steps

section Slices
variable (inst : Instance) (arena : Arena)

def slicesDone (K : ℕ) : Arena :=
  (List.range K).foldl (fun arena k =>
    fillSliceSt inst (UInt32.ofNat (k / 4)) (UInt32.ofNat (k % 4)) arena) arena

/-- The arena after the first `r` passes of the sequential fill. -/
def passesDone (r : ℕ) : Arena :=
  (List.range r).foldl (fun arena pass => fillPass inst (UInt32.ofNat pass) arena) arena

theorem slicesDone_succ (K : ℕ) : slicesDone inst arena (K + 1) =
    fillSliceSt inst (UInt32.ofNat (K / 4)) (UInt32.ofNat (K % 4)) (slicesDone inst arena K) := by
  unfold slicesDone
  rw [List.range_succ, List.foldl_concat]

theorem slicesDone_passes (r : ℕ) : slicesDone inst arena (4 * r) = passesDone inst arena r := by
  induction r with
  | zero => rfl
  | succ r ih =>
    have hpass : passesDone inst arena (r + 1) =
        fillPass inst (UInt32.ofNat r) (passesDone inst arena r) := by
      unfold passesDone
      rw [List.range_succ, List.foldl_concat]
    rw [hpass, ← ih, show 4 * (r + 1) = 4 * r + 3 + 1 by omega, slicesDone_succ,
      show 4 * r + 3 = 4 * r + 2 + 1 by omega, slicesDone_succ,
      show 4 * r + 2 = 4 * r + 1 + 1 by omega, slicesDone_succ, slicesDone_succ,
      show (4 * r + 2 + 1) / 4 = r by omega, show (4 * r + 2 + 1) % 4 = 3 by omega,
      show (4 * r + 1 + 1) / 4 = r by omega, show (4 * r + 1 + 1) % 4 = 2 by omega,
      show (4 * r + 1) / 4 = r by omega, show (4 * r + 1) % 4 = 1 by omega,
      show 4 * r / 4 = r by omega, show 4 * r % 4 = 0 by omega]
    rfl

theorem fillSegment_size (pos : Position) (arena : Arena) :
    (Segment.fillSegment inst pos arena).size = arena.size := by
  unfold Segment.fillSegment
  split_ifs
  · rfl
  · exact CarriedSegment.iterate_size inst pos _ _

theorem slicesDone_size (K : ℕ) : (slicesDone inst arena K).size = arena.size := by
  induction K with
  | zero => rfl
  | succ K ih =>
    have hlanes : ∀ (lanes : List ℕ) (a : Arena), (lanes.foldl (fun arena lane =>
        Segment.fillSegment inst (lanePosition (UInt32.ofNat (K / 4)) (UInt32.ofNat (K % 4)) lane)
          arena) a).size = a.size := by
      intro lanes
      induction lanes with
      | nil => exact fun _ => rfl
      | cons lane lanes ihl => exact fun a => (ihl _).trans (fillSegment_size inst _ a)
    rw [slicesDone_succ]
    exact (hlanes _ _).trans ih

end Slices

section World
variable {inst : Instance} (arena : Arena) (K : ℕ)

/-- The lanes of slice `K` after an order of block steps, over the slices before it. -/
def sliceWorld (order : List (Fin inst.lanes.toNat)) :
    World (Fin inst.lanes.toNat) SegmentState Arena :=
  (sliceStart inst (UInt32.ofNat (K / 4)) (UInt32.ofNat (K % 4)) (slicesDone inst arena K)).run
    (laneStep inst (UInt32.ofNat (K / 4)) (UInt32.ofNat (K % 4))) order

def blocks (inst : Instance) (K lane : ℕ) : ℕ := segmentBlocks inst (slicePosition K (UInt32.ofNat lane))

theorem slicePosition_slice (lane : UInt32) : (slicePosition K lane).slice.toNat < 4 := by
  change (UInt32.ofNat (K % 4)).toNat < 4
  have hK := Nat.mod_lt K (by decide : 4 > 0)
  rw [UInt32.toNat_ofNat_of_lt' (hK.trans (by decide))]
  exact hK

theorem slicePosition_lane (l : Fin inst.lanes.toNat) :
    (slicePosition K (UInt32.ofNat l)).lane.toNat = l.val :=
  lanePosition_lane l.val l.isLt

theorem slicePosition_inSlice (l : Fin inst.lanes.toNat) :
    InSlice inst (slicePosition K (UInt32.ofNat l)) where
  lane_lt := by
    rw [slicePosition_lane]
    exact l.isLt
  slice_lt := slicePosition_slice K _

theorem sliceWorld_concat (order : List (Fin inst.lanes.toNat)) (l : Fin inst.lanes.toNat) :
    sliceWorld arena K (order ++ [l]) = (sliceWorld arena K order).step
      (laneStep inst (UInt32.ofNat (K / 4)) (UInt32.ofNat (K % 4))) l :=
  run_concat _ _ order l

theorem sliceWorld_shared (order : List (Fin inst.lanes.toNat)) (l : Fin inst.lanes.toNat) :
    (sliceWorld arena K (order ++ [l])).shared =
      (Segment.blockStep inst (slicePosition K (UInt32.ofNat l))
        ((sliceWorld arena K order).locals l, (sliceWorld arena K order).shared)).2 := by
  rw [sliceWorld_concat]
  rfl

theorem sliceWorld_self (order : List (Fin inst.lanes.toNat)) (l : Fin inst.lanes.toNat) :
    (sliceWorld arena K (order ++ [l])).locals l =
      (Segment.blockStep inst (slicePosition K (UInt32.ofNat l))
        ((sliceWorld arena K order).locals l, (sliceWorld arena K order).shared)).1 := by
  rw [sliceWorld_concat, step_self]
  rfl

theorem sliceWorld_other (order : List (Fin inst.lanes.toNat)) {l l' : Fin inst.lanes.toNat}
    (h : l' ≠ l) : (sliceWorld arena K (order ++ [l])).locals l' =
      (sliceWorld arena K order).locals l' := by
  rw [sliceWorld_concat, step_other _ _ h]

theorem sliceWorld_size (order : List (Fin inst.lanes.toNat)) :
    (sliceWorld arena K order).shared.size = arena.size := by
  induction order using List.reverseRecOn with
  | nil => exact slicesDone_size inst arena K
  | append_singleton order l ih => rw [sliceWorld_shared, CarriedSegment.blockStep_size, ih]

variable (wf : WellFormed inst)
include wf

theorem sliceWorld_cursor (order : List (Fin inst.lanes.toNat)) (l : Fin inst.lanes.toNat)
    (h : order.count l ≤ blocks inst K l) : ((sliceWorld arena K order).locals l).cursor =
      Cursor.at inst (slicePosition K (UInt32.ofNat l)) (order.count l) := by
  induction order using List.reverseRecOn with
  | nil => exact segmentStart_cursor _
  | append_singleton order l' ih =>
    rw [List.count_append, List.count_singleton] at h ⊢
    by_cases hl : l' = l
    · subst hl
      rw [if_pos (beq_self_eq_true l')] at h ⊢
      have hle : order.count l' ≤ blocks inst K l' := Nat.le_of_succ_le h
      have hc := ih hle
      have hactive := (active_iff wf (slicePosition_inSlice K l') hle hc).mpr h
      rw [sliceWorld_self, blockStep_cursor _ _ _ hactive, hc, Cursor.at_succ]
    · rw [if_neg (by rw [beq_iff_eq]; exact hl), Nat.add_zero] at h ⊢
      rw [sliceWorld_other arena K order (Ne.symm hl)]
      exact ih h

theorem sliceWorld_done (order : List (Fin inst.lanes.toNat))
    (h : ∀ l, order.count l = blocks inst K l) :
    (sliceWorld arena K order).shared = slicesDone inst arena (K + 1) := by
  have hslice := fillSliceWith_eq wf (slicePosition_slice K 0) ⟨order, h⟩ (slicesDone inst arena K)
  rw [slicesDone_succ]
  exact hslice

end World

end Argon2Rust.PoolMemory
