import Argon2Rust.IndexAlpha
import Argon2Rust.Tally

set_option autoImplicit false

/-!
# The worker pool of `fill_pooled`

One leader and its helpers, each a program counter that takes one atomic access
at a time. The nested loop over passes and slices is the number `k` of slices a
worker has behind it: the pass is `k / 4`, the slice `k % 4`, and the worker's own
`generation` is `k` wrapped to 32 bits. The log is a record for the statements,
newest event first; no worker reads it.
-/
namespace Argon2Rust.Pool
open Parameters IndexAlpha Tally

def workers (inst : Instance) : UInt32 := min inst.threads inst.lanes

def helpers (inst : Instance) : UInt32 := if workers inst = 0 then 0 else workers inst - 1

def totalSlices (inst : Instance) : ℕ := 4 * inst.passes.toNat

structure FillSync where
  nextLane : UInt32
  arrived : UInt32
  generation : UInt32
  lost : UInt32
  stop : Bool
  deriving DecidableEq, Repr

/-- The next access of the leader. The last two before `finished` are `ReleaseHelpers::drop`. -/
inductive Leader where
  | spawn (i : ℕ)
  | charge
  | drain (k : ℕ)
  | fill (k : ℕ) (lane : UInt32)
  | pollArrived (k : ℕ)
  | pollLost (k : ℕ) (arrived : UInt32)
  | checkLost (k : ℕ)
  | storeStop (k : ℕ)
  | bumpStop (k : ℕ)
  | trace (k : ℕ)
  | resetLane (k : ℕ)
  | resetArrived (k : ℕ)
  | publish (k : ℕ)
  | dropStop (k : ℕ)
  | dropBump (k : ℕ)
  | finished (k : ℕ)
  deriving DecidableEq, Repr

/-- The next access of a helper. `bail` is the unwinding helper before `Bail::drop`. -/
inductive Helper where
  | absent
  | refused
  | drain (k : ℕ)
  | fill (k : ℕ) (lane : UInt32)
  | arrive (k : ℕ)
  | pollGeneration (k : ℕ)
  | pollStop (k : ℕ)
  | checkStop (k : ℕ)
  | bail (k : ℕ)
  | dead (k : ℕ)
  | done
  deriving DecidableEq, Repr

abbrev HelperId (inst : Instance) := Fin (helpers inst).toNat

inductive Worker (inst : Instance) where
  | leader
  | helper (id : HelperId inst)
  deriving DecidableEq, Repr

/-- What the statements speak about. A worker that claims a lane calls `fill` on it. -/
inductive Event (inst : Instance) where
  | claimed (worker : Worker inst) (k : ℕ) (lane : UInt32)
  | filled (worker : Worker inst) (k : ℕ) (lane : UInt32)
  | unwound (worker : Worker inst) (k : ℕ)
  | traced (pass : ℕ)
  deriving DecidableEq, Repr

structure State (inst : Instance) where
  sync : FillSync
  spawned : UInt32
  leader : Leader
  helper : HelperId inst → Helper
  log : List (Event inst)

section Workers
variable (inst : Instance)

def Leader.enter (k : ℕ) : Leader := if k < totalSlices inst then .drain k else .dropStop k

def Helper.enter (k : ℕ) : Helper := if k < totalSlices inst then .drain k else .done

/-- `ok` is the outcome of `fill`: whether it returns or unwinds. -/
def Helper.next (id : HelperId inst) (ok : Bool) (sync : FillSync) :
    Helper → Option (Helper × FillSync × List (Event inst))
  | .absent | .refused | .dead _ | .done => none
  | .drain k =>
    let lane := sync.nextLane
    let sync := { sync with nextLane := lane + 1 }
    if inst.lanes ≤ lane then some (.arrive k, sync, [])
    else some (.fill k lane, sync, [.claimed (.helper id) k lane])
  | .fill k lane =>
    if ok then some (.drain k, sync, [.filled (.helper id) k lane])
    else some (.bail k, sync, [.unwound (.helper id) k])
  | .arrive k => some (.pollGeneration k, { sync with arrived := sync.arrived + 1 }, [])
  | .pollGeneration k =>
    if sync.generation = UInt32.ofNat (k + 1) then some (.checkStop k, sync, [])
    else some (.pollStop k, sync, [])
  | .pollStop k =>
    if sync.stop then some (.checkStop k, sync, []) else some (.pollGeneration k, sync, [])
  | .checkStop k =>
    if sync.stop then some (.done, sync, []) else some (Helper.enter inst (k + 1), sync, [])
  | .bail k => some (.dead k, { sync with lost := sync.lost + 1 }, [])

/-- `ok` is the outcome of `fill` and of the trace callback; the spawn loop is over. -/
def Leader.next (traced ok : Bool) (spawned : UInt32) (sync : FillSync) :
    Leader → Option (Leader × FillSync × List (Event inst))
  | .spawn _ => some (.charge, sync, [])
  | .charge => some (Leader.enter inst 0,
      { sync with lost := sync.lost + (helpers inst - spawned) }, [])
  | .drain k =>
    let lane := sync.nextLane
    let sync := { sync with nextLane := lane + 1 }
    if inst.lanes ≤ lane then some (.pollArrived k, sync, [])
    else some (.fill k lane, sync, [.claimed .leader k lane])
  | .fill k lane =>
    if ok then some (.drain k, sync, [.filled .leader k lane])
    else some (.dropStop k, sync, [.unwound .leader k])
  | .pollArrived k => some (.pollLost k sync.arrived, sync, [])
  | .pollLost k arrived =>
    if helpers inst ≤ arrived + sync.lost then some (.checkLost k, sync, [])
    else some (.pollArrived k, sync, [])
  | .checkLost k =>
    if helpers inst - spawned < sync.lost then some (.storeStop k, sync, [])
    else if k % 4 = 3 ∧ traced = true then some (.trace k, sync, [.traced (k / 4)])
    else some (.resetLane k, sync, [])
  | .storeStop k => some (.bumpStop k, { sync with stop := true }, [])
  | .bumpStop k => some (.dropStop k, { sync with generation := sync.generation + 1 }, [])
  | .trace k =>
    if ok then some (.resetLane k, sync, []) else some (.dropStop k, sync, [.unwound .leader k])
  | .resetLane k => some (.resetArrived k, { sync with nextLane := 0 }, [])
  | .resetArrived k => some (.publish k, { sync with arrived := 0 }, [])
  | .publish k =>
    some (Leader.enter inst (k + 1), { sync with generation := UInt32.ofNat (k + 1) }, [])
  | .dropStop k => some (.dropBump k, { sync with stop := true }, [])
  | .dropBump k => some (.finished k, { sync with generation := sync.generation + 1 }, [])
  | .finished _ => none

end Workers

section Steps
variable {inst : Instance}

def State.withLeader (s : State inst) (r : Leader × FillSync × List (Event inst)) : State inst :=
  { s with leader := r.1, sync := r.2.1, log := r.2.2 ++ s.log }

def State.withHelper (s : State inst) (id : HelperId inst)
    (r : Helper × FillSync × List (Event inst)) : State inst :=
  { s with helper := Function.update s.helper id r.1, sync := r.2.1, log := r.2.2 ++ s.log }

/-- One iteration of the spawn loop; `ok` is whether the thread starts. -/
def State.spawn (s : State inst) (id : HelperId inst) (ok : Bool) : State inst :=
  if ok then
    { s with
      leader := .spawn (id + 1)
      spawned := s.spawned + 1
      helper := Function.update s.helper id (Helper.enter inst 0) }
  else
    { s with
      leader := .spawn (id + 1)
      helper := Function.update s.helper id .refused }

/-- The next atomic access of one worker; a worker at its end has none. -/
def State.step (traced : Bool) (worker : Worker inst) (ok : Bool) (s : State inst) :
    Option (State inst) :=
  match worker with
  | .helper id => (Helper.next inst id ok s.sync (s.helper id)).map (s.withHelper id)
  | .leader =>
    match s.leader with
    | .spawn i =>
      if hi : i < (helpers inst).toNat then some (s.spawn ⟨i, hi⟩ ok)
      else (Leader.next inst traced ok s.spawned s.sync (.spawn i)).map s.withLeader
    | pc => (Leader.next inst traced ok s.spawned s.sync pc).map s.withLeader

variable (inst) in
def State.start : State inst where
  sync := { nextLane := 0, arrived := 0, generation := 0, lost := 0, stop := false }
  spawned := 0
  leader := .spawn 0
  helper := fun _ => .absent
  log := []

inductive Reachable (traced : Bool) : State inst → Prop
  | start : Reachable traced (State.start inst)
  | step {s s' : State inst} (worker : Worker inst) (ok : Bool) : Reachable traced s →
      s.step traced worker ok = some s' → Reachable traced s'

end Steps

section Moves
variable (inst : Instance)

/-- The accesses of a helper, one constructor for each outcome. -/
inductive HelperMove (id : HelperId inst) (sync : FillSync) :
    Helper → Helper → FillSync → List (Event inst) → Prop
  | drained (k : ℕ) (h : inst.lanes ≤ sync.nextLane) : HelperMove id sync (.drain k) (.arrive k)
      { sync with nextLane := sync.nextLane + 1 } []
  | claimed (k : ℕ) (h : ¬ inst.lanes ≤ sync.nextLane) :
      HelperMove id sync (.drain k) (.fill k sync.nextLane)
        { sync with nextLane := sync.nextLane + 1 } [.claimed (.helper id) k sync.nextLane]
  | filled (k : ℕ) (lane : UInt32) :
      HelperMove id sync (.fill k lane) (.drain k) sync [.filled (.helper id) k lane]
  | unwound (k : ℕ) (lane : UInt32) :
      HelperMove id sync (.fill k lane) (.bail k) sync [.unwound (.helper id) k]
  | arrived (k : ℕ) : HelperMove id sync (.arrive k) (.pollGeneration k)
      { sync with arrived := sync.arrived + 1 } []
  | released (k : ℕ) (h : sync.generation = UInt32.ofNat (k + 1)) :
      HelperMove id sync (.pollGeneration k) (.checkStop k) sync []
  | waited (k : ℕ) (h : sync.generation ≠ UInt32.ofNat (k + 1)) :
      HelperMove id sync (.pollGeneration k) (.pollStop k) sync []
  | stopped (k : ℕ) (h : sync.stop = true) :
      HelperMove id sync (.pollStop k) (.checkStop k) sync []
  | parked (k : ℕ) (h : sync.stop = false) :
      HelperMove id sync (.pollStop k) (.pollGeneration k) sync []
  | left (k : ℕ) (h : sync.stop = true) : HelperMove id sync (.checkStop k) .done sync []
  | entered (k : ℕ) (h : sync.stop = false) :
      HelperMove id sync (.checkStop k) (Helper.enter inst (k + 1)) sync []
  | bailed (k : ℕ) :
      HelperMove id sync (.bail k) (.dead k) { sync with lost := sync.lost + 1 } []

theorem Helper.next_move {id : HelperId inst} {ok : Bool} {sync : FillSync} {pc : Helper}
    {r : Helper × FillSync × List (Event inst)} (h : Helper.next inst id ok sync pc = some r) :
    HelperMove inst id sync pc r.1 r.2.1 r.2.2 := by
  cases pc with
  | absent => cases h
  | refused => cases h
  | drain k =>
    dsimp only [Helper.next] at h
    by_cases hl : inst.lanes ≤ sync.nextLane
    · rw [if_pos hl] at h
      cases h
      exact .drained k hl
    · rw [if_neg hl] at h
      cases h
      exact .claimed k hl
  | fill k lane =>
    cases ok <;> cases h
    · exact .unwound k lane
    · exact .filled k lane
  | arrive k =>
    cases h
    exact .arrived k
  | pollGeneration k =>
    dsimp only [Helper.next] at h
    by_cases hg : sync.generation = UInt32.ofNat (k + 1)
    · rw [if_pos hg] at h
      cases h
      exact .released k hg
    · rw [if_neg hg] at h
      cases h
      exact .waited k hg
  | pollStop k =>
    dsimp only [Helper.next] at h
    cases hs : sync.stop <;> rw [hs] at h <;> cases h
    · exact .parked k hs
    · exact .stopped k hs
  | checkStop k =>
    dsimp only [Helper.next] at h
    cases hs : sync.stop <;> rw [hs] at h <;> cases h
    · exact .entered k hs
    · exact .left k hs
  | bail k =>
    cases h
    exact .bailed k
  | dead k => cases h
  | done => cases h

/-- The accesses of the leader, one constructor for each outcome; the spawns are apart. -/
inductive LeaderMove (traced : Bool) (spawned : UInt32) (sync : FillSync) :
    Leader → Leader → FillSync → List (Event inst) → Prop
  | spawnedAll (i : ℕ) (h : (helpers inst).toNat ≤ i) :
      LeaderMove traced spawned sync (.spawn i) .charge sync []
  | charged : LeaderMove traced spawned sync .charge (Leader.enter inst 0)
      { sync with lost := sync.lost + (helpers inst - spawned) } []
  | drained (k : ℕ) (h : inst.lanes ≤ sync.nextLane) :
      LeaderMove traced spawned sync (.drain k) (.pollArrived k)
        { sync with nextLane := sync.nextLane + 1 } []
  | claimed (k : ℕ) (h : ¬ inst.lanes ≤ sync.nextLane) :
      LeaderMove traced spawned sync (.drain k) (.fill k sync.nextLane)
        { sync with nextLane := sync.nextLane + 1 } [.claimed .leader k sync.nextLane]
  | filled (k : ℕ) (lane : UInt32) :
      LeaderMove traced spawned sync (.fill k lane) (.drain k) sync [.filled .leader k lane]
  | unwound (k : ℕ) (lane : UInt32) :
      LeaderMove traced spawned sync (.fill k lane) (.dropStop k) sync [.unwound .leader k]
  | polled (k : ℕ) : LeaderMove traced spawned sync (.pollArrived k) (.pollLost k sync.arrived) sync []
  | released (k : ℕ) (a : UInt32) (h : helpers inst ≤ a + sync.lost) :
      LeaderMove traced spawned sync (.pollLost k a) (.checkLost k) sync []
  | waited (k : ℕ) (a : UInt32) (h : ¬ helpers inst ≤ a + sync.lost) :
      LeaderMove traced spawned sync (.pollLost k a) (.pollArrived k) sync []
  | lostOne (k : ℕ) (h : helpers inst - spawned < sync.lost) :
      LeaderMove traced spawned sync (.checkLost k) (.storeStop k) sync []
  | tracing (k : ℕ) (h : ¬ helpers inst - spawned < sync.lost) (hk : k % 4 = 3)
      (ht : traced = true) :
      LeaderMove traced spawned sync (.checkLost k) (.trace k) sync [.traced (k / 4)]
  | untraced (k : ℕ) (h : ¬ helpers inst - spawned < sync.lost)
      (ht : ¬ (k % 4 = 3 ∧ traced = true)) :
      LeaderMove traced spawned sync (.checkLost k) (.resetLane k) sync []
  | stopped (k : ℕ) : LeaderMove traced spawned sync (.storeStop k) (.bumpStop k)
      { sync with stop := true } []
  | bumped (k : ℕ) : LeaderMove traced spawned sync (.bumpStop k) (.dropStop k)
      { sync with generation := sync.generation + 1 } []
  | returned (k : ℕ) : LeaderMove traced spawned sync (.trace k) (.resetLane k) sync []
  | traceUnwound (k : ℕ) :
      LeaderMove traced spawned sync (.trace k) (.dropStop k) sync [.unwound .leader k]
  | laneReset (k : ℕ) : LeaderMove traced spawned sync (.resetLane k) (.resetArrived k)
      { sync with nextLane := 0 } []
  | arrivedReset (k : ℕ) : LeaderMove traced spawned sync (.resetArrived k) (.publish k)
      { sync with arrived := 0 } []
  | published (k : ℕ) : LeaderMove traced spawned sync (.publish k) (Leader.enter inst (k + 1))
      { sync with generation := UInt32.ofNat (k + 1) } []
  | dropStopped (k : ℕ) : LeaderMove traced spawned sync (.dropStop k) (.dropBump k)
      { sync with stop := true } []
  | dropBumped (k : ℕ) : LeaderMove traced spawned sync (.dropBump k) (.finished k)
      { sync with generation := sync.generation + 1 } []

theorem Leader.next_move {traced ok : Bool} {spawned : UInt32} {sync : FillSync} {pc : Leader}
    {r : Leader × FillSync × List (Event inst)} (hspawn : ∀ i, pc = .spawn i → (helpers inst).toNat ≤ i)
    (h : Leader.next inst traced ok spawned sync pc = some r) :
    LeaderMove inst traced spawned sync pc r.1 r.2.1 r.2.2 := by
  cases pc with
  | spawn i =>
    cases h
    exact .spawnedAll i (hspawn i rfl)
  | charge =>
    cases h
    exact .charged
  | drain k =>
    dsimp only [Leader.next] at h
    by_cases hl : inst.lanes ≤ sync.nextLane
    · rw [if_pos hl] at h
      cases h
      exact .drained k hl
    · rw [if_neg hl] at h
      cases h
      exact .claimed k hl
  | fill k lane =>
    cases ok <;> cases h
    · exact .unwound k lane
    · exact .filled k lane
  | pollArrived k =>
    cases h
    exact .polled k
  | pollLost k a =>
    dsimp only [Leader.next] at h
    by_cases hl : helpers inst ≤ a + sync.lost
    · rw [if_pos hl] at h
      cases h
      exact .released k a hl
    · rw [if_neg hl] at h
      cases h
      exact .waited k a hl
  | checkLost k =>
    dsimp only [Leader.next] at h
    by_cases hl : helpers inst - spawned < sync.lost
    · rw [if_pos hl] at h
      cases h
      exact .lostOne k hl
    · rw [if_neg hl] at h
      by_cases ht : k % 4 = 3 ∧ traced = true
      · rw [if_pos ht] at h
        cases h
        exact .tracing k hl ht.1 ht.2
      · rw [if_neg ht] at h
        cases h
        exact .untraced k hl ht
  | storeStop k =>
    cases h
    exact .stopped k
  | bumpStop k =>
    cases h
    exact .bumped k
  | trace k =>
    cases ok <;> cases h
    · exact .traceUnwound k
    · exact .returned k
  | resetLane k =>
    cases h
    exact .laneReset k
  | resetArrived k =>
    cases h
    exact .arrivedReset k
  | publish k =>
    cases h
    exact .published k
  | dropStop k =>
    cases h
    exact .dropStopped k
  | dropBump k =>
    cases h
    exact .dropBumped k
  | finished k => cases h

variable {inst}

/-- Every step is an iteration of the spawn loop, or an access of the leader or of one helper. -/
theorem step_cases {traced ok : Bool} {worker : Worker inst} {s s' : State inst}
    (h : s.step traced worker ok = some s') :
    (∃ id : HelperId inst, s.leader = .spawn id ∧ s' = s.spawn id ok) ∨
    (∃ r, LeaderMove inst traced s.spawned s.sync s.leader r.1 r.2.1 r.2.2 ∧
      s' = s.withLeader r) ∨
    ∃ id r, HelperMove inst id s.sync (s.helper id) r.1 r.2.1 r.2.2 ∧ s' = s.withHelper id r := by
  cases worker with
  | helper id =>
    obtain ⟨r, hr, rfl⟩ := Option.map_eq_some_iff.mp h
    exact Or.inr (Or.inr ⟨id, r, Helper.next_move inst hr, rfl⟩)
  | leader =>
    have hother : (∀ i, s.leader = .spawn i → (helpers inst).toNat ≤ i) →
        (Leader.next inst traced ok s.spawned s.sync s.leader).map s.withLeader = some s' →
        ∃ r, LeaderMove inst traced s.spawned s.sync s.leader r.1 r.2.1 r.2.2 ∧
          s' = s.withLeader r := by
      intro hspawn hmap
      obtain ⟨r, hr, rfl⟩ := Option.map_eq_some_iff.mp hmap
      exact ⟨r, Leader.next_move inst hspawn hr, rfl⟩
    unfold State.step at h
    cases hl : s.leader with
    | spawn i =>
      rw [hl] at h hother
      dsimp only at h
      by_cases hi : i < (helpers inst).toNat
      · rw [dif_pos hi] at h
        exact Or.inl ⟨⟨i, hi⟩, rfl, (Option.some.inj h).symm⟩
      · rw [dif_neg hi] at h
        refine Or.inr (Or.inl (hother ?_ h))
        intro j hj
        cases hj
        exact not_lt.mp hi
    | _ =>
      rw [hl] at h hother
      exact Or.inr (Or.inl (hother (fun i hi => by cases hi) h))

end Moves

end Argon2Rust.Pool
