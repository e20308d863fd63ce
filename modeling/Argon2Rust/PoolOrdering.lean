import Argon2Rust.HappensBefore
import Argon2Rust.PooledFill

set_option autoImplicit false

/-!
# The orderings of the pool's atomics

Every access to a block is logged with the accesses that happen before it, as the
`Ordering` of each atomic access makes them known. What is in another slice always
happens before; what is in the same slice is in another lane's segment. So two
accesses of different threads to one block of which one is a write are never
unordered, the trace callback's reads included. A load returns the latest value
here; one that returns an older value makes a poll go round once more.
-/
namespace Argon2Rust.PoolOrdering
open Parameters Compression IndexAlpha Segment ReferenceWindow Fill Interleaving Tally Pool
  SegmentLoops PoolMemory HappensBefore Backends RegisterBlock PooledFill

inductive Location where
  | nextLane
  | arrived
  | generation
  | lost
  | stop
  deriving DecidableEq

section Atomics
variable {inst : Instance}

def helperOp : Helper → Op (Worker inst) Location
  | .drain _ => .addRelaxed .nextLane
  | .arrive _ => .addRelease .arrived
  | .pollGeneration _ => .loadAcquire .generation
  | .pollStop _ | .checkStop _ => .loadRelaxed .stop
  | .bail _ => .addRelease .lost
  | .absent | .refused | .fill _ _ | .dead _ | .done => .none

def leaderOp : Leader → Op (Worker inst) Location
  | .charge => .addRelaxed .lost
  | .drain _ => .addRelaxed .nextLane
  | .pollArrived _ => .loadAcquire .arrived
  | .pollLost _ _ => .loadAcquire .lost
  | .checkLost _ => .loadRelaxed .lost
  | .storeStop _ | .dropStop _ => .storeRelaxed .stop
  | .bumpStop _ | .dropBump _ => .addRelease .generation
  | .resetLane _ => .storeRelaxed .nextLane
  | .resetArrived _ => .storeRelaxed .arrived
  | .publish _ => .storeRelease .generation
  | .spawn _ | .fill _ _ | .trace _ | .finished _ => .none

/-- The action of a worker's next access; a thread that starts knows what the leader knows. -/
def poolOp (s : State inst) (ok : Bool) : Worker inst → Op (Worker inst) Location
  | .helper id => helperOp (s.helper id)
  | .leader =>
    match s.leader with
    | .spawn i =>
      if h : i < (helpers inst).toNat ∧ ok = true then .fork (.helper ⟨i, h.1⟩) else .none
    | pc => leaderOp pc

end Atomics

/-- An access to one block by a call of `fill_segment`, or the callback's to all blocks. -/
inductive Access (inst : Instance) where
  | block (worker : Worker inst) (k : ℕ) (lane offset : UInt32) (write : Bool)
  | trace (k : ℕ)

section Accesses
variable {inst : Instance}

def Access.worker : Access inst → Worker inst
  | .block worker _ _ _ _ => worker
  | .trace _ => .leader

def Access.slices : Access inst → ℕ
  | .block _ k _ _ _ | .trace k => k

def Access.stage : Access inst → ℕ
  | .block _ k _ _ _ => 2 * k
  | .trace k => 2 * k + 1

def Access.touches (o : UInt32) : Access inst → Prop
  | .block _ _ _ offset _ => offset = o
  | .trace _ => True

def Access.writes (o : UInt32) : Access inst → Prop
  | .block _ _ _ offset write => offset = o ∧ write = true
  | .trace _ => False

def Conflict (a b : Access inst) : Prop :=
  a.worker ≠ b.worker ∧ ∃ o, (a.touches o ∧ b.writes o) ∨ (a.writes o ∧ b.touches o)

variable {loop : SegmentLoop}

def traceAccesses : Leader → List (Access inst)
  | .trace k => [.trace k]
  | _ => []

def accesses (s : System loop inst) (worker : Worker inst) (ok : Bool) : List (Access inst) :=
  match s.pool.filling worker, worker with
  | some (k, lane), _ =>
    if ok = true then
      (s.touches worker).map fun o => .block worker k lane o (decide (o ∈ s.writes worker))
    else []
  | none, .leader => traceAccesses s.pool.leader
  | none, .helper _ => []

/-- A system with what each thread knows of the accesses so far, as places in the log. The log
has, for each access, what its thread knew then. -/
structure Ordered (loop : SegmentLoop) (inst : Instance) where
  sys : System loop inst
  known : Knowledge (Worker inst) Location ℕ
  log : List (Access inst × Set ℕ)

def Ordered.start (arena : Arena) : Ordered loop inst := ⟨System.start arena, .start, []⟩

def Ordered.record (s : Ordered loop inst) (worker : Worker inst) (new : List (Access inst)) :
    Ordered loop inst :=
  { s with
    known := s.known.learn worker {i | s.log.length ≤ i ∧ i < s.log.length + new.length}
    log := s.log ++ new.map fun a => (a, s.known.knows worker) }

def Ordered.step (traced : Bool) (worker : Worker inst) (ok : Bool) (s : Ordered loop inst) :
    Option (Ordered loop inst) :=
  (s.sys.step traced worker ok).map fun sys =>
    let s' := s.record worker (accesses s.sys worker ok)
    { s' with sys := sys, known := s'.known.perform worker (poolOp s.sys.pool ok worker) }

inductive Ordered.Reachable (traced : Bool) (arena : Arena) : Ordered loop inst → Prop
  | start : Ordered.Reachable traced arena (Ordered.start arena)
  | step {s s' : Ordered loop inst} (worker : Worker inst) (ok : Bool) :
      Ordered.Reachable traced arena s → s.step traced worker ok = some s' →
      Ordered.Reachable traced arena s'

theorem Ordered.Reachable.system {traced : Bool} {arena : Arena} {s : Ordered loop inst}
    (h : s.Reachable traced arena) : s.sys.Reachable traced arena := by
  induction h with
  | start => exact .start
  | step worker ok _ hstep ih =>
    obtain ⟨sys, hsys, rfl⟩ := Option.map_eq_some_iff.mp hstep
    exact ih.step worker ok hsys

theorem Ordered.Reachable.of_system {traced : Bool} {arena : Arena} {sys : System loop inst}
    (h : sys.Reachable traced arena) : ∃ s : Ordered loop inst, s.Reachable traced arena ∧
      s.sys = sys := by
  induction h with
  | start => exact ⟨_, .start, rfl⟩
  | step worker ok _ hstep ih =>
    obtain ⟨s, hs, rfl⟩ := ih
    exact ⟨_, hs.step worker ok (congrArg (Option.map _) hstep), rfl⟩

def Ordered.At (s : Ordered loop inst) (i : ℕ) (a : Access inst) : Prop :=
  ∃ known, s.log[i]? = some (a, known)

end Accesses

section Placement
variable (inst : Instance) (pos : Position)

def Writes (o : UInt32) : Prop :=
  ∃ s arena, LaneProgress inst pos s ∧ s.cursor.i < inst.segmentLength ∧
    o = (Segment.access inst pos s arena).currOffset

def Touches (o : UInt32) : Prop :=
  (∃ s arena, LaneProgress inst pos s ∧ s.cursor.i < inst.segmentLength ∧
    (o = (Segment.access inst pos s arena).prevOffset ∨
      o = (Segment.access inst pos s arena).refOffset ∨
      o = (Segment.access inst pos s arena).currOffset)) ∨
  o = (Cursor.start inst pos).prevOffset

variable {inst pos}

/-- What one lane of a slice writes no other lane of it touches. -/
theorem writes_not_touches (wf : WellFormed inst) {pos' : Position} (hs : InSlice inst pos)
    (hs' : InSlice inst pos') (hslice : pos'.slice = pos.slice) (hne : pos.lane ≠ pos'.lane)
    {o : UInt32} (hw : Writes inst pos' o) : ¬ Touches inst pos o := by
  obtain ⟨s', arena', h', ha', rfl⟩ := hw
  rintro (⟨s, arena, h, ha, hprev | href | hcurr⟩ | hstart)
  · exact (access_other_lane wf hs hs' hslice hne h h' ha ha' arena arena').1 hprev
  · exact (access_other_lane wf hs hs' hslice hne h h' ha ha' arena arena').2.1 href
  · exact (access_other_lane wf hs hs' hslice hne h h' ha ha' arena arena').2.2 hcurr
  · exact start_other_lane wf hs hs' hne h' ha' arena' hstart

end Placement

section Gathered
variable {inst : Instance}

/-- The leader's loads have shown it that all helpers are at the barrier. -/
def Gathered (s : State inst) : Prop :=
  match s.leader with
  | .pollLost _ a => s.spawned ≤ a
  | .checkLost _ => s.sync.lost ≤ helpers inst - s.spawned
  | .trace _ | .resetLane _ | .resetArrived _ | .publish _ => True
  | _ => False

/-- Nobody can claim a lane of the slice any more, whatever becomes of the leader. -/
def Settled (K : ℕ) (stop : Bool) : Helper → Prop
  | .refused | .done => True
  | .pollGeneration k | .pollStop k => k = K
  | .checkStop k => k = K ∧ stop = true
  | _ => False

def Sealed (s : State inst) : Prop :=
  (s.leader.closed = true ∨ s.leader.leaving = true) ∧
    ∀ id, Settled s.leader.slices s.sync.stop (s.helper id)

/-- The slices all accesses of which a helper knows. One that has seen `stop` is on its way out,
and may have seen it without an acquire. -/
def horizon (stop : Bool) : Helper → ℕ
  | .drain k | .fill k _ | .arrive k | .pollGeneration k | .pollStop k => k
  | .checkStop k => if stop then 0 else k + 1
  | _ => 0

variable {s : State inst}

theorem horizon_le {K : ℕ} {stop : Bool} {pc : Helper} (h : Placed inst K stop pc) :
    horizon stop pc ≤ K := by
  cases pc with
  | drain k => exact Nat.le_of_eq h
  | fill k lane => exact Nat.le_of_eq h
  | arrive k => exact Nat.le_of_eq h
  | pollGeneration k =>
    change k ≤ K
    rcases h with h | h <;> omega
  | pollStop k =>
    change k ≤ K
    rcases h with h | h <;> omega
  | checkStop k =>
    change (if stop then 0 else k + 1) ≤ K
    rcases h with h | ⟨-, h⟩
    · split_ifs <;> omega
    · rw [if_pos h]
      exact Nat.zero_le K
  | _ => exact Nat.zero_le K

theorem parked_present {K : ℕ} {pc : Helper} (h : pc.parkedAt K = true) : pc.present = true := by
  cases pc <;> first | rfl | cases h

theorem not_refused {pc : Helper} (h : pc.present = true) : ¬ pc.isRefused = true := by
  cases pc with
  | refused => cases h
  | _ => exact nofun

theorem Gathered.parked (g : Gathered s) (r : Roster s) (b : Barrier s) {id : HelperId inst}
    (hid : (s.helper id).present = true) : (s.helper id).parkedAt s.leader.slices = true := by
  unfold Gathered at g
  cases hl : s.leader with
  | pollLost k a =>
    rw [hl] at g
    have hpolled := b.polled k a hl
    rw [hl] at hpolled
    have hall : tally Helper.present s.helper ≤ tally (Helper.parkedAt k) s.helper := by
      rw [← r.spawned]
      exact (UInt32.le_iff_toNat_le.mp g).trans hpolled
    exact tally_reverse Helper.present s.helper (Helper.parkedAt k) (fun i => parked_present) hall id
      hid
  | checkLost k =>
    rw [hl] at g
    have hshort := r.shortfall (by rw [hl]; exact nofun)
    have hlost := r.lost
    have hle := UInt32.le_iff_toNat_le.mp g
    have hcharged : s.leader.charged = true := congrArg Leader.charged hl
    rw [if_pos hcharged] at hlost
    have hdead := of_tally_eq_zero Helper.isDead s.helper (by omega) id
    rcases b.checked k hl id with h | h | h
    · exact absurd h (not_refused hid)
    · rw [hdead] at h
      cases h
    · rw [hl] at h
      exact h
  | _ =>
    rw [hl] at g
    first
    | exact g.elim
    | rcases b.settled (by rw [hl]; rfl) id with h | h
      · exact absurd h (not_refused hid)
      · rw [hl] at h
        exact h

theorem Gathered.filling (g : Gathered s) (r : Roster s) (b : Barrier s) (id : HelperId inst) :
    s.filling (.helper id) = none := by
  change (s.helper id).filling = none
  cases hpc : s.helper id with
  | fill k lane =>
    have hpresent : (s.helper id).present = true := by
      rw [hpc]
      rfl
    have hparked := g.parked r b hpresent
    rw [hpc] at hparked
    cases hparked
  | _ => rfl

theorem Sealed.filling (h : Sealed s) (worker : Worker inst) : s.filling worker = none := by
  obtain ⟨hleader, hhelper⟩ := h
  cases worker with
  | leader =>
    change s.leader.filling = none
    cases hl : s.leader with
    | fill k lane =>
      rw [hl] at hleader
      rcases hleader with h | h <;> cases h
    | _ => rfl
  | helper id =>
    change (s.helper id).filling = none
    have hid := hhelper id
    cases hpc : s.helper id with
    | fill k lane =>
      rw [hpc] at hid
      exact hid.elim
    | _ => rfl

/-- The leader closes a slice only when it has gathered everybody. -/
theorem gathered_of_closed (h : s.leader.closed = true) : Gathered s := by
  unfold Gathered
  cases hl : s.leader with
  | trace k => trivial
  | resetLane k => trivial
  | resetArrived k => trivial
  | publish k => trivial
  | _ =>
    rw [hl] at h
    cases h

theorem sealed_of_closed (b : Barrier s) (h : s.leader.closed = true) : Sealed s := by
  refine ⟨Or.inl h, fun id => ?_⟩
  have hid := b.settled h id
  cases hpc : s.helper id with
  | refused => trivial
  | pollGeneration k =>
    rw [hpc] at hid
    rcases hid with hid | hid
    · cases hid
    · exact beq_iff_eq.mp hid
  | pollStop k =>
    rw [hpc] at hid
    rcases hid with hid | hid
    · cases hid
    · exact beq_iff_eq.mp hid
  | _ =>
    rw [hpc] at hid
    rcases hid with hid | hid <;> cases hid

end Gathered

/-- What is known where. The last accesses of a helper are in the message of `arrived` once it
waits at the barrier, and in the leader's knowledge once the leader has gathered everybody. -/
structure Informed {loop : SegmentLoop} {inst : Instance} (s : Ordered loop inst) : Prop where
  own : ∀ i a, s.At i a → i ∈ s.known.knows a.worker
  current : ∀ i a, s.At i a → a.slices ≤ s.sys.pool.leader.slices
  claimed : ∀ i worker k lane o write, s.At i (.block worker k lane o write) →
    .claimed worker k lane ∈ s.sys.pool.log
  placed : ∀ i worker k lane o write, s.At i (.block worker k lane o write) →
    Touches inst (slicePosition k lane) o ∧ (write = true → Writes inst (slicePosition k lane) o)
  sorted : ∀ i j a b, i < j → s.At i a → s.At j b → a.stage ≤ b.stage
  before : ∀ i j a b known, i < j → s.At i a → s.log[j]? = some (b, known) → a.stage < b.stage →
    i ∈ known
  crew : ∀ i a id, s.At i a → a.worker = .helper id → (s.sys.pool.helper id).present = true
  leader : ∀ i a, s.At i a → a.slices < s.sys.pool.leader.slices → i ∈ s.known.knows .leader
  helper : ∀ id i a, s.At i a →
    a.slices < horizon s.sys.pool.sync.stop (s.sys.pool.helper id) →
    i ∈ s.known.knows (.helper id)
  arrived : s.sys.pool.leader.isPublish = false → ∀ id i a,
    (s.sys.pool.helper id).parkedAt s.sys.pool.leader.slices = true → s.At i a →
    a.worker = .helper id → i ∈ s.known.message .arrived
  published : ∀ i a, s.At i a → a.slices < s.sys.pool.leader.slices →
    i ∈ s.known.message .generation
  gathered : Gathered s.sys.pool → ∀ i a, s.At i a → i ∈ s.known.knows .leader
  closing : ∀ i, s.At i (.trace s.sys.pool.leader.slices) → Sealed s.sys.pool

section Record
variable {loop : SegmentLoop} {inst : Instance} {s : Ordered loop inst}

theorem Informed.start (arena : Arena) : Informed (Ordered.start arena : Ordered loop inst) := by
  have hnone : ∀ i a, ¬ (Ordered.start arena : Ordered loop inst).At i a := by
    rintro i a ⟨known, h⟩
    cases h
  refine ⟨?_, ?_, ?_, ?_, ?_, ?_, ?_, ?_, ?_, ?_, ?_, ?_, ?_⟩
  · exact fun i a h => absurd h (hnone i a)
  · exact fun i a h => absurd h (hnone i a)
  · exact fun i worker k lane o write h => absurd h (hnone i _)
  · exact fun i worker k lane o write h => absurd h (hnone i _)
  · exact fun i j a b _ h _ => absurd h (hnone i a)
  · exact fun i j a b known _ h _ _ => absurd h (hnone i a)
  · exact fun i a id h _ => absurd h (hnone i a)
  · exact fun i a h _ => absurd h (hnone i a)
  · exact fun id i a h _ => absurd h (hnone i a)
  · exact fun _ id i a _ h _ => absurd h (hnone i a)
  · exact fun i a h _ => absurd h (hnone i a)
  · exact fun _ i a h => absurd h (hnone i a)
  · exact fun i h => absurd h (hnone i _)

variable {worker : Worker inst} {new : List (Access inst)}

theorem record_log {j : ℕ} {b : Access inst} {known : Set ℕ}
    (h : (s.record worker new).log[j]? = some (b, known)) :
    s.log[j]? = some (b, known) ∨
      (s.log.length ≤ j ∧ j < s.log.length + new.length ∧ b ∈ new ∧
        known = s.known.knows worker) := by
  change (s.log ++ new.map fun a => (a, s.known.knows worker))[j]? = _ at h
  by_cases hj : j < s.log.length
  · rw [List.getElem?_append_left hj] at h
    exact Or.inl h
  · rw [List.getElem?_append_right (Nat.le_of_not_lt hj), List.getElem?_map] at h
    obtain ⟨a, ha, he⟩ := Option.map_eq_some_iff.mp h
    cases he
    have hlt := (List.getElem?_eq_some_iff.mp ha).1
    exact Or.inr ⟨Nat.le_of_not_lt hj, by omega, List.mem_of_getElem? ha, rfl⟩

theorem record_at {i : ℕ} {a : Access inst} (h : (s.record worker new).At i a) :
    s.At i a ∨ (a ∈ new ∧ i ∈ (s.record worker new).known.knows worker) := by
  obtain ⟨known, h⟩ := h
  rcases record_log h with h | ⟨hle, hlt, hmem, -⟩
  · exact Or.inl ⟨known, h⟩
  · refine Or.inr ⟨hmem, ?_⟩
    change i ∈ (s.known.learn worker _).knows worker
    rw [learn_knows]
    exact Or.inr ⟨hle, hlt⟩

theorem at_lt {i : ℕ} {a : Access inst} (h : s.At i a) : i < s.log.length := by
  obtain ⟨known, h⟩ := h
  exact (List.getElem?_eq_some_iff.mp h).1

/-- What the accesses of a step must be for the invariant to go on. -/
structure Recordable (s : Ordered loop inst) (worker : Worker inst) (new : List (Access inst)) :
    Prop where
  worker_eq : ∀ a ∈ new, a.worker = worker
  slices_eq : ∀ a ∈ new, a.slices = s.sys.pool.leader.slices
  stage_eq : ∀ a ∈ new, ∀ b ∈ new, a.stage = b.stage
  stage_le : ∀ a ∈ new, ∀ i b, s.At i b → b.stage ≤ a.stage
  known : ∀ a ∈ new, ∀ i b, s.At i b → b.stage < a.stage → i ∈ s.known.knows worker
  claimed : ∀ w k lane o write, .block w k lane o write ∈ new →
    .claimed w k lane ∈ s.sys.pool.log
  placed : ∀ w k lane o write, .block w k lane o write ∈ new →
    Touches inst (slicePosition k lane) o ∧ (write = true → Writes inst (slicePosition k lane) o)
  helper : new ≠ [] → ∀ id, worker = .helper id → (s.sys.pool.helper id).present = true ∧
    (s.sys.pool.helper id).parkedAt s.sys.pool.leader.slices = false
  gathered : new ≠ [] → Gathered s.sys.pool → worker = .leader
  closing : .trace s.sys.pool.leader.slices ∈ new → Sealed s.sys.pool

theorem Recordable.nil : Recordable s worker [] where
  worker_eq := nofun
  slices_eq := nofun
  stage_eq := nofun
  stage_le := nofun
  known := nofun
  claimed := nofun
  placed := nofun
  helper h := absurd rfl h
  gathered h := absurd rfl h
  closing := nofun

theorem Informed.record (h : Informed s) (r : Recordable s worker new)
    (hplaced : ∀ id, horizon s.sys.pool.sync.stop (s.sys.pool.helper id) ≤
      s.sys.pool.leader.slices) : Informed (s.record worker new) := by
  have hmono : ∀ u, s.known.knows u ⊆ (s.record worker new).known.knows u :=
    fun u => learn_mono s.known worker _ u
  refine ⟨?_, ?_, ?_, ?_, ?_, ?_, ?_, ?_, ?_, ?_, ?_, ?_, ?_⟩
  · intro i a ha
    rcases record_at ha with hold | ⟨hnew, hi⟩
    · exact hmono _ (h.own i a hold)
    · rw [r.worker_eq a hnew]
      exact hi
  · intro i a ha
    rcases record_at ha with hold | ⟨hnew, -⟩
    · exact h.current i a hold
    · exact (r.slices_eq a hnew).le
  · intro i w k lane o write ha
    rcases record_at ha with hold | ⟨hnew, -⟩
    · exact h.claimed i w k lane o write hold
    · exact r.claimed w k lane o write hnew
  · intro i w k lane o write ha
    rcases record_at ha with hold | ⟨hnew, -⟩
    · exact h.placed i w k lane o write hold
    · exact r.placed w k lane o write hnew
  · intro i j a b hij ha hb
    obtain ⟨known, hb'⟩ := hb
    rcases record_log hb' with hb' | ⟨hle, -, hnewb, -⟩
    · rcases record_at ha with hold | ⟨-, -⟩
      · exact h.sorted i j a b hij hold ⟨known, hb'⟩
      · obtain ⟨known', ha'⟩ := ha
        rcases record_log ha' with ha' | ⟨hle, -⟩
        · exact h.sorted i j a b hij ⟨known', ha'⟩ ⟨known, hb'⟩
        · exact absurd (at_lt ⟨known, hb'⟩) (by omega)
    · rcases record_at ha with hold | ⟨hnewa, -⟩
      · exact r.stage_le b hnewb i a hold
      · exact (r.stage_eq a hnewa b hnewb).le
  · intro i j a b known hij ha hb hstage
    rcases record_log hb with hb' | ⟨-, -, hnewb, rfl⟩
    · obtain ⟨known', ha'⟩ := ha
      rcases record_log ha' with ha' | ⟨hle, -⟩
      · exact h.before i j a b known hij ⟨known', ha'⟩ hb' hstage
      · exact absurd (at_lt ⟨known, hb'⟩) (by omega)
    · rcases record_at ha with hold | ⟨hnewa, -⟩
      · exact r.known b hnewb i a hold hstage
      · exact absurd (r.stage_eq a hnewa b hnewb) hstage.ne
  · intro i a id ha hw
    rcases record_at ha with hold | ⟨hnew, -⟩
    · exact h.crew i a id hold hw
    · exact (r.helper (List.ne_nil_of_mem hnew) id ((r.worker_eq a hnew).symm.trans hw)).1
  · intro i a ha hlt
    rcases record_at ha with hold | ⟨hnew, -⟩
    · exact hmono _ (h.leader i a hold hlt)
    · exact absurd (r.slices_eq a hnew) hlt.ne
  · intro id i a ha hlt
    rcases record_at ha with hold | ⟨hnew, -⟩
    · exact hmono _ (h.helper id i a hold hlt)
    · exact absurd (r.slices_eq a hnew) (hlt.trans_le (hplaced id)).ne
  · intro hopen id i a hparked ha hw
    rcases record_at ha with hold | ⟨hnew, -⟩
    · exact h.arrived hopen id i a hparked hold hw
    · have hnot := (r.helper (List.ne_nil_of_mem hnew) id ((r.worker_eq a hnew).symm.trans hw)).2
      exact absurd (hnot.symm.trans hparked) nofun
  · intro i a ha hlt
    rcases record_at ha with hold | ⟨hnew, -⟩
    · exact h.published i a hold hlt
    · exact absurd (r.slices_eq a hnew) hlt.ne
  · intro g i a ha
    rcases record_at ha with hold | ⟨hnew, hi⟩
    · exact hmono _ (h.gathered g i a hold)
    · have hleader := r.gathered (List.ne_nil_of_mem hnew) g
      subst hleader
      exact hi
  · intro i ha
    rcases record_at ha with hold | ⟨hnew, -⟩
    · exact h.closing i hold
    · exact r.closing hnew

end Record

section Actions
variable {loop : SegmentLoop} {inst : Instance} {s : Ordered loop inst}

def Ordered.act (s : Ordered loop inst) (sys : System loop inst) (worker : Worker inst)
    (op : Op (Worker inst) Location) : Ordered loop inst :=
  { s with sys := sys, known := s.known.perform worker op }

theorem horizon_antitone (stop : Bool) (pc : Helper) : horizon true pc ≤ horizon stop pc := by
  cases pc with
  | checkStop k => exact Nat.zero_le _
  | _ => exact le_rfl

theorem enter_horizon (stop : Bool) (k : ℕ) : horizon stop (Helper.enter inst k) ≤ k :=
  Helper.enter_ind inst k (fun pc => horizon stop pc ≤ k) le_rfl (Nat.zero_le k)

section HelperMoves
variable {id : HelperId inst} {sync sync' : FillSync} {pc pc' : Helper}
  {evs : List (Event inst)}

theorem helperOp_keeps (pc : Helper) (loc : Location) :
    ¬ (helperOp pc : Op (Worker inst) Location).overwrites loc := by
  cases pc <;> exact id

/-- A helper learns of another slice only by its acquire of the generation. -/
theorem move_horizon (m : HelperMove inst id sync pc pc' sync' evs) :
    horizon sync.stop pc' ≤ horizon sync.stop pc ∨
      ∃ k, pc = .pollGeneration k ∧ sync.stop = false ∧ sync.generation = UInt32.ofNat (k + 1) ∧
        horizon sync.stop pc' = k + 1 := by
  cases m with
  | released k hgen =>
    cases hs : sync.stop with
    | true => exact Or.inl (Nat.zero_le k)
    | false => exact Or.inr ⟨k, rfl, rfl, hgen, rfl⟩
  | stopped k hs =>
    rw [hs]
    exact Or.inl (Nat.zero_le k)
  | entered k hs =>
    rw [hs]
    exact Or.inl (enter_horizon false (k + 1))
  | _ => exact Or.inl (by first | exact le_rfl | exact Nat.zero_le _)

theorem move_parked (m : HelperMove inst id sync pc pc' sync' evs) {K : ℕ}
    (h : pc'.parkedAt K = true) : pc.parkedAt K = true ∨ ∃ k, pc = .arrive k := by
  cases m with
  | arrived k => exact Or.inr ⟨k, rfl⟩
  | waited k _ => exact Or.inl h
  | parked k _ => exact Or.inl h
  | entered k _ => exact absurd ((Helper.enter_parkedAt (k + 1) K).symm.trans h) nofun
  | _ => cases h

theorem move_settled (m : HelperMove inst id sync pc pc' sync' evs) {K : ℕ}
    (hgen : sync.stop = false → sync.generation = UInt32.ofNat K)
    (h : Settled K sync.stop pc) : Settled K sync.stop pc' := by
  cases m with
  | released k hreleased =>
    have hk : k = K := h
    refine ⟨hk, ?_⟩
    by_contra hstop
    have hsame := hgen (Bool.eq_false_iff.mpr hstop)
    rw [hreleased, hk] at hsame
    exact ofNat_ne_succ K hsame.symm
  | waited k _ => exact h
  | stopped k hstop => exact ⟨h, hstop⟩
  | parked k _ => exact h
  | left k _ => trivial
  | entered k hstop => exact absurd (h.2.symm.trans hstop) nofun
  | _ => exact h.elim

end HelperMoves

theorem gathered_of_helperMove {s : State inst} (b : Barrier s) {id : HelperId inst} {pc : Helper}
    {sync : FillSync} {evs : List (Event inst)}
    (m : HelperMove inst id s.sync (s.helper id) pc sync evs)
    (g : Gathered (s.withHelper id (pc, sync, evs))) : Gathered s := by
  unfold Gathered at g ⊢
  change (match s.leader with
    | .pollLost _ a => s.spawned ≤ a
    | .checkLost _ => sync.lost ≤ helpers inst - s.spawned
    | .trace _ | .resetLane _ | .resetArrived _ | .publish _ => True
    | _ => False) at g
  cases hl : s.leader with
  | checkLost k =>
    rw [hl] at g
    have hchecked := b.checked k hl id
    generalize s.helper id = pc₀ at m hchecked
    cases m with
    | bailed j => rcases hchecked with h | h | h <;> cases h
    | _ => exact g
  | _ =>
    rw [hl] at g
    exact g

theorem Informed.helperMove (h : Informed s) (b : Barrier s.sys.pool) {id : HelperId inst}
    {pc : Helper} {sync : FillSync} {evs : List (Event inst)}
    (m : HelperMove inst id s.sys.pool.sync (s.sys.pool.helper id) pc sync evs) (arena : Arena)
    (calls : Worker inst → Option loop.Variables) :
    Informed (s.act ⟨s.sys.pool.withHelper id (pc, sync, evs), arena, calls⟩ (.helper id)
      (helperOp (s.sys.pool.helper id))) := by
  have hmono : ∀ u, s.known.knows u ⊆
      (s.known.perform (.helper id) (helperOp (s.sys.pool.helper id))).knows u :=
    fun u => perform_knows s.known _ _ u
  have hmessage : ∀ loc, s.known.message loc ⊆
      (s.known.perform (.helper id) (helperOp (s.sys.pool.helper id))).message loc :=
    fun loc => perform_message s.known _ (helperOp_keeps _ loc)
  have hstop : sync.stop = s.sys.pool.sync.stop := m.stop_eq.1
  have hself : Function.update s.sys.pool.helper id pc id = pc := Function.update_self _ _ _
  have hother : ∀ {id'}, id' ≠ id →
      Function.update s.sys.pool.helper id pc id' = s.sys.pool.helper id' :=
    fun hne => Function.update_of_ne hne _ _
  refine ⟨fun i a ha => hmono _ (h.own i a ha), h.current, ?_, h.placed, h.sorted, h.before, ?_,
    fun i a ha hlt => hmono _ (h.leader i a ha hlt), ?_, ?_,
    fun i a ha hlt => hmessage _ (h.published i a ha hlt), ?_, ?_⟩
  · intro i w k lane o write ha
    exact List.mem_append_right _ (h.claimed i w k lane o write ha)
  · intro i a id' ha hw
    change (Function.update s.sys.pool.helper id pc id').present = true
    by_cases he : id' = id
    · rw [he, hself]
      exact m.census.2.1
    · rw [hother he]
      exact h.crew i a id' ha hw
  · intro id' i a ha hlt
    change a.slices < horizon sync.stop (Function.update s.sys.pool.helper id pc id') at hlt
    rw [hstop] at hlt
    by_cases he : id' = id
    · subst he
      rw [hself] at hlt
      rcases move_horizon m with hle | ⟨k, hpc, hs, hgen, heq⟩
      · exact hmono _ (h.helper id' i a ha (hlt.trans_le hle))
      · have hK : k + 1 = s.sys.pool.leader.slices := by
          have hplaced := b.placed id'
          rw [hpc] at hplaced
          rcases hplaced with hk | hk
          · have hsame := b.generation hs
            rw [hgen, hk] at hsame
            exact absurd hsame.symm (ofNat_ne_succ _)
          · exact hk
        rw [heq, hK] at hlt
        have hmem := h.published i a ha hlt
        change i ∈ (s.known.perform (.helper id') (helperOp (s.sys.pool.helper id'))).knows
          (.helper id')
        rw [hpc]
        exact loadAcquire_knows s.known _ _ hmem
    · rw [hother he] at hlt
      exact hmono _ (h.helper id' i a ha hlt)
  · intro hopen id' i a hparked ha hw
    change (Function.update s.sys.pool.helper id pc id').parkedAt _ = true at hparked
    by_cases he : id' = id
    · subst he
      rw [hself] at hparked
      rcases move_parked m hparked with hold | ⟨k, hpc⟩
      · exact hmessage _ (h.arrived hopen id' i a hold ha hw)
      · have hown := h.own i a ha
        rw [hw] at hown
        change i ∈ (s.known.perform (.helper id') (helperOp (s.sys.pool.helper id'))).message
          .arrived
        rw [hpc]
        exact (addRelease_message s.known _ _).ge (Or.inr hown)
    · rw [hother he] at hparked
      exact hmessage _ (h.arrived hopen id' i a hparked ha hw)
  · intro g i a ha
    exact hmono _ (h.gathered (gathered_of_helperMove b m g) i a ha)
  · intro i ha
    obtain ⟨hleader, hsettled⟩ := h.closing i ha
    refine ⟨hleader, fun id' => ?_⟩
    change Settled s.sys.pool.leader.slices sync.stop (Function.update s.sys.pool.helper id pc id')
    rw [hstop]
    by_cases he : id' = id
    · subst he
      rw [hself]
      exact move_settled m b.generation (hsettled id')
    · rw [hother he]
      exact hsettled id'

section LeaderMoves
variable {traced : Bool} {spawned : UInt32} {sync sync' : FillSync} {pc pc' : Leader}
  {evs : List (Event inst)}

theorem move_slices (m : LeaderMove inst traced spawned sync pc pc' sync' evs) :
    (pc'.slices = pc.slices ∧ pc.isPublish = false) ∨
      ∃ k, pc = .publish k ∧ pc' = Leader.enter inst (k + 1) := by
  cases m with
  | charged => exact Or.inl ⟨Leader.enter_slices 0, rfl⟩
  | published k => exact Or.inr ⟨k, rfl, rfl⟩
  | _ => exact Or.inl ⟨rfl, rfl⟩

theorem move_stop (m : LeaderMove inst traced spawned sync pc pc' sync' evs) :
    sync'.stop = sync.stop ∨ sync'.stop = true := by
  cases m with
  | stopped k => exact Or.inr rfl
  | dropStopped k => exact Or.inr rfl
  | _ => exact Or.inl rfl

theorem settled_mono {K : ℕ} {stop stop' : Bool} {pc : Helper} (hstop : stop' = stop ∨ stop' = true)
    (h : Settled K stop pc) : Settled K stop' pc := by
  cases pc with
  | checkStop k =>
    refine ⟨h.1, ?_⟩
    rcases hstop with hs | hs
    · exact hs.trans h.2
    · exact hs
  | _ => exact h

theorem move_sealed (m : LeaderMove inst traced spawned sync pc pc' sync' evs)
    (h : pc.closed = true ∨ pc.leaving = true) :
    pc'.closed = true ∨ pc'.leaving = true ∨ ∃ k, pc = .publish k := by
  cases m with
  | returned k => exact Or.inl rfl
  | traceUnwound k => exact Or.inr (Or.inl rfl)
  | laneReset k => exact Or.inl rfl
  | arrivedReset k => exact Or.inl rfl
  | published k => exact Or.inr (Or.inr ⟨k, rfl⟩)
  | bumped k => exact Or.inr (Or.inl rfl)
  | dropStopped k => exact Or.inr (Or.inl rfl)
  | dropBumped k => exact Or.inr (Or.inl rfl)
  | _ => rcases h with h | h <;> cases h

/-- The leader takes facts away from `arrived` only when it resets the count. -/
theorem leaderOp_keeps_arrived (m : LeaderMove inst traced spawned sync pc pc' sync' evs)
    (h : pc'.isPublish = false) : ¬ (leaderOp pc : Op (Worker inst) Location).overwrites .arrived := by
  cases m with
  | arrivedReset k => cases h
  | stopped k => exact nofun
  | dropStopped k => exact nofun
  | laneReset k => exact nofun
  | published k => exact nofun
  | _ => exact id

theorem leaderOp_keeps_generation (h : pc.isPublish = false) :
    ¬ (leaderOp pc : Op (Worker inst) Location).overwrites .generation := by
  cases pc with
  | publish k => cases h
  | storeStop k => exact nofun
  | dropStop k => exact nofun
  | resetLane k => exact nofun
  | resetArrived k => exact nofun
  | _ => exact id

theorem enter_not_gathered {s : State inst} (k : ℕ) (h : s.leader = Leader.enter inst k) :
    ¬ Gathered s := by
  unfold Gathered
  rw [h]
  exact Leader.enter_ind inst k (fun pc => ¬ (match pc with
    | .pollLost _ a => s.spawned ≤ a
    | .checkLost _ => s.sync.lost ≤ helpers inst - s.spawned
    | .trace _ | .resetLane _ | .resetArrived _ | .publish _ => True
    | _ => False)) id id

theorem move_gathered {s : State inst} {r : Leader × FillSync × List (Event inst)}
    (hlanes : inst.lanes.toNat ≤ 0xFFFFFF) (roster : Roster s) (b : Barrier s)
    (m : LeaderMove inst traced s.spawned s.sync s.leader r.1 r.2.1 r.2.2)
    (g : Gathered (s.withLeader r)) : Gathered s ∨ ∃ k, s.leader = .pollArrived k := by
  obtain ⟨sync, spawned, leader, helper, log⟩ := s
  obtain ⟨pc, sync', evs⟩ := r
  dsimp only at m
  cases m with
  | polled k => exact Or.inr ⟨k, rfl⟩
  | released k a hle =>
    refine Or.inl ?_
    change spawned ≤ a
    change sync.lost ≤ helpers inst - spawned at g
    have hshort := roster.shortfall nofun
    have hsum := roster.present_add_refused nofun
    have hspawned := roster.spawned
    have hpolled := b.polled k a rfl
    have hparked := tally_le (Helper.parkedAt k) helper
    have hhelpers := @helpers_le inst
    rw [UInt32.le_iff_toNat_le, hshort] at g
    rw [UInt32.le_iff_toNat_le, UInt32.toNat_add] at hle
    rw [UInt32.le_iff_toNat_le]
    dsimp only [Leader.slices] at hspawned hpolled hshort hsum g
    have hsmall : a.toNat + sync.lost.toNat < 2 ^ 32 := by omega
    rw [Nat.mod_eq_of_lt hsmall] at hle
    omega
  | tracing k hlost hk ht => exact Or.inl (UInt32.not_lt.mp hlost)
  | untraced k hlost ht => exact Or.inl (UInt32.not_lt.mp hlost)
  | returned k => exact Or.inl trivial
  | laneReset k => exact Or.inl trivial
  | arrivedReset k => exact Or.inl trivial
  | charged => exact absurd g (enter_not_gathered 0 rfl)
  | published k => exact absurd g (enter_not_gathered (k + 1) rfl)
  | _ => exact g.elim

end LeaderMoves

theorem Informed.leaderMove (hlanes : inst.lanes.toNat ≤ 0xFFFFFF) (h : Informed s)
    (roster : Roster s.sys.pool) (b : Barrier s.sys.pool) {traced : Bool}
    {r : Leader × FillSync × List (Event inst)} (roster' : Roster (s.sys.pool.withLeader r))
    (b' : Barrier (s.sys.pool.withLeader r))
    (m : LeaderMove inst traced s.sys.pool.spawned s.sys.pool.sync s.sys.pool.leader r.1 r.2.1
      r.2.2) (arena : Arena) (calls : Worker inst → Option loop.Variables) :
    Informed (s.act ⟨s.sys.pool.withLeader r, arena, calls⟩ .leader
      (leaderOp s.sys.pool.leader)) := by
  have hmono : ∀ u, s.known.knows u ⊆
      (s.known.perform .leader (leaderOp s.sys.pool.leader)).knows u :=
    fun u => perform_knows s.known _ _ u
  have hall : ∀ k, s.sys.pool.leader = .publish k → ∀ i a, s.At i a →
      i ∈ s.known.knows .leader :=
    fun k hl => h.gathered (gathered_of_closed (by rw [hl]; rfl))
  refine ⟨fun i a ha => hmono _ (h.own i a ha), ?_, ?_, h.placed, h.sorted, h.before, h.crew, ?_,
    ?_, ?_, ?_, ?_, ?_⟩
  · intro i a ha
    change a.slices ≤ r.1.slices
    have hle := h.current i a ha
    rcases move_slices m with ⟨hK, -⟩ | ⟨k, hl, hl'⟩
    · rw [hK]
      exact hle
    · rw [hl] at hle
      rw [hl', Leader.enter_slices]
      exact Nat.le_succ_of_le hle
  · intro i w k lane o write ha
    exact List.mem_append_right _ (h.claimed i w k lane o write ha)
  · intro i a ha hlt
    change a.slices < r.1.slices at hlt
    rcases move_slices m with ⟨hK, -⟩ | ⟨k, hl, -⟩
    · rw [hK] at hlt
      exact hmono _ (h.leader i a ha hlt)
    · exact hmono _ (hall k hl i a ha)
  · intro id i a ha hlt
    change a.slices < horizon r.2.1.stop (s.sys.pool.helper id) at hlt
    refine hmono _ (h.helper id i a ha (hlt.trans_le ?_))
    rcases move_stop m with hs | hs <;> rw [hs]
    exact horizon_antitone _ _
  · intro hopen id i a hparked ha hw
    change r.1.isPublish = false at hopen
    change (s.sys.pool.helper id).parkedAt r.1.slices = true at hparked
    rcases move_slices m with ⟨hK, hpublish⟩ | ⟨k, hl, hl'⟩
    · rw [hK] at hparked
      exact perform_message s.known _ (leaderOp_keeps_arrived m hopen)
        (h.arrived hpublish id i a hparked ha hw)
    · have hsettled := b.settled (by rw [hl]; rfl) id
      rw [hl] at hsettled
      rw [hl', Leader.enter_slices] at hparked
      exact absurd ((Helper.not_parkedAt_succ hsettled).symm.trans hparked) nofun
  · intro i a ha hlt
    change a.slices < r.1.slices at hlt
    rcases move_slices m with ⟨hK, hpublish⟩ | ⟨k, hl, -⟩
    · rw [hK] at hlt
      exact perform_message s.known _ (leaderOp_keeps_generation hpublish)
        (h.published i a ha hlt)
    · change i ∈ (s.known.perform .leader (leaderOp s.sys.pool.leader)).message .generation
      rw [hl]
      exact (storeRelease_message s.known _ _).ge (hall k hl i a ha)
  · intro g i a ha
    rcases move_gathered hlanes roster b m g with hold | ⟨k, hl⟩
    · exact hmono _ (h.gathered hold i a ha)
    · cases hw : a.worker with
      | leader =>
        have hown := h.own i a ha
        rw [hw] at hown
        exact hmono _ hown
      | helper id =>
        have hparked := g.parked roster' b' (h.crew i a id ha hw)
        have hmem : i ∈ s.known.message .arrived := by
          refine h.arrived (by rw [hl]; rfl) id i a ?_ ha hw
          rcases move_slices m with ⟨hK, -⟩ | ⟨j, hl', -⟩
          · rw [← hK]
            exact hparked
          · rw [hl] at hl'
            cases hl'
        change i ∈ (s.known.perform .leader (leaderOp s.sys.pool.leader)).knows .leader
        rw [hl]
        exact loadAcquire_knows s.known _ _ hmem
  · intro i ha
    change s.At i (.trace r.1.slices) at ha
    rcases move_slices m with ⟨hK, hpublish⟩ | ⟨k, hl, hl'⟩
    · rw [hK] at ha
      obtain ⟨hleader, hsettled⟩ := h.closing i ha
      refine ⟨?_, fun id => ?_⟩
      · rcases move_sealed m hleader with hc | hc | ⟨k, hl⟩
        · exact Or.inl hc
        · exact Or.inr hc
        · rw [hl] at hpublish
          cases hpublish
      · change Settled r.1.slices r.2.1.stop (s.sys.pool.helper id)
        rw [hK]
        exact settled_mono (move_stop m) (hsettled id)
    · have hle := h.current i _ ha
      rw [hl] at hle
      rw [hl', Leader.enter_slices] at hle
      exact absurd hle (Nat.not_succ_le_self k)

theorem spawnOp_keeps {s : State inst} {i : ℕ} (hl : s.leader = .spawn i) (ok : Bool)
    (loc : Location) : ¬ (poolOp s ok .leader).overwrites loc := by
  unfold poolOp
  rw [hl]
  dsimp only
  split_ifs <;> exact id

theorem Informed.spawn (h : Informed s) (roster : Roster s.sys.pool) {id : HelperId inst}
    (hl : s.sys.pool.leader = .spawn id) (ok : Bool) (arena : Arena)
    (calls : Worker inst → Option loop.Variables) :
    Informed (s.act ⟨s.sys.pool.spawn id ok, arena, calls⟩ .leader
      (poolOp s.sys.pool ok .leader)) := by
  have hmono : ∀ u, s.known.knows u ⊆
      (s.known.perform .leader (poolOp s.sys.pool ok .leader)).knows u :=
    fun u => perform_knows s.known _ _ u
  have habsent := roster.unspawned id id hl le_rfl
  obtain ⟨pc, spawned, hspawn, hhorizon, hparked⟩ : ∃ pc spawned,
      s.sys.pool.spawn id ok = ⟨s.sys.pool.sync, spawned, .spawn (id + 1),
        Function.update s.sys.pool.helper id pc, s.sys.pool.log⟩ ∧
      (∀ stop, horizon stop pc = 0) ∧ ∀ K, pc.parkedAt K = false := by
    cases ok with
    | true =>
      exact ⟨Helper.enter inst 0, _, rfl, fun stop => Nat.le_zero.mp (enter_horizon stop 0),
        Helper.enter_parkedAt 0⟩
    | false => exact ⟨.refused, _, rfl, fun _ => rfl, fun _ => rfl⟩
  have hK : s.sys.pool.leader.slices = 0 := congrArg Leader.slices hl
  rw [hspawn]
  refine ⟨fun i a ha => hmono _ (h.own i a ha), ?_, h.claimed, h.placed, h.sorted, h.before, ?_,
    fun i a ha hlt => absurd hlt (Nat.not_lt_zero _), ?_, ?_,
    fun i a ha hlt => absurd hlt (Nat.not_lt_zero _), fun g => g.elim, ?_⟩
  · intro i a ha
    exact (h.current i a ha).trans_eq hK
  · intro i a id' ha hw
    have hcrew := h.crew i a id' ha hw
    change (Function.update s.sys.pool.helper id pc id').present = true
    by_cases he : id' = id
    · rw [he, habsent] at hcrew
      cases hcrew
    · rw [Function.update_of_ne he]
      exact hcrew
  · intro id' i a ha hlt
    change a.slices < horizon _ (Function.update s.sys.pool.helper id pc id') at hlt
    by_cases he : id' = id
    · rw [he, Function.update_self, hhorizon] at hlt
      exact absurd hlt (Nat.not_lt_zero _)
    · rw [Function.update_of_ne he] at hlt
      exact hmono _ (h.helper id' i a ha hlt)
  · intro _ id' i a hpark ha hw
    change (Function.update s.sys.pool.helper id pc id').parkedAt 0 = true at hpark
    by_cases he : id' = id
    · rw [he, Function.update_self, hparked] at hpark
      cases hpark
    · rw [Function.update_of_ne he, ← hK] at hpark
      exact perform_message s.known _ (spawnOp_keeps hl ok .arrived)
        (h.arrived (by rw [hl]; rfl) id' i a hpark ha hw)
  · intro i ha
    change s.At i (.trace 0) at ha
    rw [← hK] at ha
    have hsealed := (h.closing i ha).1
    rw [hl] at hsealed
    rcases hsealed with hc | hc <;> cases hc

theorem Informed.call (h : Informed s) {worker : Worker inst} (arena : Arena)
    (calls : Worker inst → Option loop.Variables) :
    Informed (s.act ⟨s.sys.pool, arena, calls⟩ worker .none) :=
  ⟨h.own, h.current, h.claimed, h.placed, h.sorted, h.before, h.crew, h.leader, h.helper,
    h.arrived, h.published, h.gathered, h.closing⟩

end Actions

section Steps
variable {loop : SegmentLoop} {inst : Instance} {s : Ordered loop inst}

theorem filling_fill {s : State inst} {id : HelperId inst} {k : ℕ} {lane : UInt32}
    (h : s.filling (.helper id) = some (k, lane)) : s.helper id = .fill k lane := by
  change (s.helper id).filling = _ at h
  cases hpc : s.helper id with
  | fill j lane' =>
    rw [hpc] at h
    cases h
    rfl
  | _ =>
    rw [hpc] at h
    cases h

theorem stage_lt {a : Access inst} {K : ℕ} (h : a.stage < 2 * K) : a.slices < K := by
  cases a with
  | block worker k lane o write =>
    change 2 * k < 2 * K at h
    change k < K
    omega
  | trace k =>
    change 2 * k + 1 < 2 * K at h
    change k < K
    omega

/-- While somebody fills, the callback has not been called for the slice. -/
theorem Informed.stage_le (h : Informed s) {worker : Worker inst} {k : ℕ} {lane : UInt32}
    (hw : s.sys.pool.filling worker = some (k, lane)) {i : ℕ} {a : Access inst} (ha : s.At i a) :
    a.stage ≤ 2 * s.sys.pool.leader.slices := by
  have hle := h.current i a ha
  cases a with
  | block w j lane' o write =>
    change 2 * j ≤ _
    change j ≤ _ at hle
    omega
  | trace j =>
    change 2 * j + 1 ≤ _
    change j ≤ _ at hle
    rcases Nat.lt_or_eq_of_le hle with hlt | rfl
    · omega
    · exact absurd (((h.closing i ha).filling worker).symm.trans hw) nofun

theorem touches_placed {traced : Bool} {arena : Arena} {sys : System loop inst}
    (hlanes : inst.lanes.toNat ≤ 0xFFFFFF) (hloop : loop.Lawful inst) (wf : WellFormed inst)
    (hsize : inst.memoryBlocks.toNat ≤ arena.size) (hreach : sys.Reachable traced arena)
    {worker : Worker inst} {k : ℕ} {lane o : UInt32} (hw : sys.pool.filling worker = some (k, lane))
    (ho : o ∈ sys.touches worker) :
    Touches inst (slicePosition k lane) o ∧
      (o ∈ sys.writes worker → Writes inst (slicePosition k lane) o) := by
  obtain ⟨rel, hf⟩ := hloop
  obtain ⟨order, t⟩ := hreach.tracks hlanes hf wf hsize
  have hfacts := hreach.facts hlanes
  obtain ⟨i, rfl⟩ := filling_lane hfacts.lanes hfacts.remembered hw
  have hk := filling_slices hfacts.barrier hw
  subst hk
  have hprogress : LaneProgress inst (slicePosition sys.pool.leader.slices (UInt32.ofNat i))
      ((sliceWorld arena sys.pool.leader.slices order).locals i) :=
    ⟨_, t.room i, sliceWorld_cursor arena _ wf order i (t.room i)⟩
  constructor
  · obtain ⟨k', lane', hw', htouch⟩ := System.mem_touches ho
    cases hw.symm.trans hw'
    rcases htouch with ⟨v, hv, hactive, htouch⟩ | hstart
    · have hrel := t.filling worker _ i v hw hv
      rw [hf.cursor hrel] at hactive
      rw [hf.access hrel] at htouch
      exact Or.inl ⟨_, _, hprogress, hactive, htouch⟩
    · exact Or.inr (List.mem_singleton.mp (hf.startReads _ hstart))
  · intro hwrite
    obtain ⟨k', lane', v, hw', hv, hactive, heq⟩ := System.mem_writes hwrite
    cases hw.symm.trans hw'
    have hrel := t.filling worker _ i v hw hv
    rw [hf.cursor hrel] at hactive
    rw [hf.access hrel] at heq
    exact ⟨_, _, hprogress, hactive, heq⟩

theorem accesses_filling {sys : System loop inst} {worker : Worker inst} {ok : Bool} {k : ℕ}
    {lane : UInt32} (hw : sys.pool.filling worker = some (k, lane)) {a : Access inst}
    (h : a ∈ accesses sys worker ok) :
    ∃ o ∈ sys.touches worker, a = .block worker k lane o (decide (o ∈ sys.writes worker)) := by
  unfold accesses at h
  rw [hw] at h
  dsimp only at h
  split_ifs at h
  · obtain ⟨o, ho, rfl⟩ := List.mem_map.mp h
    exact ⟨o, ho, rfl⟩
  · cases h

theorem accesses_idle {sys : System loop inst} {worker : Worker inst} {ok : Bool}
    (hw : sys.pool.filling worker = none) :
    accesses sys worker ok = [] ∨ ∃ k, worker = .leader ∧ sys.pool.leader = .trace k ∧
      accesses sys worker ok = [.trace k] := by
  unfold accesses
  rw [hw]
  cases worker with
  | helper id => exact Or.inl rfl
  | leader =>
    cases hl : sys.pool.leader with
    | trace k => exact Or.inr ⟨k, rfl, rfl, rfl⟩
    | _ => exact Or.inl rfl

theorem Informed.recordable {traced : Bool} {arena : Arena}
    (hlanes : inst.lanes.toNat ≤ 0xFFFFFF) (hloop : loop.Lawful inst) (wf : WellFormed inst)
    (hsize : inst.memoryBlocks.toNat ≤ arena.size) (hreach : s.sys.Reachable traced arena)
    (h : Informed s) (worker : Worker inst) (ok : Bool) :
    Recordable s worker (accesses s.sys worker ok) := by
  have hfacts := hreach.facts hlanes
  cases hw : s.sys.pool.filling worker with
  | none =>
    rcases accesses_idle hw with hnil | ⟨k, rfl, hl, htrace⟩
    · rw [hnil]
      exact Recordable.nil
    · rw [htrace]
      have hclosed : s.sys.pool.leader.closed = true := congrArg Leader.closed hl
      have hK : s.sys.pool.leader.slices = k := congrArg Leader.slices hl
      refine ⟨?_, ?_, ?_, ?_, ?_, ?_, ?_, fun _ id hid => (nomatch hid), fun _ _ => rfl,
        fun _ => sealed_of_closed hfacts.barrier hclosed⟩
      · intro a ha
        cases List.mem_singleton.mp ha
        rfl
      · intro a ha
        cases List.mem_singleton.mp ha
        exact hK.symm
      · intro a ha b hb
        cases List.mem_singleton.mp ha
        cases List.mem_singleton.mp hb
        rfl
      · intro a ha i b hb
        cases List.mem_singleton.mp ha
        have hle := h.current i b hb
        rw [hK] at hle
        cases b with
        | block w j lane o write =>
          change 2 * j ≤ 2 * k + 1
          change j ≤ k at hle
          omega
        | trace j =>
          change 2 * j + 1 ≤ 2 * k + 1
          change j ≤ k at hle
          omega
      · intro a ha i b hb _
        exact h.gathered (gathered_of_closed hclosed) i b hb
      · intro w j lane o write ha
        cases List.mem_singleton.mp ha
      · intro w j lane o write ha
        cases List.mem_singleton.mp ha
  | some call =>
    obtain ⟨k, lane⟩ := call
    have hk := filling_slices hfacts.barrier hw
    refine ⟨?_, ?_, ?_, ?_, ?_, ?_, ?_, ?_, ?_, ?_⟩
    · intro a ha
      obtain ⟨o, -, rfl⟩ := accesses_filling hw ha
      rfl
    · intro a ha
      obtain ⟨o, -, rfl⟩ := accesses_filling hw ha
      exact hk
    · intro a ha b hb
      obtain ⟨o, -, rfl⟩ := accesses_filling hw ha
      obtain ⟨o', -, rfl⟩ := accesses_filling hw hb
      rfl
    · intro a ha i b hb
      obtain ⟨o, -, rfl⟩ := accesses_filling hw ha
      change b.stage ≤ 2 * k
      rw [hk]
      exact h.stage_le hw hb
    · intro a ha i b hb hstage
      obtain ⟨o, -, rfl⟩ := accesses_filling hw ha
      have hlt : b.slices < k := stage_lt hstage
      cases worker with
      | leader =>
        rw [hk] at hlt
        exact h.leader i b hb hlt
      | helper id =>
        refine h.helper id i b hb ?_
        rw [filling_fill hw]
        exact hlt
    · intro w j lane' o write ha
      obtain ⟨o', -, he⟩ := accesses_filling hw ha
      cases he
      exact hfacts.remembered.filling worker k lane hw
    · intro w j lane' o write ha
      obtain ⟨o', ho', he⟩ := accesses_filling hw ha
      cases he
      obtain ⟨htouches, hwrites⟩ := touches_placed hlanes hloop wf hsize hreach hw ho'
      exact ⟨htouches, fun hwrite => hwrites (of_decide_eq_true hwrite)⟩
    · rintro - id rfl
      rw [filling_fill hw]
      exact ⟨rfl, rfl⟩
    · intro _ g
      cases worker with
      | leader => rfl
      | helper id =>
        exact absurd ((g.filling hfacts.roster hfacts.barrier id).symm.trans hw) nofun
    · intro ha
      obtain ⟨o, -, he⟩ := accesses_filling hw ha
      cases he

theorem poolOp_leader {s : State inst} {ok : Bool}
    (h : ∀ i, s.leader = .spawn i → (helpers inst).toNat ≤ i) :
    poolOp s ok .leader = leaderOp s.leader := by
  unfold poolOp
  cases hl : s.leader with
  | spawn i =>
    have hi := h i hl
    exact dif_neg fun hlt => absurd hlt.1 (Nat.not_lt_of_le hi)
  | _ => rfl

theorem poolOp_filling {s : State inst} {worker : Worker inst} {ok : Bool} {k : ℕ} {lane : UInt32}
    (hw : s.filling worker = some (k, lane)) : poolOp s ok worker = .none := by
  cases worker with
  | helper id =>
    change helperOp (s.helper id) = _
    rw [filling_fill hw]
    rfl
  | leader =>
    change s.leader.filling = _ at hw
    unfold poolOp
    cases hl : s.leader with
    | fill j lane' => rfl
    | _ =>
      rw [hl] at hw
      cases hw

theorem Informed.step {traced : Bool} {arena : Arena} (hlanes : inst.lanes.toNat ≤ 0xFFFFFF)
    (hloop : loop.Lawful inst) (wf : WellFormed inst)
    (hsize : inst.memoryBlocks.toNat ≤ arena.size) (hreach : s.sys.Reachable traced arena)
    (h : Informed s) {s' : Ordered loop inst} {worker : Worker inst} {ok : Bool}
    (hstep : s.step traced worker ok = some s') : Informed s' := by
  obtain ⟨sys, hsys, rfl⟩ := Option.map_eq_some_iff.mp hstep
  have hfacts := hreach.facts hlanes
  have hfacts' := (hreach.step worker ok hsys).facts hlanes
  have hrecord := h.record (h.recordable hlanes hloop wf hsize hreach worker ok)
    (fun id => horizon_le (hfacts.barrier.placed id))
  change Informed ((s.record worker (accesses s.sys worker ok)).act sys worker
    (poolOp s.sys.pool ok worker))
  rcases System.step_cases hsys with ⟨k, lane, hw, -, rfl⟩ | ⟨k, lane, v, hw, -, -, rfl⟩ |
    ⟨pool, hpool, -, rfl⟩
  · rw [poolOp_filling hw]
    exact hrecord.call _ _
  · rw [poolOp_filling hw]
    exact hrecord.call _ _
  · cases worker with
    | leader =>
      rcases step_leader hpool with ⟨id, hl, rfl⟩ | ⟨r, hr, hspawn, rfl⟩
      · exact hrecord.spawn hfacts.roster hl ok _ _
      · rw [poolOp_leader hspawn]
        exact hrecord.leaderMove hlanes hfacts.roster hfacts.barrier hfacts'.roster
          hfacts'.barrier (Leader.next_move inst hspawn hr) _ _
    | helper id =>
      obtain ⟨r, hr, rfl⟩ := step_helper hpool
      exact hrecord.helperMove hfacts.barrier (Helper.next_move inst hr) _ _

theorem Ordered.Reachable.informed {traced : Bool} {arena : Arena}
    (hlanes : inst.lanes.toNat ≤ 0xFFFFFF) (hloop : loop.Lawful inst) (wf : WellFormed inst)
    (hsize : inst.memoryBlocks.toNat ≤ arena.size) (h : s.Reachable traced arena) :
    Informed s := by
  induction h with
  | start => exact Informed.start arena
  | step worker ok hreach hstep ih => exact ih.step hlanes hloop wf hsize hreach.system hstep

end Steps

section Races
variable {loop : SegmentLoop} {inst : Instance} {s : Ordered loop inst}

/-- Two conflicting accesses, the earlier of which does not happen before the later. -/
def DataRace (s : Ordered loop inst) : Prop :=
  ∃ i j a b known, i < j ∧ s.At i a ∧ s.log[j]? = some (b, known) ∧ Conflict a b ∧ i ∉ known

theorem Informed.conflict_stage (h : Informed s) (l : Lanes s.sys.pool) (wf : WellFormed inst)
    {i j : ℕ} {a b : Access inst} (ha : s.At i a) (hb : s.At j b) (hconflict : Conflict a b) :
    a.stage ≠ b.stage := by
  obtain ⟨hne, o, hboth⟩ := hconflict
  intro hstage
  cases a with
  | trace k =>
    cases b with
    | trace k' => exact hne rfl
    | block w k' lane o' write =>
      change 2 * k + 1 = 2 * k' at hstage
      omega
  | block w k lane p write =>
    cases b with
    | trace k' =>
      change 2 * k = 2 * k' + 1 at hstage
      omega
    | block w' k' lane' p' write' =>
      have hk : k = k' := Nat.eq_of_mul_eq_mul_left (by decide) hstage
      subst hk
      have hclaim := h.claimed i w k lane p write ha
      have hclaim' := h.claimed j w' k lane' p' write' hb
      have hlanes : lane ≠ lane' := by
        rintro rfl
        exact hne (claimed_unique l hclaim hclaim')
      obtain ⟨htouches, hwrites⟩ := h.placed i w k lane p write ha
      obtain ⟨htouches', hwrites'⟩ := h.placed j w' k lane' p' write' hb
      have hs : InSlice inst (slicePosition k lane) :=
        ⟨claimed_lane l hclaim, slicePosition_slice k lane⟩
      have hs' : InSlice inst (slicePosition k lane') :=
        ⟨claimed_lane l hclaim', slicePosition_slice k lane'⟩
      rcases hboth with ⟨rfl, rfl, hwrite⟩ | ⟨⟨rfl, hwrite⟩, rfl⟩
      · exact writes_not_touches wf hs hs' rfl hlanes (hwrites' hwrite) htouches
      · exact writes_not_touches wf hs' hs rfl hlanes.symm (hwrites hwrite) htouches'

variable {w : PointerWidth} (algorithm : Algorithm) (version : Version) (p : Params w)
  (platform : Platform) (haveSsse3 : Bool) (uninit : Registers 2 64) (backend : Backend)

/-- The barrier's orderings are enough: in no run of the pool, with any backend, do two threads
access a block, one of them to write it, unless the earlier access happens before the later. The
trace callback is one of the readers. -/
theorem pooled_fill_race_free (traced : Bool) {arena : Arena}
    (hsize : arena.size = p.memoryBlocks.toNat)
    {s : Ordered (segmentLoop platform haveSsse3 uninit backend)
      (Instance.new algorithm version p)}
    (h : s.Reachable traced arena) : ¬ DataRace s := by
  have wf := new_wellFormed algorithm version p
  have hlanes : (Instance.new algorithm version p).lanes.toNat ≤ 0xFFFFFF := p.costs.lanes_le
  have hloop := segmentLoop_lawful platform haveSsse3 uninit backend wf
  have hfits : (Instance.new algorithm version p).memoryBlocks.toNat ≤ arena.size := hsize.ge
  have hinformed := h.informed hlanes hloop wf hfits
  have hfacts := h.system.facts hlanes
  rintro ⟨i, j, a, b, known, hij, ha, hb, hconflict, hunknown⟩
  have hle := hinformed.sorted i j a b hij ha ⟨known, hb⟩
  have hne := hinformed.conflict_stage hfacts.lanes wf ha ⟨known, hb⟩ hconflict
  exact hunknown (hinformed.before i j a b known hij ha hb (lt_of_le_of_ne hle hne))

theorem pooled_fill_race_free_two :
    ∃ s : Ordered (segmentLoop avx2Machine true blankRegisters .avx2) twoWorkers,
      s.Reachable true twoLanesArena ∧ (∃ k, s.sys.pool.leader = .finished k) ∧ ¬ DataRace s := by
  have hsize : twoLanesArena.size = Independence.twoLanes.memoryBlocks.toNat := countedArena_size _
  have wf := new_wellFormed .argon2id .v0x13 Independence.twoLanes
  have hloop := segmentLoop_lawful avx2Machine true blankRegisters .avx2 wf
  obtain ⟨r, h⟩ := fillMemoryBlocksTraced_returns true Independence.twoLanes.costs.lanes_le hloop wf
    hsize.ge true
  cases h with
  | noLanes h => exact absurd h (by decide)
  | @pooled _ hpool sys shown run k hfinished _ hreturns =>
    obtain ⟨s, hs, rfl⟩ := Ordered.Reachable.of_system run.reachable
    exact ⟨s, hs, ⟨k, hfinished⟩, pooled_fill_race_free _ _ _ _ _ _ _ true hsize hs⟩
  | sequential _ hpool => exact absurd ⟨rfl, by decide⟩ hpool

end Races

end Argon2Rust.PoolOrdering
