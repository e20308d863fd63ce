import Argon2Rust.Backends
import Argon2Rust.PoolOverflow
import Argon2Rust.PoolRefinement
import Argon2Rust.PoolTermination

set_option autoImplicit false

namespace Argon2Rust.PooledFill
open Parameters Compression IndexAlpha Segment ReferenceWindow Fill Pool SegmentLoops PoolMemory
  Backends RegisterBlock

/-- The calls of the trace callback: the pass and the arena it is shown. -/
abbrev Snapshots := List (ℕ × Arena)

section Runs
variable {loop : SegmentLoop} {inst : Instance}

def callback : Leader → Leader → List ℕ
  | .checkLost _, .trace k => [k / 4]
  | _, _ => []

def System.shows (s s' : System loop inst) : Snapshots :=
  (callback s.pool.leader s'.pool.leader).map fun pass => (pass, s'.arena)

/-- A run of the pool and its memory, with what the trace callback has been shown. -/
inductive Run (traced : Bool) (arena : Arena) : System loop inst → Snapshots → Prop
  | start : Run traced arena (System.start arena) []
  | step {s s' : System loop inst} {shown : Snapshots} (worker : Worker inst) (ok : Bool) :
      Run traced arena s shown → s.step traced worker ok = some s' →
      Run traced arena s' (shown ++ System.shows s s')

theorem Run.reachable {traced : Bool} {arena : Arena} {s : System loop inst} {shown : Snapshots}
    (h : Run traced arena s shown) : s.Reachable traced arena := by
  induction h with
  | start => exact .start
  | step worker ok _ hstep ih => exact ih.step worker ok hstep

theorem callback_self (pc : Leader) : callback pc pc = [] := by
  cases pc <;> rfl

section Moves
variable {sync sync' : FillSync} {evs : List (Event inst)}

theorem callback_move {traced : Bool} {spawned : UInt32} {pc pc' : Leader}
    (m : LeaderMove inst traced spawned sync pc pc' sync' evs) :
    (evs.filterMap Event.tracedPass).reverse = callback pc pc' := by
  cases m <;> rfl

end Moves

theorem tracedPasses_step {traced ok : Bool} {worker : Worker inst} {s s' : State inst}
    (h : s.step traced worker ok = some s') :
    s'.tracedPasses = s.tracedPasses ++ callback s.leader s'.leader := by
  rcases step_cases h with ⟨id, hl, rfl⟩ | ⟨r, m, rfl⟩ | ⟨id, r, m, rfl⟩
  · rw [hl]
    cases ok <;> exact (List.append_nil _).symm
  · unfold State.tracedPasses State.withLeader
    rw [List.filterMap_append, List.reverse_append, callback_move m]
  · have hquiet := @tracedPasses_quiet inst s (s.withHelper id r) r.2.2 rfl m.untraced
    change (s.withHelper id r).tracedPasses = _ ++ callback s.leader s.leader
    rw [hquiet, callback_self, List.append_nil]

variable {traced : Bool} {arena : Arena} {s : System loop inst} {shown : Snapshots}

theorem Run.shown_eq (hlanes : inst.lanes.toNat ≤ 0xFFFFFF) (hloop : loop.Lawful inst)
    (wf : WellFormed inst) (hsize : inst.memoryBlocks.toNat ≤ arena.size)
    (h : Run traced arena s shown) :
    shown = s.pool.tracedPasses.map fun r => (r, passesDone inst arena (r + 1)) := by
  induction h with
  | start => rfl
  | @step s s' shown worker ok hrun hstep ih =>
    have hreach' := hrun.reachable.step worker ok hstep
    have hcallback : System.shows s s' =
        (callback s.pool.leader s'.pool.leader).map
          fun r => (r, passesDone inst arena (r + 1)) := by
      unfold System.shows
      refine List.map_congr_left fun pass hpass => ?_
      cases hl' : s'.pool.leader with
      | trace k =>
        have hpassk : pass = k / 4 := by
          rw [hl'] at hpass
          cases hl : s.pool.leader <;> rw [hl] at hpass <;>
            first | exact absurd hpass List.not_mem_nil | exact List.mem_singleton.mp hpass
        rw [hpassk, hreach'.tracing hlanes hloop wf hsize hl']
      | _ =>
        rw [hl'] at hpass
        cases hl : s.pool.leader <;> rw [hl] at hpass <;> exact absurd hpass List.not_mem_nil
    rw [ih, hcallback]
    rcases System.step_cases hstep with ⟨k, lane, -, -, rfl⟩ | ⟨k, lane, v, -, -, -, rfl⟩ |
      ⟨pool, hpool, -, rfl⟩
    · change _ ++ (callback s.pool.leader s.pool.leader).map _ = _
      rw [callback_self]
      exact List.append_nil _
    · change _ ++ (callback s.pool.leader s.pool.leader).map _ = _
      rw [callback_self]
      exact List.append_nil _
    · rw [← List.map_append, ← tracedPasses_step hpool]

end Runs

section Sequential
variable (fill : Instance → Position → Arena → Arena) (inst : Instance)

def fillSliceSt (pass slice : UInt32) (arena : Arena) : Arena :=
  (List.range inst.lanes.toNat).foldl
    (fun arena lane => fill inst (lanePosition pass slice lane) arena) arena

/-- One iteration of the single-threaded loop over the passes, the callback included. -/
def tracedPass (traced : Bool) (x : Arena × Snapshots) (pass : ℕ) : Arena × Snapshots :=
  let arena := (List.range syncPoints.toNat).foldl
    (fun arena slice => fillSliceSt fill inst (UInt32.ofNat pass) (UInt32.ofNat slice) arena) x.1
  (arena, if traced then x.2 ++ [(pass, arena)] else x.2)

def tracedPasses (traced : Bool) (arena : Arena) : Arena × Snapshots :=
  (List.range inst.passes.toNat).foldl (tracedPass fill inst traced) (arena, [])

end Sequential

/-- The outcomes of `fill_memory_blocks_traced`; the loop is that of the backend. -/
inductive FillMemoryBlocksTraced (parallel traced : Bool) (loop : SegmentLoop) (inst : Instance)
    (arena : Arena) : Except Error (Arena × Snapshots) → Prop
  | noLanes (h : inst.lanes = 0) :
      FillMemoryBlocksTraced parallel traced loop inst arena (.error .incorrectParameter)
  | pooled (h : inst.lanes ≠ 0) (hpool : parallel = true ∧ usesPool inst = true)
      {s : System loop inst} {shown : Snapshots} (run : Run traced arena s shown) {k : ℕ}
      (hfinished : s.pool.leader = .finished k)
      (hjoined : ∀ id, s.pool.helper id = .refused ∨ s.pool.helper id = .done)
      (hreturns : ∀ worker k, .unwound worker k ∉ s.pool.log) :
      FillMemoryBlocksTraced parallel traced loop inst arena (.ok (s.arena, shown))
  | sequential (h : inst.lanes ≠ 0) (hpool : ¬ (parallel = true ∧ usesPool inst = true)) :
      FillMemoryBlocksTraced parallel traced loop inst arena
        (.ok (tracedPasses loop.fillSegment inst traced arena))

section Outcome
variable {loop : SegmentLoop} {inst : Instance} (hloop : loop.Lawful inst) (wf : WellFormed inst)
  {arena : Arena} (hsize : inst.memoryBlocks.toNat ≤ arena.size)
include hloop wf hsize

theorem fillSliceSt_eq (pass slice : UInt32) (hslice : slice.toNat < 4) :
    fillSliceSt loop.fillSegment inst pass slice arena = Fill.fillSliceSt inst pass slice arena ∧
      inst.memoryBlocks.toNat ≤ (Fill.fillSliceSt inst pass slice arena).size := by
  unfold fillSliceSt Fill.fillSliceSt
  have hlanes : ∀ m ≤ inst.lanes.toNat,
      (List.range m).foldl (fun arena lane =>
          loop.fillSegment inst (lanePosition pass slice lane) arena) arena =
        (List.range m).foldl (fun arena lane =>
          Segment.fillSegment inst (lanePosition pass slice lane) arena) arena ∧
      inst.memoryBlocks.toNat ≤ ((List.range m).foldl (fun arena lane =>
          Segment.fillSegment inst (lanePosition pass slice lane) arena) arena).size := by
    intro m hm
    induction m with
    | zero => exact ⟨rfl, hsize⟩
    | succ m ih =>
      obtain ⟨heq, hsize'⟩ := ih (Nat.le_of_succ_le hm)
      have hs : InSlice inst (lanePosition pass slice m) :=
        ⟨(lanePosition_lane m hm).trans_lt hm, hslice⟩
      rw [List.range_succ, List.foldl_concat, List.foldl_concat, heq,
        hloop.fillSegment wf hs hsize']
      exact ⟨rfl, hsize'.trans (fillSegment_size inst _ _).ge⟩
  exact hlanes _ le_rfl

theorem fillPass_eq (pass : UInt32) :
    (List.range syncPoints.toNat).foldl
        (fun arena slice => fillSliceSt loop.fillSegment inst pass (UInt32.ofNat slice) arena) arena =
      fillPass inst pass arena ∧
    inst.memoryBlocks.toNat ≤ (fillPass inst pass arena).size := by
  obtain ⟨h0, hs0⟩ := fillSliceSt_eq hloop wf hsize pass 0 (by decide)
  obtain ⟨h1, hs1⟩ := fillSliceSt_eq hloop wf hs0 pass 1 (by decide)
  obtain ⟨h2, hs2⟩ := fillSliceSt_eq hloop wf hs1 pass 2 (by decide)
  obtain ⟨h3, hs3⟩ := fillSliceSt_eq hloop wf hs2 pass 3 (by decide)
  refine ⟨?_, hs3⟩
  change fillSliceSt _ inst pass 3 (fillSliceSt _ inst pass 2 (fillSliceSt _ inst pass 1
    (fillSliceSt _ inst pass 0 arena))) = _
  rw [h0, h1, h2, h3]
  rfl

/-- What the callback is shown in a fill: after each pass the arena so far. -/
def snapshots (inst : Instance) (traced : Bool) (arena : Arena) : Snapshots :=
  if traced then (List.range inst.passes.toNat).map fun r => (r, passesDone inst arena (r + 1))
  else []

theorem tracedPasses_eq (traced : Bool) :
    tracedPasses loop.fillSegment inst traced arena =
      (fillPasses inst arena, snapshots inst traced arena) := by
  have hpasses : ∀ m, (List.range m).foldl (tracedPass loop.fillSegment inst traced) (arena, []) =
        (passesDone inst arena m,
          if traced then (List.range m).map fun r => (r, passesDone inst arena (r + 1)) else []) ∧
      inst.memoryBlocks.toNat ≤ (passesDone inst arena m).size := by
    intro m
    induction m with
    | zero => exact ⟨by cases traced <;> rfl, hsize⟩
    | succ m ih =>
      obtain ⟨heq, hsize'⟩ := ih
      obtain ⟨hpass, hsize''⟩ := fillPass_eq hloop wf hsize' (UInt32.ofNat m)
      have hsucc : passesDone inst arena (m + 1) =
          fillPass inst (UInt32.ofNat m) (passesDone inst arena m) := by
        unfold passesDone
        rw [List.range_succ, List.foldl_concat]
      rw [List.range_succ, List.foldl_concat, heq]
      refine ⟨?_, by rw [hsucc]; exact hsize''⟩
      unfold tracedPass
      dsimp only
      rw [hpass, ← hsucc]
      cases traced with
      | false => rfl
      | true =>
        rw [if_pos rfl, if_pos rfl, if_pos rfl, List.map_append]
        rfl
  exact (hpasses inst.passes.toNat).1

/-- Whatever the backend, the threads that start and the interleaving, `fill_memory_blocks_traced`
leaves the arena of the sequential fill, and shows the callback each pass once, in order. -/
theorem fillMemoryBlocksTraced_eq (hlanes : inst.lanes.toNat ≤ 0xFFFFFF) {parallel traced : Bool}
    {r : Except Error (Arena × Snapshots)}
    (h : FillMemoryBlocksTraced parallel traced loop inst arena r) :
    r = .ok (fillPasses inst arena, snapshots inst traced arena) := by
  cases h with
  | noLanes h =>
    have hpos := wf.lanes_pos
    rw [h] at hpos
    exact absurd hpos (Nat.lt_irrefl 0)
  | pooled h hpool run hfinished hjoined hreturns =>
    obtain ⟨harena, hpasses⟩ := run.reachable.ended hlanes hloop wf hsize (by rw [hfinished]; rfl)
      hreturns
    rw [harena, run.shown_eq hlanes hloop wf hsize, hpasses]
    unfold snapshots
    cases traced <;> rfl
  | sequential h hpool => rw [tracedPasses_eq hloop wf hsize]

end Outcome

section Completion
variable {loop : SegmentLoop} {inst : Instance} {traced : Bool} {arena : Arena}

theorem Run.finish_call (hlanes : inst.lanes.toNat ≤ 0xFFFFFF)
    {rel : Position → loop.Variables → SegmentState → Arena → Prop} (hf : loop.Follows inst rel)
    (wf : WellFormed inst) (hsize : inst.memoryBlocks.toNat ≤ arena.size)
    {w : Worker inst} {k : ℕ} {i : Fin inst.lanes.toNat} {order : List (Fin inst.lanes.toNat)}
    {s : System loop inst} {shown : Snapshots} {v : loop.Variables} (run : Run traced arena s shown)
    (t : Tracks rel arena s order) (hw : s.pool.filling w = some (k, UInt32.ofNat i))
    (hv : s.calls w = some v) :
    ∃ (s' : System loop inst) (shown' : Snapshots), Run traced arena s' shown' ∧ s'.pool = s.pool ∧
      ∃ v', s'.calls w = some v' ∧ ¬ (loop.cursor v').i < inst.segmentLength := by
  induction hn : blocks inst s.pool.leader.slices i - order.count i
    generalizing s shown v order with
  | zero =>
    have hroom := t.room i
    refine ⟨s, shown, run, rfl, v, hv, fun hactive => ?_⟩
    have hlt := (t.progress hf wf hw hv).2.mp hactive
    omega
  | succ n ih =>
    have hactive := (t.progress hf wf hw hv).2.mpr (by omega)
    have hstep : s.step traced w true =
        some (s.block w (slicePosition k (UInt32.ofNat i)) v) := by
      unfold System.step
      rw [hw, hv]
      exact if_pos hactive
    have hblock := t.block hf wf hsize (run.reachable.facts hlanes) hw hv hactive
    obtain ⟨s', shown', hrun', hpool', hdone⟩ := ih (run.step w true hstep) hblock hw
      (Function.update_self _ _ _) (by
        change blocks inst s.pool.leader.slices i - (order ++ [i]).count i = n
        rw [List.count_append, List.count_singleton_self]
        omega)
    exact ⟨s', shown', hrun', hpool', hdone⟩

/-- Whatever the pool can do next without unwinding, it can do with the memory. -/
theorem Run.lift (hlanes : inst.lanes.toNat ≤ 0xFFFFFF) (hloop : loop.Lawful inst)
    (wf : WellFormed inst) (hsize : inst.memoryBlocks.toNat ≤ arena.size) {s : System loop inst}
    {shown : Snapshots} (run : Run traced arena s shown) {w : Worker inst} {pool : State inst}
    (hpool : s.pool.step traced w true = some pool) :
    ∃ (s' : System loop inst) (shown' : Snapshots),
      Run traced arena s' shown' ∧ s'.pool = pool := by
  obtain ⟨rel, hf⟩ := hloop
  cases hw : s.pool.filling w with
  | none =>
    have hstep : s.step traced w true =
        some ⟨pool, s.arena, Function.update s.calls w none⟩ := by
      unfold System.step System.access
      rw [hw, hpool]
      rfl
    exact ⟨_, _, run.step w true hstep, rfl⟩
  | some call =>
    obtain ⟨k, lane⟩ := call
    obtain ⟨i, rfl⟩ := filling_lane (run.reachable.facts hlanes).lanes
      (run.reachable.facts hlanes).remembered hw
    have hcalled : ∃ (s₁ : System loop inst) (shown₁ : Snapshots) (v : loop.Variables),
        Run traced arena s₁ shown₁ ∧ s₁.pool = s.pool ∧ s₁.calls w = some v := by
      cases hv : s.calls w with
      | some v => exact ⟨s, shown, v, run, rfl, hv⟩
      | none =>
        have hstep : s.step traced w true =
            some (s.setUp w (slicePosition k (UInt32.ofNat i))) := by
          unfold System.step
          rw [hw, hv]
        exact ⟨_, _, _, run.step w true hstep, rfl, Function.update_self _ _ _⟩
    obtain ⟨s₁, shown₁, v, hrun₁, hpool₁, hv₁⟩ := hcalled
    obtain ⟨order, t⟩ := hrun₁.reachable.tracks hlanes hf wf hsize
    rw [← hpool₁] at hw hpool
    obtain ⟨s₂, shown₂, hrun₂, hpool₂, v', hv₂, hdone⟩ :=
      hrun₁.finish_call hlanes hf wf hsize t hw hv₁
    rw [← hpool₂] at hw hpool
    have hstep : s₂.step traced w true =
        some ⟨pool, s₂.arena, Function.update s₂.calls w none⟩ := by
      unfold System.step System.access
      rw [hw, hv₂, hpool]
      exact if_neg hdone
    exact ⟨_, _, hrun₂.step w true hstep, rfl⟩

theorem step_unwound {s s' : State inst} {w : Worker inst} (h : s.step traced w true = some s')
    (hnone : ∀ worker k, .unwound worker k ∉ s.log) : ∀ worker k, .unwound worker k ∉ s'.log := by
  have hnew : ∀ evs : List (Event inst), (∀ worker k, .unwound worker k ∉ evs) →
      ∀ worker k, .unwound worker k ∉ evs ++ s.log := by
    intro evs hevs worker k hmem
    rcases List.mem_append.mp hmem with hmem | hmem
    · exact hevs worker k hmem
    · exact hnone worker k hmem
  cases w with
  | leader =>
    rcases step_leader h with ⟨id, -, rfl⟩ | ⟨x, hx, hspawn, rfl⟩
    · exact hnone
    · refine hnew x.2.2 fun worker k hmem => ?_
      have hmove := Leader.next_move inst hspawn hx
      cases hl : s.leader with
      | fill j lane =>
        rw [hl] at hx
        cases hx
        cases List.mem_singleton.mp hmem
      | trace j =>
        rw [hl] at hx
        cases hx
        cases hmem
      | _ =>
        rw [hl] at hmove
        generalize x.2.2 = evs at hmove hmem
        generalize x.1 = pc at hmove
        generalize x.2.1 = sync at hmove
        cases hmove <;> exact absurd hmem (by simp)
  | helper id =>
    obtain ⟨x, hx, rfl⟩ := step_helper h
    refine hnew x.2.2 fun worker k hmem => ?_
    have hmove := Helper.next_move inst hx
    cases hpc : s.helper id with
    | fill j lane =>
      rw [hpc] at hx
      cases hx
      cases List.mem_singleton.mp hmem
    | _ =>
      rw [hpc] at hmove
      generalize x.2.2 = evs at hmove hmem
      generalize x.1 = pc at hmove
      generalize x.2.1 = sync at hmove
      cases hmove <;> exact absurd hmem (by simp)

theorem Run.lift_all (hlanes : inst.lanes.toNat ≤ 0xFFFFFF) (hloop : loop.Lawful inst)
    (wf : WellFormed inst) (hsize : inst.memoryBlocks.toNat ≤ arena.size)
    (schedule : List (Worker inst × Bool)) (hallowed : ∀ choice ∈ schedule, choice.2 = true)
    {s : System loop inst} {shown : Snapshots} (run : Run traced arena s shown)
    (hnone : ∀ worker k, .unwound worker k ∉ s.pool.log) {pool : State inst}
    (hrun : Ranking.run (choose traced) schedule s.pool = some pool) :
    ∃ (s' : System loop inst) (shown' : Snapshots), Run traced arena s' shown' ∧ s'.pool = pool ∧
      ∀ worker k, .unwound worker k ∉ pool.log := by
  induction schedule generalizing s shown with
  | nil =>
    cases hrun
    exact ⟨s, shown, run, rfl, hnone⟩
  | cons choice schedule ih =>
    obtain ⟨t, ht, hrest⟩ := (Ranking.run_cons _).mp hrun
    obtain ⟨w, ok⟩ := choice
    have hok : ok = true := hallowed (w, ok) List.mem_cons_self
    subst hok
    change s.pool.step traced w true = some t at ht
    obtain ⟨s₁, shown₁, hrun₁, rfl⟩ := run.lift hlanes hloop wf hsize ht
    exact ih (fun c hc => hallowed c (List.mem_cons_of_mem _ hc)) hrun₁ (step_unwound ht hnone)
      hrest

variable (traced) in
/-- `fill_memory_blocks_traced` can always return, whether or not it uses the pool. -/
theorem fillMemoryBlocksTraced_returns (hlanes : inst.lanes.toNat ≤ 0xFFFFFF)
    (hloop : loop.Lawful inst) (wf : WellFormed inst)
    (hsize : inst.memoryBlocks.toNat ≤ arena.size) (parallel : Bool) :
    ∃ r, FillMemoryBlocksTraced parallel traced loop inst arena r := by
  have hne : inst.lanes ≠ 0 := fun h => Nat.lt_irrefl 0 (wf.lanes_pos.trans_eq
    (congrArg UInt32.toNat h))
  by_cases hpool : parallel = true ∧ usesPool inst = true
  · obtain ⟨schedule, pool, hallowed, hrun, hfinished⟩ :=
      (poolRank hlanes traced).finishes
        (fun t ht => work_within_reach hlanes ht) .start
    obtain ⟨s, shown, hrun', rfl, hnone⟩ :=
      (Run.start : Run traced arena (System.start arena : System loop inst) []).lift_all
      hlanes hloop wf hsize schedule hallowed nofun hrun
    have facts := hrun'.reachable.facts hlanes
    have hleader : ∃ k, s.pool.leader = .finished k := by
      have h := hfinished .leader
      change s.pool.leader.finishes = true at h
      cases hl : s.pool.leader with
      | finished k => exact ⟨k, rfl⟩
      | _ =>
        rw [hl] at h
        cases h
    obtain ⟨k, hk⟩ := hleader
    refine ⟨_, .pooled hne hpool hrun' hk (fun id => ?_) hnone⟩
    have h := hfinished (.helper id)
    change (s.pool.helper id).finished = true at h
    cases hpc : s.pool.helper id with
    | refused => exact Or.inl rfl
    | done => exact Or.inr rfl
    | absent =>
      obtain ⟨i, hi, -⟩ := facts.roster.absent id hpc
      exact absurd (hk.symm.trans hi) nofun
    | dead j =>
      obtain ⟨j', hj'⟩ := facts.remembered.unwinding id (by rw [hpc]; rfl)
      exact absurd hj' (hnone _ _)
    | _ =>
      rw [hpc] at h
      cases h
  · exact ⟨_, .sequential hne hpool⟩

end Completion

def blankRegisters : Registers 2 64 := Vector.replicate 64 (Vector.replicate 2 0)

def twoLanesArena : Arena :=
  countedArena Independence.twoLanes.memoryBlocks.toNat

section Refinement
variable {w : PointerWidth} (algorithm : Algorithm) (version : Version) (p : Params w)
  (platform : Platform) (haveSsse3 : Bool) (uninit : Registers 2 64) (backend : Backend)

/-- However the threads interleave, fail to start or unwind: the arena is always that of the
sequential fill up to the leader's slice and of some interleaving of the lanes in it, no thread
touches a block that another one writes, and the callback has seen the arenas of the first passes
of the sequential fill, in their order. A run that ends without unwinding leaves the arena of the
sequential fill. -/
theorem pooled_fill_refines (traced : Bool) {arena : Arena}
    (hsize : arena.size = p.memoryBlocks.toNat)
    {s : System (segmentLoop platform haveSsse3 uninit backend)
      (Instance.new algorithm version p)}
    {shown : Snapshots} (run : Run traced arena s shown) :
    (∃ order : List (Fin (Instance.new algorithm version p).lanes.toNat),
      (∀ lane, order.count lane ≤
        blocks (Instance.new algorithm version p) s.pool.leader.slices lane) ∧
      s.arena = (sliceWorld arena s.pool.leader.slices order).shared) ∧
    (∀ worker worker', worker ≠ worker' → ∀ o ∈ s.writes worker, o ∉ s.touches worker') ∧
    (∃ m ≤ p.tCost.toNat, s.pool.tracedPasses = List.range m ∧
      shown = (List.range m).map fun r =>
        (r, passesDone (Instance.new algorithm version p) arena (r + 1))) ∧
    (s.pool.leader.ending = true → (∀ worker k, .unwound worker k ∉ s.pool.log) →
      s.arena = fillPasses (Instance.new algorithm version p) arena ∧
        shown = snapshots (Instance.new algorithm version p) traced arena) := by
  have wf := new_wellFormed algorithm version p
  have hlanes : (Instance.new algorithm version p).lanes.toNat ≤ 0xFFFFFF := p.costs.lanes_le
  have hloop := segmentLoop_lawful platform haveSsse3 uninit backend wf
  have hfits : (Instance.new algorithm version p).memoryBlocks.toNat ≤ arena.size := hsize.ge
  have hshown := run.shown_eq hlanes hloop wf hfits
  obtain ⟨m, hm, hpassed⟩ := (run.reachable.pool.barrierSafe hlanes).traced_in_order
  refine ⟨?_, ?_, ⟨m, hm, hpassed, by rw [hshown, hpassed]⟩, fun hend hreturns => ?_⟩
  · obtain ⟨rel, hf⟩ := hloop
    obtain ⟨order, t⟩ := run.reachable.tracks hlanes hf wf hfits
    exact ⟨order, t.room, t.shared.symm⟩
  · intro worker worker' hne o hwrite
    exact run.reachable.racefree hlanes hloop wf hfits hne hwrite
  · obtain ⟨harena, hpasses⟩ := run.reachable.ended hlanes hloop wf hfits hend hreturns
    refine ⟨harena, ?_⟩
    rw [hshown, hpasses]
    unfold snapshots
    cases traced <;> rfl

theorem pooled_fill_refines_two :
    ∃ (s : System (segmentLoop avx2Machine true blankRegisters .avx2) twoWorkers)
      (shown : Snapshots), Run true twoLanesArena s shown ∧
      s.arena = fillPasses twoWorkers twoLanesArena ∧
      shown = snapshots twoWorkers true twoLanesArena := by
  have hsize : twoLanesArena.size = Independence.twoLanes.memoryBlocks.toNat := countedArena_size _
  have wf := new_wellFormed .argon2id .v0x13 Independence.twoLanes
  have hloop := segmentLoop_lawful avx2Machine true blankRegisters .avx2 wf
  obtain ⟨r, h⟩ := fillMemoryBlocksTraced_returns true
    Independence.twoLanes.costs.lanes_le hloop wf hsize.ge true
  cases h with
  | noLanes h => exact absurd h (by decide)
  | @pooled _ hpool s shown run k hfinished _ hreturns =>
    exact ⟨s, shown, run, (pooled_fill_refines _ _ _ _ _ _ _ true hsize run).2.2.2
      (by rw [hfinished]; rfl) hreturns⟩
  | sequential _ hpool => exact absurd ⟨rfl, by decide⟩ hpool

end Refinement

end Argon2Rust.PooledFill
