import Argon2Rust.Avx2
import Argon2Rust.Avx512
import Argon2Rust.Neon
import Argon2Rust.Sse2
import Argon2Rust.Wasm128

set_option autoImplicit false

/-!
# The loop inside `fill_segment`

A backend's `fill_segment` seen from outside its loop body: the variables it
keeps between two iterations, how it sets them up, and one iteration on them and
the arena. A loop `Follows` the scalar one if its variables stand for the scalar
variables, in a way that only the previous block of the own lane can disturb, so
that the two can be run side by side while other lanes write to the arena.
-/
namespace Argon2Rust.SegmentLoops
open Parameters Compression IndexAlpha Segment ReferenceWindow RegisterBlock CarriedSegment

structure SegmentLoop where
  Variables : Type
  cursor : Variables → Cursor
  start : Instance → Position → Arena → Variables
  /-- The block read before the first iteration, if there is one. -/
  startReads : Instance → Position → List UInt32
  /-- The pseudo-random value of the next iteration and its rotated cursor. -/
  draw : Instance → Position → Variables × Arena → UInt64 × Cursor
  blockStep : Instance → Position → Variables × Arena → Variables × Arena

namespace SegmentLoop
variable (loop : SegmentLoop)

def access (inst : Instance) (pos : Position) (x : loop.Variables × Arena) : Access :=
  let d := loop.draw inst pos x
  ⟨d.2.prevOffset, refOffset inst pos d.2.i d.1, d.2.currOffset⟩

def fillSegment (inst : Instance) (pos : Position) (arena : Arena) : Arena :=
  if inst.laneLength = 0 ∨ inst.lanes = 0 then arena
  else ((loop.blockStep inst pos)^[inst.segmentLength.toNat]
    (loop.start inst pos arena, arena)).2

end SegmentLoop

def plainLoop (ops : PlainSegment.BlockOps) : SegmentLoop where
  Variables := SegmentState
  cursor := SegmentState.cursor
  start inst pos _ := PlainSegment.segmentStart ops.nextAddresses inst pos
  startReads _ _ := []
  draw inst pos x :=
    let d := PlainSegment.draw ops.nextAddresses inst pos x.1 x.2
    (d.1, d.2.cursor)
  blockStep := PlainSegment.blockStep ops

section Carried
variable {n m : ℕ}

def carriedLoop (p : Passes n m) : SegmentLoop where
  Variables := CarriedState n m
  cursor v := v.cursor
  start := CarriedSegment.segmentStart p
  startReads inst pos := [(segmentVariables p inst pos).cursor.prevOffset]
  draw inst pos x :=
    let d := CarriedSegment.draw p inst pos x.1.toSegmentState x.2
    (d.1, d.2.cursor)
  blockStep := CarriedSegment.blockStep p

end Carried

def scalarLoop : SegmentLoop := plainLoop PlainSegment.BlockOps.scalar

def wasm128Loop : SegmentLoop := plainLoop Wasm128.ops

def sse2Loop (haveSsse3 : Bool) : SegmentLoop := carriedLoop (Sse2.passes haveSsse3)

def avx2Loop : SegmentLoop := carriedLoop Avx2.passes

/-- The carried loop that also remembers which blocks it has prefetched. -/
def avx512Loop : SegmentLoop where
  Variables := CarriedState 8 16 × List UInt32
  cursor v := v.1.cursor
  start inst pos arena := (CarriedSegment.segmentStart Avx512.passes inst pos arena, [])
  startReads inst pos := [(segmentVariables Avx512.passes inst pos).cursor.prevOffset]
  draw inst pos x :=
    let d := CarriedSegment.draw Avx512.passes inst pos x.1.1.toSegmentState x.2
    (d.1, d.2.cursor)
  blockStep inst pos x :=
    let r := Avx512.blockStep inst pos ((x.1.1, x.2), x.1.2)
    ((r.1.1, r.2), r.1.2)

def neonLoop (sha3 : Bool) (uninit : Registers 2 64) : SegmentLoop where
  Variables := CarriedState 2 64
  cursor v := v.cursor
  start := Neon.segmentStart false .uzpPair sha3 .fused2 uninit
  startReads inst pos :=
    [(PlainSegment.segmentStart (Neon.ops false .uzpPair sha3 .fused2 uninit).nextAddresses inst
      pos).cursor.prevOffset]
  draw inst pos x :=
    let d := PlainSegment.draw (Neon.ops false .uzpPair sha3 .fused2 uninit).nextAddresses inst pos
      x.1.toSegmentState x.2
    (d.1, d.2.cursor)
  blockStep := Neon.blockStep false .uzpPair sha3 .fused2 uninit

section Functions
variable (inst : Instance) (pos : Position)

theorem scalarLoop_fillSegment : scalarLoop.fillSegment inst pos = Segment.fillSegment inst pos :=
  PlainSegment.fillSegment_scalar inst pos

theorem wasm128Loop_fillSegment :
    wasm128Loop.fillSegment inst pos = Wasm128.fillSegment inst pos := rfl

theorem sse2Loop_fillSegment (haveSsse3 : Bool) :
    (sse2Loop haveSsse3).fillSegment inst pos = Sse2.fillSegment haveSsse3 inst pos := by
  cases haveSsse3 <;> rfl

theorem avx2Loop_fillSegment : avx2Loop.fillSegment inst pos = Avx2.fillSegment inst pos := rfl

theorem neonLoop_fillSegment (sha3 : Bool) (uninit : Registers 2 64) :
    (neonLoop sha3 uninit).fillSegment inst pos = Neon.fillSegment sha3 uninit inst pos := rfl

/-- Where the backend has its list of hints, the loop has it among its variables. -/
theorem avx512Loop_fillSegment :
    avx512Loop.fillSegment inst pos = Avx512.fillSegment inst pos := by
  funext arena
  have hsemiconj : Function.Semiconj
      (fun x : (CarriedState 8 16 × List UInt32) × Arena => ((x.1.1, x.2), x.1.2))
      (avx512Loop.blockStep inst pos) (Avx512.blockStep inst pos) := fun x => rfl
  have hrun := hsemiconj.iterate_right inst.segmentLength.toNat
    (avx512Loop.start inst pos arena, arena)
  unfold SegmentLoop.fillSegment Avx512.fillSegment Avx512.fillSegmentImpl Avx512.loop
  by_cases h : inst.laneLength = 0 ∨ inst.lanes = 0
  · rw [if_pos h, if_pos h]
  · rw [if_neg h, if_neg h]
    exact congrArg (fun x : Avx512.Run => x.1.2) hrun

end Functions

/-- The loop's variables `v` stand for the scalar variables `s` over an arena. Setting up
and iterating keeps this, and so does a store to any block but the previous one. -/
structure SegmentLoop.Follows (loop : SegmentLoop) (inst : Instance)
    (rel : Position → loop.Variables → SegmentState → Arena → Prop) : Prop where
  cursor : ∀ {pos v s arena}, rel pos v s arena → loop.cursor v = s.cursor
  access : ∀ {pos v s arena}, rel pos v s arena →
    loop.access inst pos (v, arena) = Segment.access inst pos s arena
  startReads : ∀ pos, loop.startReads inst pos ⊆ [(Cursor.start inst pos).prevOffset]
  start : ∀ {pos}, InSlice inst pos → ∀ arena : Arena,
    rel pos (loop.start inst pos arena) (Segment.segmentStart inst pos) arena
  step : ∀ {pos}, InSlice inst pos → ∀ {v s arena k}, inst.memoryBlocks.toNat ≤ arena.size →
    k < segmentBlocks inst pos → s.cursor = Cursor.at inst pos k → rel pos v s arena →
    (loop.blockStep inst pos (v, arena)).2 = (Segment.blockStep inst pos (s, arena)).2 ∧
      rel pos (loop.blockStep inst pos (v, arena)).1 (Segment.blockStep inst pos (s, arena)).1
        (Segment.blockStep inst pos (s, arena)).2
  done : ∀ {pos} (x : loop.Variables × Arena), ¬ (loop.cursor x.1).i < inst.segmentLength →
    loop.blockStep inst pos x = x
  stable : ∀ {pos v s arena}, rel pos v s arena → ∀ o b,
    (s.cursor.i < inst.segmentLength → o ≠ (s.cursor.rotate inst).prevOffset) →
    rel pos v s (arena.store o b)

section Follows
variable {inst : Instance}

theorem segmentStart_cursor (pos : Position) :
    (Segment.segmentStart inst pos).cursor = Cursor.start inst pos := by
  unfold Segment.segmentStart
  dsimp only
  split_ifs <;> rfl

theorem plain_follows {ops : PlainSegment.BlockOps} (hops : ops = PlainSegment.BlockOps.scalar) :
    (plainLoop ops).Follows inst fun _ v s _ => v = s := by
  subst hops
  refine ⟨congrArg SegmentState.cursor, ?_, fun _ => List.nil_subset _, fun _ _ => rfl, ?_,
    fun x h => if_neg h, fun h _ _ _ => h⟩
  · rintro pos v s arena rfl
    rfl
  · rintro pos - v s arena k - - - rfl
    exact ⟨rfl, rfl⟩

section Carried
variable {n m : ℕ} {p : Passes n m}

/-- The registers hold the previous block of the iteration that comes next, if one does. -/
def Carries (inst : Instance) (v : CarriedState n m) (s : SegmentState) (arena : Arena) : Prop :=
  v.toSegmentState = s ∧
    (s.cursor.i < inst.segmentLength → store v.state = prevBlock inst s.cursor arena)

variable (hp : p.Scalar) (wf : WellFormed inst)
include hp wf

theorem carries_start {pos : Position} (hs : InSlice inst pos) (arena : Arena) :
    Carries inst (CarriedSegment.segmentStart p inst pos arena) (Segment.segmentStart inst pos)
      arena := by
  refine ⟨segmentVariables_eq hp inst pos, fun hactive => ?_⟩
  have hc : (Segment.segmentStart inst pos).cursor = Cursor.at inst pos 0 :=
    segmentStart_cursor pos
  have hpos := (Fill.active_iff wf hs (Nat.zero_le _) hc).mp hactive
  change store (load (arena.block (segmentVariables p inst pos).cursor.prevOffset)) = _
  rw [store_load hp.size, segmentVariables_eq hp, segmentStart_cursor]
  unfold prevBlock
  rw [start_rotate wf hs hpos]

theorem carries_step {pos : Position} (hs : InSlice inst pos) {v : CarriedState n m}
    {s : SegmentState} {arena : Arena} {k : ℕ} (hsize : inst.memoryBlocks.toNat ≤ arena.size)
    (hk : k < segmentBlocks inst pos) (hc : s.cursor = Cursor.at inst pos k)
    (h : Carries inst v s arena) :
    (CarriedSegment.blockStep p inst pos (v, arena)).2 =
        (Segment.blockStep inst pos (s, arena)).2 ∧
      Carries inst (CarriedSegment.blockStep p inst pos (v, arena)).1
        (Segment.blockStep inst pos (s, arena)).1 (Segment.blockStep inst pos (s, arena)).2 := by
  obtain ⟨rfl, hcarried⟩ := h
  have hactive := (Fill.active_iff wf hs hk.le hc).mpr hk
  obtain ⟨hscalar, hstate⟩ :=
    CarriedSegment.blockStep_active hp inst pos (x := (v, arena)) hactive (hcarried hactive)
  have hvariables := congrArg Prod.fst hscalar
  refine ⟨congrArg Prod.snd hscalar, hvariables, fun hnext => ?_⟩
  change (Segment.blockStep inst pos (v.toSegmentState, arena)).1.cursor.i < _ at hnext
  have hc' : (Segment.blockStep inst pos (v.toSegmentState, arena)).1.cursor =
      Cursor.at inst pos (k + 1) := by
    rw [blockStep_cursor _ _ _ hactive, hc, Cursor.at_succ]
  have hk' := (Fill.active_iff wf hs (Nat.succ_le_of_lt hk) hc').mp hnext
  have hbound := (accessAt_bounds wf hs k hk 0).1
  have hstored : (Segment.blockStep inst pos (v.toSegmentState, arena)).2 =
      arena.store ((Cursor.at inst pos k).rotate inst).currOffset
        (Fill.newBlock inst pos v.toSegmentState arena) := by
    rw [Fill.blockStep_active _ _ _ _ hactive]
    dsimp only
    rw [access_eq_accessAt _ _ _ _ k hc]
    rfl
  rw [hstate]
  unfold prevBlock
  rw [hc', hstored, prevOffset_next wf hs k hk']
  exact (block_store_self _ _ _ (hbound.trans_le hsize)).symm

omit hp wf in
theorem carries_store {v : CarriedState n m} {s : SegmentState} {arena : Arena}
    (h : Carries inst v s arena) (o : UInt32) (b : Block)
    (ho : s.cursor.i < inst.segmentLength → o ≠ (s.cursor.rotate inst).prevOffset) :
    Carries inst v s (arena.store o b) := by
  refine ⟨h.1, fun hactive => (h.2 hactive).trans ?_⟩
  unfold prevBlock
  rw [Fill.block_store_of_ne _ _ _ _ (ho hactive)]

omit wf in
theorem carries_access {pos : Position} {v : CarriedState n m} {s : SegmentState} {arena : Arena}
    (h : Carries inst v s arena) :
    (carriedLoop p).access inst pos (v, arena) = Segment.access inst pos s arena := by
  obtain ⟨rfl, -⟩ := h
  unfold SegmentLoop.access carriedLoop
  dsimp only
  rw [CarriedSegment.draw_eq hp inst pos]
  rfl

omit wf in
theorem carries_startReads (pos : Position) :
    [(segmentVariables p inst pos).cursor.prevOffset] ⊆ [(Cursor.start inst pos).prevOffset] := by
  rw [segmentVariables_eq hp, segmentStart_cursor]
  exact List.Subset.refl _

theorem carried_follows :
    (carriedLoop p).Follows inst fun _ v s arena => Carries inst v s arena where
  cursor h := congrArg SegmentState.cursor h.1
  access := carries_access hp
  startReads := carries_startReads hp
  start := carries_start hp wf
  step := carries_step hp wf
  done x h := CarriedSegment.blockStep_done p inst _ x h
  stable := carries_store

end Carried

/-- What the variables of a loop stand for in a given instance. -/
def SegmentLoop.Lawful (loop : SegmentLoop) (inst : Instance) : Prop :=
  ∃ rel, loop.Follows inst rel

theorem scalar_lawful : scalarLoop.Lawful inst := ⟨_, plain_follows rfl⟩

theorem wasm128_lawful : wasm128Loop.Lawful inst := ⟨_, plain_follows Wasm128.ops_scalar⟩

variable (wf : WellFormed inst)
include wf

theorem sse2_lawful (haveSsse3 : Bool) : (sse2Loop haveSsse3).Lawful inst :=
  ⟨_, carried_follows (Sse2.passes_scalar haveSsse3) wf⟩

theorem avx2_lawful : avx2Loop.Lawful inst := ⟨_, carried_follows Avx2.passes_scalar wf⟩

/-- The hints are forgotten; without them the loop is the carried one. -/
theorem avx512_lawful : avx512Loop.Lawful inst := by
  refine ⟨fun _ v s arena => Carries inst v.1 s arena, fun h => congrArg SegmentState.cursor h.1,
    carries_access Avx512.passes_scalar, carries_startReads Avx512.passes_scalar,
    carries_start Avx512.passes_scalar wf, ?_, fun {pos} x h => ?_, carries_store⟩
  · intro pos hs v s arena k hsize hk hc h
    have hcarried := carries_step Avx512.passes_scalar wf hs hsize hk hc h
    rw [← Avx512.blockStep_fst ((v.1, arena), v.2)] at hcarried
    exact hcarried
  · have hdone := @Avx512.blockStep_done inst pos ((x.1.1, x.2), x.1.2) h
    exact congrArg (fun r : Avx512.Run => ((r.1.1, r.2), r.1.2)) hdone

theorem neon_lawful (sha3 : Bool) (uninit : Registers 2 64) :
    (neonLoop sha3 uninit).Lawful inst := by
  have hp := Neon.passes_scalar false .uzpPair sha3
  have hvariables := Neon.variables_scalar false .uzpPair sha3 .fused2 uninit inst
  refine ⟨fun _ v s arena => Carries inst v s arena, fun h => congrArg SegmentState.cursor h.1,
    ?_, fun pos => ?_, ?_, ?_, fun _ h => if_neg h, carries_store⟩
  · rintro pos v s arena ⟨rfl, -⟩
    unfold SegmentLoop.access neonLoop
    dsimp only
    rw [Neon.draw_scalar]
    rfl
  · change [(PlainSegment.segmentStart _ inst pos).cursor.prevOffset] ⊆ _
    rw [hvariables, segmentStart_cursor]
    exact List.Subset.refl _
  · intro pos hs arena
    have hstart : Neon.segmentStart false .uzpPair sha3 .fused2 uninit inst pos arena =
        CarriedSegment.segmentStart (Neon.passes false .uzpPair sha3) inst pos arena := by
      unfold Neon.segmentStart CarriedSegment.segmentStart
      rw [hvariables, segmentVariables_eq hp]
      rfl
    change Carries inst (Neon.segmentStart false .uzpPair sha3 .fused2 uninit inst pos arena) _ _
    rw [hstart]
    exact carries_start hp wf hs arena
  · intro pos hs v s arena k hsize hk hc h
    have hcarried := carries_step hp wf hs hsize hk hc h
    rw [← Neon.blockStep_carried false .uzpPair sha3 .fused2 uninit inst pos nofun] at hcarried
    exact hcarried

end Follows

section Alone
variable {loop : SegmentLoop} {inst : Instance}
  {rel : Position → loop.Variables → SegmentState → Arena → Prop}

/-- With the arena to itself a loop keeps up with the scalar one, block by block. -/
theorem SegmentLoop.Follows.iterate (hf : loop.Follows inst rel) (wf : WellFormed inst)
    {pos : Position} (hs : InSlice inst pos) {arena : Arena}
    (hsize : inst.memoryBlocks.toNat ≤ arena.size) (k : ℕ) (hk : k ≤ segmentBlocks inst pos) :
    ((loop.blockStep inst pos)^[k] (loop.start inst pos arena, arena)).2 =
        ((Segment.blockStep inst pos)^[k] (Segment.segmentStart inst pos, arena)).2 ∧
      rel pos ((loop.blockStep inst pos)^[k] (loop.start inst pos arena, arena)).1
        ((Segment.blockStep inst pos)^[k] (Segment.segmentStart inst pos, arena)).1
        ((Segment.blockStep inst pos)^[k] (Segment.segmentStart inst pos, arena)).2 := by
  induction k with
  | zero => exact ⟨rfl, hf.start hs arena⟩
  | succ k ih =>
    obtain ⟨harena, hrel⟩ := ih (by omega)
    have hc := iterate_cursor inst pos arena k (by omega) wf hs
    have hsize' := (CarriedSegment.iterate_size inst pos
      (Segment.segmentStart inst pos, arena) k).ge
    rw [Function.iterate_succ_apply', Function.iterate_succ_apply']
    generalize (loop.blockStep inst pos)^[k] (loop.start inst pos arena, arena) = x
      at harena hrel ⊢
    generalize (Segment.blockStep inst pos)^[k] (Segment.segmentStart inst pos, arena) = y
      at harena hrel hc hsize' ⊢
    obtain ⟨v, a⟩ := x
    obtain ⟨s, b⟩ := y
    dsimp only at harena
    subst harena
    exact hf.step hs (hsize.trans hsize') hk hc hrel

theorem SegmentLoop.Lawful.fillSegment (h : loop.Lawful inst) (wf : WellFormed inst)
    {pos : Position} (hs : InSlice inst pos) {arena : Arena}
    (hsize : inst.memoryBlocks.toNat ≤ arena.size) :
    loop.fillSegment inst pos arena = Segment.fillSegment inst pos arena := by
  obtain ⟨rel, hf⟩ := h
  obtain ⟨harena, hrel⟩ := hf.iterate wf hs hsize _ le_rfl
  have hc := iterate_cursor inst pos arena (segmentBlocks inst pos) le_rfl wf hs
  have hdone := (Fill.active_iff wf hs le_rfl hc).not.mpr (Nat.lt_irrefl _)
  rw [← hf.cursor hrel] at hdone
  rw [Fill.fillSegment_eq wf hs]
  unfold SegmentLoop.fillSegment
  rw [if_neg wf.not_degenerate, Fill.iterate_segmentLength wf (hf.done _ hdone), harena]

end Alone

end Argon2Rust.SegmentLoops
