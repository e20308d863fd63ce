import Argon2Rust.PoolMemory

set_option autoImplicit false

namespace Argon2Rust.PoolMemory
open Parameters Compression IndexAlpha Segment ReferenceWindow Fill Interleaving Pool SegmentLoops

section Calls
variable {inst : Instance} {s : State inst}

theorem filling_slices (b : Barrier s) {w : Worker inst} {k : ℕ} {lane : UInt32}
    (h : s.filling w = some (k, lane)) : k = s.leader.slices := by
  cases w with
  | leader =>
    change s.leader.filling = _ at h
    cases hl : s.leader with
    | fill j lane' =>
      rw [hl] at h
      cases h
      rfl
    | _ =>
      rw [hl] at h
      cases h
  | helper id =>
    change (s.helper id).filling = _ at h
    have hp := b.placed id
    cases hpc : s.helper id with
    | fill j lane' =>
      rw [hpc] at h hp
      cases h
      exact hp
    | _ =>
      rw [hpc] at h
      cases h

theorem claims_pos {w : Worker inst} {k : ℕ} {lane : UInt32} (h : .claimed w k lane ∈ s.log) :
    0 < s.claims k lane :=
  List.countP_pos_iff.mpr ⟨_, h, by rw [Event.claims, beq_self_eq_true, beq_self_eq_true]; rfl⟩

theorem claimed_lane (l : Lanes s) {w : Worker inst} {k : ℕ} {lane : UInt32}
    (h : .claimed w k lane ∈ s.log) : lane.toNat < inst.lanes.toNat := by
  have hpos := claims_pos h
  rw [State.claims, l.claims k lane] at hpos
  split at hpos
  next hlane => exact hlane.1
  next => exact absurd hpos (Nat.lt_irrefl 0)

theorem claimed_unique (l : Lanes s) {w w' : Worker inst} {k : ℕ} {lane : UInt32}
    (h : .claimed w k lane ∈ s.log) (h' : .claimed w' k lane ∈ s.log) : w = w' := by
  have hone := l.claims_le_one k lane
  have hmem : ∀ {w : Worker inst}, .claimed w k lane ∈ s.log →
      .claimed w k lane ∈ s.log.filter (Event.claims k lane) := by
    intro w hw
    refine List.mem_filter.mpr ⟨hw, ?_⟩
    rw [Event.claims, beq_self_eq_true, beq_self_eq_true]
    rfl
  rw [State.claims, List.countP_eq_length_filter] at hone
  have hw := hmem h
  have hw' := hmem h'
  generalize s.log.filter (Event.claims k lane) = found at hone hw hw'
  cases found with
  | nil => cases hw
  | cons e rest =>
    have hrest := List.eq_nil_of_length_eq_zero (Nat.le_zero.mp (Nat.le_of_succ_le_succ hone))
    subst hrest
    have he := (List.mem_singleton.mp hw).trans (List.mem_singleton.mp hw').symm
    cases he
    rfl

theorem filling_unique (l : Lanes s) (m : Remembered s) {w w' : Worker inst} {k : ℕ}
    {lane : UInt32} (h : s.filling w = some (k, lane)) (h' : s.filling w' = some (k, lane)) :
    w = w' :=
  claimed_unique l (m.filling w k lane h) (m.filling w' k lane h')

theorem ofNat_lane (lane : UInt32) : UInt32.ofNat lane.toNat = lane :=
  UInt32.toNat_inj.mp (UInt32.toNat_ofNat_of_lt' lane.toNat_lt)

theorem filling_lane (l : Lanes s) (m : Remembered s) {w : Worker inst} {k : ℕ} {lane : UInt32}
    (h : s.filling w = some (k, lane)) :
    ∃ i : Fin inst.lanes.toNat, lane = UInt32.ofNat i :=
  ⟨⟨lane.toNat, claimed_lane l (m.filling w k lane h)⟩, (ofNat_lane lane).symm⟩

theorem ofNat_lane_toNat (i : Fin inst.lanes.toNat) : (UInt32.ofNat i.val).toNat = i.val :=
  UInt32.toNat_ofNat_of_lt' (i.isLt.trans inst.lanes.toNat_lt)

theorem ofNat_lane_inj {i j : Fin inst.lanes.toNat}
    (h : UInt32.ofNat i.val = UInt32.ofNat j.val) : i = j := by
  have hn := congrArg UInt32.toNat h
  rw [ofNat_lane_toNat, ofNat_lane_toNat] at hn
  exact Fin.ext hn

theorem closed_filling (b : Barrier s) (h : s.leader.closed = true) (w : Worker inst) :
    s.filling w = none := by
  cases w with
  | leader =>
    change s.leader.filling = none
    generalize s.leader = pc at h
    cases pc <;> first | rfl | cases h
  | helper id =>
    change (s.helper id).filling = none
    have hno := b.not_filling h id
    generalize s.helper id = pc at hno
    cases pc with
    | fill j lane => exact absurd rfl (hno j lane)
    | _ => rfl

end Calls

section Tracks
variable {loop : SegmentLoop} {inst : Instance}
  (rel : Position → loop.Variables → SegmentState → Arena → Prop) (arena : Arena)

/-- An order of block steps that accounts for the arena and for every call of `fill_segment`. -/
structure Tracks (s : System loop inst) (order : List (Fin inst.lanes.toNat)) : Prop where
  shared : (sliceWorld arena s.pool.leader.slices order).shared = s.arena
  room : ∀ i, order.count i ≤ blocks inst s.pool.leader.slices i
  claimed : ∀ i, 0 < order.count i →
    ∃ w, .claimed w s.pool.leader.slices (UInt32.ofNat i) ∈ s.pool.log
  idle : ∀ w k (i : Fin inst.lanes.toNat), s.pool.filling w = some (k, UInt32.ofNat i) →
    s.calls w = none → order.count i = 0
  filling : ∀ w k (i : Fin inst.lanes.toNat) v, s.pool.filling w = some (k, UInt32.ofNat i) →
    s.calls w = some v → rel (slicePosition s.pool.leader.slices (UInt32.ofNat i)) v
      ((sliceWorld arena s.pool.leader.slices order).locals i) s.arena
  filled : ∀ i : Fin inst.lanes.toNat, s.pool.Filled s.pool.leader.slices (UInt32.ofNat i) →
    order.count i = blocks inst s.pool.leader.slices i

/-- The facts about the pool that the arena's invariant rests on. -/
structure Facts {inst : Instance} (traced : Bool) (s : State inst) : Prop where
  roster : Roster s
  barrier : Barrier s
  lanes : Lanes s
  fills : Fills traced s
  remembered : Remembered s

theorem facts (hlanes : inst.lanes.toNat ≤ 0xFFFFFF) {traced : Bool} {s : State inst}
    (h : Pool.Reachable traced s) : Facts traced s :=
  ⟨h.roster hlanes, h.barrier hlanes, h.lanes hlanes, h.fills hlanes, h.remembered hlanes⟩

variable {rel arena} {s : System loop inst} {order : List (Fin inst.lanes.toNat)}

theorem Tracks.start : Tracks rel arena (System.start arena : System loop inst) [] where
  shared := rfl
  room _ := Nat.zero_le _
  claimed _ h := absurd h (Nat.lt_irrefl 0)
  idle _ _ _ _ _ := rfl
  filling w k i v h hv := by cases hv
  filled i h := by
    obtain ⟨w, hw⟩ := h
    cases hw

variable {traced : Bool} (hf : loop.Follows inst rel) (wf : WellFormed inst)
  (hsize : inst.memoryBlocks.toNat ≤ arena.size) (facts : Facts traced s.pool)
  (t : Tracks rel arena s order)
include facts t

section SetUp
include hf

theorem Tracks.setUp {w : Worker inst} {k : ℕ} {lane : UInt32}
    (hw : s.pool.filling w = some (k, lane)) (hnone : s.calls w = none) :
    Tracks rel arena (s.setUp w (slicePosition k lane)) order := by
  obtain ⟨i, rfl⟩ := filling_lane facts.lanes facts.remembered hw
  have hk := filling_slices facts.barrier hw
  subst hk
  refine ⟨t.shared, t.room, t.claimed, ?_, ?_, t.filled⟩
  · intro w' k' j hw' hv'
    by_cases he : w' = w
    · subst he
      exact absurd ((Function.update_self w' _ s.calls).symm.trans hv') nofun
    · exact t.idle w' k' j hw' ((Function.update_of_ne he _ _).symm.trans hv')
  · intro w' k' j v hw' hv'
    by_cases he : w' = w
    · subst he
      have hij := hw.symm.trans hw'
      rw [Option.some.injEq, Prod.mk.injEq] at hij
      have hj := ofNat_lane_inj hij.2
      subst hj
      have hv := (Function.update_self w' _ s.calls).symm.trans hv'
      cases hv
      have hstart := hf.start (slicePosition_inSlice s.pool.leader.slices i) s.arena
      have hlocal : (sliceWorld arena s.pool.leader.slices order).locals i =
          Segment.segmentStart inst (slicePosition s.pool.leader.slices (UInt32.ofNat i)) :=
        locals_of_count_zero _ _ order i (t.idle w' _ i hw hnone)
      change rel _ _ ((sliceWorld arena s.pool.leader.slices order).locals i) s.arena
      rw [hlocal]
      exact hstart
    · exact t.filling w' k' j v hw' ((Function.update_of_ne he _ _).symm.trans hv')

end SetUp

section Block
include hf wf

omit facts in
theorem Tracks.progress {w : Worker inst} {k : ℕ} {i : Fin inst.lanes.toNat} {v : loop.Variables}
    (hw : s.pool.filling w = some (k, UInt32.ofNat i)) (hv : s.calls w = some v) :
    loop.cursor v = Cursor.at inst (slicePosition s.pool.leader.slices (UInt32.ofNat i))
        (order.count i) ∧
      ((loop.cursor v).i < inst.segmentLength ↔
        order.count i < blocks inst s.pool.leader.slices i) := by
  have hcursor := sliceWorld_cursor arena s.pool.leader.slices wf order i (t.room i)
  have hrel := hf.cursor (t.filling w k i v hw hv)
  refine ⟨hrel.trans hcursor, ?_⟩
  rw [hrel]
  exact active_iff wf (slicePosition_inSlice _ i) (t.room i) hcursor

include hsize

theorem Tracks.block {w : Worker inst} {k : ℕ} {i : Fin inst.lanes.toNat} {v : loop.Variables}
    (hw : s.pool.filling w = some (k, UInt32.ofNat i)) (hv : s.calls w = some v)
    (hactive : (loop.cursor v).i < inst.segmentLength) :
    Tracks rel arena (s.block w (slicePosition k (UInt32.ofNat i)) v) (order ++ [i]) := by
  have hk := filling_slices facts.barrier hw
  subst hk
  have hcount : ∀ j, (order ++ [i]).count j = order.count j + if i = j then 1 else 0 := by
    intro j
    rw [List.count_append, List.count_singleton]
    by_cases hij : i = j
    · rw [if_pos hij, if_pos (beq_iff_eq.mpr hij)]
    · rw [if_neg hij, if_neg (by rw [beq_iff_eq]; exact hij)]
  have hlt := (t.progress hf wf hw hv).2.mp hactive
  have hs := slicePosition_inSlice s.pool.leader.slices i
  have hc := sliceWorld_cursor arena s.pool.leader.slices wf order i (t.room i)
  have hblocks : inst.memoryBlocks.toNat ≤ s.arena.size := by
    rw [← t.shared, sliceWorld_size]
    exact hsize
  obtain ⟨hshared, hself⟩ := hf.step hs hblocks hlt hc (t.filling w _ i v hw hv)
  have hnew := sliceWorld_shared arena s.pool.leader.slices order i
  rw [t.shared] at hnew
  have hselfLocal := sliceWorld_self arena s.pool.leader.slices order i
  rw [t.shared] at hselfLocal
  refine ⟨hnew.trans hshared.symm, ?_, ?_, ?_, ?_, ?_⟩
  · intro j
    rw [hcount]
    by_cases hij : i = j
    · subst hij
      rw [if_pos rfl]
      exact hlt
    · rw [if_neg hij]
      exact t.room j
  · intro j hj
    by_cases hij : i = j
    · subst hij
      exact ⟨w, facts.remembered.filling w _ _ hw⟩
    · rw [hcount, if_neg hij] at hj
      exact t.claimed j hj
  · intro w' k' j hw' hv'
    have hne : w' ≠ w := by
      rintro rfl
      exact absurd ((Function.update_self w' _ s.calls).symm.trans hv') nofun
    have hk' := filling_slices facts.barrier hw'
    have hij : i ≠ j := by
      rintro rfl
      rw [hk'] at hw'
      exact hne (filling_unique facts.lanes facts.remembered hw' hw)
    rw [hcount, if_neg hij]
    exact t.idle w' k' j hw' ((Function.update_of_ne hne _ _).symm.trans hv')
  · intro w' k' j v' hw' hv'
    change rel _ v' ((sliceWorld arena s.pool.leader.slices (order ++ [i])).locals j)
      (loop.blockStep inst _ (v, s.arena)).2
    rw [hshared]
    by_cases hne : w' = w
    · subst hne
      have hij := hw.symm.trans hw'
      rw [Option.some.injEq, Prod.mk.injEq] at hij
      have hj := ofNat_lane_inj hij.2
      subst hj
      have hvv := (Function.update_self w' _ s.calls).symm.trans hv'
      cases hvv
      rw [hselfLocal]
      exact hself
    · have hk' := filling_slices facts.barrier hw'
      have hij : i ≠ j := by
        rintro rfl
        rw [hk'] at hw'
        exact hne (filling_unique facts.lanes facts.remembered hw' hw)
      have hold := t.filling w' k' j v' hw' ((Function.update_of_ne hne _ _).symm.trans hv')
      have hcj := sliceWorld_cursor arena s.pool.leader.slices wf order j (t.room j)
      have hactive' : ((sliceWorld arena s.pool.leader.slices order).locals i).cursor.i <
          inst.segmentLength := (active_iff wf hs (t.room i) hc).mpr hlt
      rw [sliceWorld_other arena _ order (Ne.symm hij), blockStep_active _ _ _ _ hactive']
      refine hf.stable hold _ _ fun hactivej => ?_
      have hlanes : (slicePosition s.pool.leader.slices (UInt32.ofNat j)).lane ≠
          (slicePosition s.pool.leader.slices (UInt32.ofNat i)).lane :=
        fun h => hij (ofNat_lane_inj h.symm)
      have hother := access_other_lane wf (slicePosition_inSlice _ j) hs rfl hlanes
        ⟨_, t.room j, hcj⟩ ⟨_, t.room i, hc⟩ hactivej hactive' s.arena s.arena
      rw [access_prevOffset] at hother
      exact hother.1
  · intro j hj
    by_cases hij : i = j
    · subst hij
      exact absurd (t.filled i hj) (Nat.ne_of_lt hlt)
    · rw [hcount, if_neg hij]
      exact t.filled j hj

end Block

section Access
include hf wf

/-- An access of the pool leaves the arena alone; a call that returns has made all its blocks. -/
theorem Tracks.access {worker : Worker inst} {ok : Bool} {pool : State inst}
    (hstep : s.pool.step traced worker ok = some pool) (hdone : ok = true → s.CallDone worker)
    (facts' : Facts traced pool) (hK : pool.leader.slices = s.pool.leader.slices) :
    Tracks rel arena ⟨pool, s.arena, Function.update s.calls worker none⟩ order := by
  obtain ⟨hothers, evs, hlog, heffect⟩ := step_effect facts.roster hstep
  refine ⟨?_, ?_, ?_, ?_, ?_, ?_⟩
  · change (sliceWorld arena pool.leader.slices order).shared = s.arena
    rw [hK]
    exact t.shared
  · intro i
    change _ ≤ blocks inst pool.leader.slices i
    rw [hK]
    exact t.room i
  · intro i hi
    obtain ⟨w, hw⟩ := t.claimed i hi
    refine ⟨w, ?_⟩
    change _ ∈ pool.log
    rw [hK, hlog]
    exact List.mem_append_right _ hw
  · intro w k i hw hv
    change pool.filling w = _ at hw
    by_cases he : w = worker
    · subst he
      by_contra hcount
      obtain ⟨w', hw'⟩ := t.claimed i (Nat.pos_of_ne_zero hcount)
      have hk := filling_slices facts'.barrier hw
      rw [hw] at heffect
      have hevs := heffect.claimed
      have hone := facts'.lanes.claims_le_one k (UInt32.ofNat i)
      have hpos := claims_pos hw'
      rw [hk, hK] at hone
      unfold State.claims at hone hpos
      rw [hlog, hevs, List.countP_append, List.countP_singleton, hk, hK] at hone
      have hself : Event.claims s.pool.leader.slices (UInt32.ofNat i)
          (Event.claimed w s.pool.leader.slices (UInt32.ofNat i)) = true := by
        rw [Event.claims, beq_self_eq_true, beq_self_eq_true]
        rfl
      rw [if_pos hself] at hone
      omega
    · rw [hothers w he] at hw
      exact t.idle w k i hw ((Function.update_of_ne he _ _).symm.trans hv)
  · intro w k i v hw hv
    have he : w ≠ worker := by
      rintro rfl
      cases (Function.update_self w none s.calls).symm.trans hv
    change pool.filling w = _ at hw
    rw [hothers w he] at hw
    change rel (slicePosition pool.leader.slices _) v
      ((sliceWorld arena pool.leader.slices order).locals i) s.arena
    rw [hK]
    exact t.filling w k i v hw ((Function.update_of_ne he _ _).symm.trans hv)
  · intro i hi
    change pool.Filled pool.leader.slices _ at hi
    change _ = blocks inst pool.leader.slices i
    rw [hK] at hi ⊢
    obtain ⟨w, hw⟩ := hi
    rw [hlog] at hw
    rcases List.mem_append.mp hw with hnew | hold
    · obtain ⟨rfl, hcall, hok⟩ := heffect.filled hnew
      obtain ⟨v, hv, hend⟩ := hdone hok _ _ hcall
      have hnot := (t.progress hf wf hcall hv).2.not.mp hend
      exact Nat.le_antisymm (t.room i) (Nat.le_of_not_lt hnot)
    · exact t.filled i ⟨w, hold⟩

omit hf

theorem Tracks.closed (hclosed : s.pool.leader.closed = true) :
    s.arena = slicesDone inst arena (s.pool.leader.slices + 1) := by
  have hall := filled_of_closed facts.barrier facts.lanes hclosed facts.fills.current
  rw [← t.shared]
  refine sliceWorld_done arena _ wf order fun i => t.filled i (hall _ ?_)
  rw [ofNat_lane_toNat]
  exact i.isLt

theorem Tracks.publish {k : ℕ} {pool : State inst} {w : Worker inst}
    (hl : s.pool.leader = .publish k) (hl' : pool.leader = Leader.enter inst (k + 1))
    (hhelper : pool.helper = s.pool.helper) (hlog : pool.log = s.pool.log) :
    Tracks rel arena ⟨pool, s.arena, Function.update s.calls w none⟩ [] := by
  have hclosed : s.pool.leader.closed = true := by
    rw [hl]
    rfl
  have hK : pool.leader.slices = k + 1 := by
    rw [hl', Leader.enter_slices]
  have hnobody : ∀ w', pool.filling w' = none := by
    rintro (_ | id)
    · change pool.leader.filling = none
      rw [hl', Leader.enter_filling]
    · change (pool.helper id).filling = none
      rw [hhelper]
      exact closed_filling facts.barrier hclosed (.helper id)
  have harena := t.closed wf facts hclosed
  rw [hl] at harena
  refine ⟨?_, fun _ => Nat.zero_le _, fun _ h => absurd h (Nat.lt_irrefl 0), ?_, ?_, ?_⟩
  · change slicesDone inst arena pool.leader.slices = s.arena
    rw [hK]
    exact harena.symm
  · intro w' k' i hw'
    exact absurd ((hnobody w').symm.trans hw') nofun
  · intro w' k' i v hw'
    exact absurd ((hnobody w').symm.trans hw') nofun
  · rintro i ⟨w', hw'⟩
    change .filled w' pool.leader.slices _ ∈ pool.log at hw'
    rw [hlog, hK] at hw'
    have hle := facts.lanes.slices_of_claimed (facts.remembered.filled w' _ _ hw')
    rw [hl] at hle
    exact absurd hle (Nat.not_succ_le_self k)

end Access

end Tracks

section Runs
variable {loop : SegmentLoop} {inst : Instance}
  {rel : Position → loop.Variables → SegmentState → Arena → Prop} {arena : Arena} {traced : Bool}
  {s : System loop inst}

theorem System.Reachable.facts (hlanes : inst.lanes.toNat ≤ 0xFFFFFF)
    (h : s.Reachable traced arena) : Facts traced s.pool :=
  PoolMemory.facts hlanes h.pool

/-- Some order of block steps accounts for every reachable state. -/
theorem System.Reachable.tracks (hlanes : inst.lanes.toNat ≤ 0xFFFFFF)
    (hf : loop.Follows inst rel) (wf : WellFormed inst)
    (hsize : inst.memoryBlocks.toNat ≤ arena.size) (h : s.Reachable traced arena) :
    ∃ order, Tracks rel arena s order := by
  induction h with
  | start => exact ⟨[], Tracks.start⟩
  | @step s s' worker ok hreach hstep ih =>
    obtain ⟨order, t⟩ := ih
    have hfacts := hreach.facts hlanes
    have hfacts' := (hreach.step worker ok hstep).facts hlanes
    rcases System.step_cases hstep with ⟨k, lane, hw, hnone, rfl⟩ |
      ⟨k, lane, v, hw, hv, hactive, rfl⟩ | ⟨pool, hpool, hdone, rfl⟩
    · exact ⟨order, t.setUp hf hfacts hw hnone⟩
    · obtain ⟨i, rfl⟩ := filling_lane hfacts.lanes hfacts.remembered hw
      exact ⟨order ++ [i], t.block hf wf hsize hfacts hw hv hactive⟩
    · rcases step_slices hpool with hK | ⟨k, hl, hl', hhelper, hlog⟩
      · exact ⟨order, t.access hf wf hfacts hpool hdone hfacts' hK⟩
      · exact ⟨[], t.publish wf hfacts hl hl' hhelper hlog⟩

/-- With all slices behind it the leader has called the trace callback for every pass. -/
theorem Facts.traces_step {s s' : State inst} (facts : Facts traced s) {ok : Bool}
    {worker : Worker inst} (hstep : s.step traced worker ok = some s')
    (hold : totalSlices inst ≤ s.leader.slices →
      s.tracedPasses = List.range (if traced then inst.passes.toNat else 0))
    (hdone : totalSlices inst ≤ s'.leader.slices) :
    s'.tracedPasses = List.range (if traced then inst.passes.toNat else 0) := by
  rcases step_slices hstep with hK | ⟨k, hl, hl', hhelper, hlog⟩
  · rw [hK] at hdone
    rw [← hold hdone]
    rcases step_cases hstep with ⟨id, hl, rfl⟩ | ⟨x, m, rfl⟩ | ⟨id, x, m, rfl⟩
    · cases ok <;> rfl
    · rcases m.passes hK with ⟨k, hpc, -⟩ | ⟨hquiet, -⟩
      · have hworking := facts.barrier.working (by rw [hpc]; rfl)
        omega
      · exact tracedPasses_quiet x.2.2 rfl hquiet
    · exact tracedPasses_quiet x.2.2 rfl m.untraced
  · obtain ⟨m, hpasses, -, hm, -⟩ := facts.fills.passes
    have hcount := hm (by rw [hl]; rfl)
    have hle := facts.barrier.working (by rw [hl]; rfl)
    rw [hl', Leader.enter_slices] at hdone
    rw [hl] at hcount hle
    have hsame : s'.tracedPasses = s.tracedPasses := by
      unfold State.tracedPasses
      rw [hlog]
    rw [hsame, hpasses]
    refine congrArg List.range (hcount.trans ?_)
    cases traced with
    | false => rfl
    | true =>
      rw [if_pos rfl, if_pos rfl]
      change k < totalSlices inst at hle
      change (k + 1) / 4 = _
      unfold totalSlices at hdone hle
      omega

theorem reachable_traces (hlanes : inst.lanes.toNat ≤ 0xFFFFFF) {s : State inst}
    (h : Pool.Reachable traced s) (hdone : totalSlices inst ≤ s.leader.slices) :
    s.tracedPasses = List.range (if traced then inst.passes.toNat else 0) := by
  induction h with
  | start =>
    have hzero : inst.passes.toNat = 0 := by
      unfold totalSlices at hdone
      change 4 * inst.passes.toNat ≤ 0 at hdone
      omega
    rw [hzero, ite_self]
    rfl
  | step worker ok hreach hstep ih =>
    exact (PoolMemory.facts hlanes hreach).traces_step hstep ih hdone

variable (hlanes : inst.lanes.toNat ≤ 0xFFFFFF) (hloop : loop.Lawful inst) (wf : WellFormed inst)
  (hsize : inst.memoryBlocks.toNat ≤ arena.size) (h : s.Reachable traced arena)
include hlanes hloop wf hsize h

theorem System.Reachable.tracing {k : ℕ} (hl : s.pool.leader = .trace k) :
    s.arena = passesDone inst arena (k / 4 + 1) := by
  obtain ⟨rel, hf⟩ := hloop
  obtain ⟨order, t⟩ := h.tracks hlanes hf wf hsize
  have hfacts := h.facts hlanes
  have hk := hfacts.remembered.tracing k hl
  have harena := t.closed wf hfacts (by rw [hl]; rfl)
  rw [hl] at harena
  change s.arena = slicesDone inst arena (k + 1) at harena
  rw [harena, show k + 1 = 4 * (k / 4 + 1) by omega, slicesDone_passes]

/-- If nobody unwound, a leader that has left its loop leaves the sequentially filled arena. -/
theorem System.Reachable.ended (hend : s.pool.leader.ending = true)
    (hnone : ∀ w k, .unwound w k ∉ s.pool.log) :
    s.arena = fillPasses inst arena ∧
      s.pool.tracedPasses = List.range (if traced then inst.passes.toNat else 0) := by
  obtain ⟨rel, hf⟩ := hloop
  obtain ⟨order, t⟩ := h.tracks hlanes hf wf hsize
  have hfacts := h.facts hlanes
  have hdone : totalSlices inst ≤ s.pool.leader.slices := by
    rcases hfacts.remembered.ending hend with hdone | ⟨w, k, hw⟩
    · exact hdone
    · exact absurd hw (hnone w k)
  have hK : s.pool.leader.slices = totalSlices inst :=
    Nat.le_antisymm hfacts.barrier.slices_le hdone
  refine ⟨?_, reachable_traces hlanes h.pool hdone⟩
  have hempty : order = [] := by
    refine List.eq_nil_iff_forall_not_mem.mpr fun i hi => ?_
    obtain ⟨w, hw⟩ := t.claimed i (List.count_pos_iff.mpr hi)
    exact absurd (hfacts.remembered.early w _ _ hw) hdone.not_gt
  have harena := t.shared
  rw [hempty, hK] at harena
  exact harena.symm.trans (slicesDone_passes inst arena inst.passes.toNat)

end Runs

section Races
variable {loop : SegmentLoop} {inst : Instance}

def System.writes (s : System loop inst) (worker : Worker inst) : List UInt32 :=
  match s.pool.filling worker, s.calls worker with
  | some (k, lane), some v =>
    if (loop.cursor v).i < inst.segmentLength then
      [(loop.access inst (slicePosition k lane) (v, s.arena)).currOffset]
    else []
  | _, _ => []

def System.touches (s : System loop inst) (worker : Worker inst) : List UInt32 :=
  match s.pool.filling worker, s.calls worker with
  | some (k, lane), some v =>
    if (loop.cursor v).i < inst.segmentLength then
      let a := loop.access inst (slicePosition k lane) (v, s.arena)
      [a.prevOffset, a.refOffset, a.currOffset]
    else []
  | some (k, lane), none => loop.startReads inst (slicePosition k lane)
  | none, _ => []

theorem start_column {pos : Position} (wf : WellFormed inst) (hs : InSlice inst pos) :
    ∃ z < inst.laneLength.toNat, (Cursor.start inst pos).prevOffset.toNat =
      pos.lane.toNat * inst.laneLength.toNat + z := by
  have hok := cursorOk_start wf hs
  have hslice := slice_le wf hs
  have hseg := wf.segment_ge
  have hL := wf.lane_eq
  have hidx := @startingIndex_le inst pos wf
  have hstart := startingIndex_toNat pos
  rcases hok.prev with ⟨h1, hprev⟩ | ⟨h1, hprev⟩
  · refine ⟨pos.slice.toNat * inst.segmentLength.toNat + (startingIndex pos).toNat - 1, by omega, ?_⟩
    rw [hprev]
    unfold blockOffset
    omega
  · have hzero : pos.slice.toNat * inst.segmentLength.toNat + (startingIndex pos).toNat = 0 := by
      rcases Nat.eq_zero_or_pos pos.slice.toNat with h0 | h0
      · rw [h0, Nat.zero_mul] at h1 ⊢
        split_ifs at hstart <;> omega
      · have hmul := Nat.le_mul_of_pos_left inst.segmentLength.toNat h0
        omega
    refine ⟨inst.laneLength.toNat - 1, by omega, ?_⟩
    rw [hprev]
    unfold blockOffset
    omega

theorem start_other_lane {pos pos' : Position} (wf : WellFormed inst) (hs : InSlice inst pos)
    (hs' : InSlice inst pos') (hne : pos.lane ≠ pos'.lane) {s' : SegmentState}
    (h' : LaneProgress inst pos' s') (ha' : s'.cursor.i < inst.segmentLength) (arena : Arena) :
    (Segment.access inst pos' s' arena).currOffset ≠ (Cursor.start inst pos).prevOffset := by
  obtain ⟨n, hn, hc⟩ := h'
  have hlt := (active_iff wf hs' hn hc).mp ha'
  rw [access_eq_accessAt _ _ _ _ n hc]
  obtain ⟨-, -, -, hcurr, -, hub, hle⟩ := accessAt_columns wf hs' n hlt (Segment.draw inst pos' s' arena).1
  obtain ⟨z, hz, hprev⟩ := start_column wf hs
  intro heq
  have hcol := column_inj _ _ _ _ _ (hub.trans_le hle) hz
    (hcurr.symm.trans ((congrArg UInt32.toNat heq).trans hprev))
  exact hne (UInt32.toNat_inj.mp hcol.1.symm)

theorem System.mem_writes {s : System loop inst} {w : Worker inst} {o : UInt32}
    (h : o ∈ s.writes w) : ∃ k lane v, s.pool.filling w = some (k, lane) ∧ s.calls w = some v ∧
      (loop.cursor v).i < inst.segmentLength ∧
      o = (loop.access inst (slicePosition k lane) (v, s.arena)).currOffset := by
  unfold System.writes at h
  cases hw : s.pool.filling w with
  | none =>
    rw [hw] at h
    cases h
  | some call =>
    obtain ⟨k, lane⟩ := call
    cases hv : s.calls w with
    | none =>
      rw [hw, hv] at h
      cases h
    | some v =>
      rw [hw, hv] at h
      dsimp only at h
      split_ifs at h with hactive
      · exact ⟨k, lane, v, rfl, rfl, hactive, List.mem_singleton.mp h⟩
      · cases h

theorem System.mem_touches {s : System loop inst} {w : Worker inst} {o : UInt32}
    (h : o ∈ s.touches w) : ∃ k lane, s.pool.filling w = some (k, lane) ∧
      ((∃ v, s.calls w = some v ∧ (loop.cursor v).i < inst.segmentLength ∧
        (o = (loop.access inst (slicePosition k lane) (v, s.arena)).prevOffset ∨
          o = (loop.access inst (slicePosition k lane) (v, s.arena)).refOffset ∨
          o = (loop.access inst (slicePosition k lane) (v, s.arena)).currOffset)) ∨
        o ∈ loop.startReads inst (slicePosition k lane)) := by
  unfold System.touches at h
  cases hw : s.pool.filling w with
  | none =>
    rw [hw] at h
    cases h
  | some call =>
    obtain ⟨k, lane⟩ := call
    cases hv : s.calls w with
    | none =>
      rw [hw, hv] at h
      exact ⟨k, lane, rfl, Or.inr h⟩
    | some v =>
      rw [hw, hv] at h
      dsimp only at h
      split_ifs at h with hactive
      · refine ⟨k, lane, rfl, Or.inl ⟨v, rfl, hactive, ?_⟩⟩
        rcases List.mem_cons.mp h with h | h
        · exact Or.inl h
        · rcases List.mem_cons.mp h with h | h
          · exact Or.inr (Or.inl h)
          · exact Or.inr (Or.inr (List.mem_singleton.mp h))
      · cases h

/-- No two workers are about to access one block of which one is about to write it. -/
theorem System.Reachable.racefree {arena : Arena} {traced : Bool} {s : System loop inst}
    (hlanes : inst.lanes.toNat ≤ 0xFFFFFF) (hloop : loop.Lawful inst) (wf : WellFormed inst)
    (hsize : inst.memoryBlocks.toNat ≤ arena.size) (h : s.Reachable traced arena)
    {w w' : Worker inst} (hne : w ≠ w') {o : UInt32} (hwrite : o ∈ s.writes w) :
    o ∉ s.touches w' := by
  intro htouch
  obtain ⟨rel, hf⟩ := hloop
  obtain ⟨order, t⟩ := h.tracks hlanes hf wf hsize
  have hfacts := h.facts hlanes
  obtain ⟨k, lane, v, hw, hv, hactive, rfl⟩ := System.mem_writes hwrite
  obtain ⟨k', lane', hw', htouch⟩ := System.mem_touches htouch
  obtain ⟨i, rfl⟩ := filling_lane hfacts.lanes hfacts.remembered hw
  obtain ⟨j, rfl⟩ := filling_lane hfacts.lanes hfacts.remembered hw'
  have hk := filling_slices hfacts.barrier hw
  have hk' := filling_slices hfacts.barrier hw'
  subst hk hk'
  have hij : i ≠ j := by
    rintro rfl
    exact hne (filling_unique hfacts.lanes hfacts.remembered hw hw')
  have hs := slicePosition_inSlice s.pool.leader.slices i
  have hs' := slicePosition_inSlice s.pool.leader.slices j
  have hlane : (slicePosition s.pool.leader.slices (UInt32.ofNat j)).lane ≠
      (slicePosition s.pool.leader.slices (UInt32.ofNat i)).lane :=
    fun hl => hij (ofNat_lane_inj hl.symm)
  have hrel := t.filling w _ i v hw hv
  have hprogress : LaneProgress inst (slicePosition s.pool.leader.slices (UInt32.ofNat i))
      ((sliceWorld arena s.pool.leader.slices order).locals i) :=
    ⟨_, t.room i, sliceWorld_cursor arena _ wf order i (t.room i)⟩
  rw [hf.cursor hrel] at hactive
  rw [hf.access hrel] at htouch
  rcases htouch with ⟨v', hv', hactive', htouch⟩ | hstart
  · have hrel' := t.filling w' _ j v' hw' hv'
    have hprogress' : LaneProgress inst (slicePosition s.pool.leader.slices (UInt32.ofNat j))
        ((sliceWorld arena s.pool.leader.slices order).locals j) :=
      ⟨_, t.room j, sliceWorld_cursor arena _ wf order j (t.room j)⟩
    rw [hf.cursor hrel'] at hactive'
    rw [hf.access hrel'] at htouch
    obtain ⟨hprev, href, hcurr⟩ := access_other_lane wf hs' hs rfl hlane hprogress' hprogress
      hactive' hactive s.arena s.arena
    rcases htouch with htouch | htouch | htouch
    · exact hprev htouch
    · exact href htouch
    · exact hcurr htouch
  · have hprev := List.mem_singleton.mp (hf.startReads _ hstart)
    exact start_other_lane wf hs' hs hlane hprogress hactive s.arena hprev

end Races

end Argon2Rust.PoolMemory
