import Argon2Rust.PoolLanes

set_option autoImplicit false

namespace Argon2Rust.Pool
open Parameters IndexAlpha Tally

def Event.tracedPass {inst : Instance} : Event inst → Option ℕ
  | .traced pass => some pass
  | _ => none

def Helper.unwinding : Helper → Bool
  | .bail _ | .dead _ => true
  | _ => false

section Log
variable {inst : Instance} (s : State inst)

def State.Filled (k : ℕ) (lane : UInt32) : Prop := ∃ worker, Event.filled worker k lane ∈ s.log

/-- The passes the trace callback has been called for, oldest first. -/
def State.tracedPasses : List ℕ := (s.log.filterMap Event.tracedPass).reverse

/-- Why a claimed lane of the leader's slice need not be filled. -/
def State.Outstanding (lane : UInt32) : Prop :=
  s.leader = .fill s.leader.slices lane ∨ (∃ id, s.helper id = .fill s.leader.slices lane) ∨
    (∃ id, (s.helper id).unwinding = true) ∨ s.leader.leaving = true

end Log

structure Fills {inst : Instance} (traced : Bool) (s : State inst) : Prop where
  previous : ∀ k lane, k < s.leader.slices → lane.toNat < inst.lanes.toNat → s.Filled k lane
  current : ∀ lane, lane.toNat < inst.lanes.toNat → lane.toNat < s.frontier →
    s.Filled s.leader.slices lane ∨ s.Outstanding lane
  unwound : ∀ id k, Event.unwound (.helper id) k ∈ s.log → s.helper id = .bail k ∨ s.helper id = .dead k
  passes : ∃ m, s.tracedPasses = List.range m ∧ 4 * m ≤ totalSlices inst ∧
    (s.leader.leaving = false →
      m = if traced then (s.leader.slices + s.leader.closed.toNat) / 4 else 0) ∧
    ∀ k lane, k < 4 * m → lane.toNat < inst.lanes.toNat → s.Filled k lane

section Basic
variable {inst : Instance} {s : State inst}

theorem State.Filled.mono {k : ℕ} {lane : UInt32} (h : s.Filled k lane) {s' : State inst}
    (evs : List (Event inst)) (hlog : s'.log = evs ++ s.log) : s'.Filled k lane := by
  obtain ⟨worker, hw⟩ := h
  refine ⟨worker, ?_⟩
  rw [hlog]
  exact List.mem_append_right evs hw

theorem tracedPasses_quiet {s' : State inst} (evs : List (Event inst))
    (hlog : s'.log = evs ++ s.log) (hevs : evs.filterMap Event.tracedPass = []) :
    s'.tracedPasses = s.tracedPasses := by
  unfold State.tracedPasses
  rw [hlog, List.filterMap_append, hevs, List.nil_append]

/-- Past the wait with nobody lost, every lane of the slice is filled. -/
theorem filled_of_closed (b : Barrier s) (l : Lanes s) (hclosed : s.leader.closed = true)
    (hcurrent : ∀ lane, lane.toNat < inst.lanes.toNat → lane.toNat < s.frontier →
      s.Filled s.leader.slices lane ∨ s.Outstanding lane) (lane : UInt32)
    (hlane : lane.toNat < inst.lanes.toNat) : s.Filled s.leader.slices lane := by
  have hsettled := b.settled hclosed
  rcases hcurrent lane hlane (hlane.trans_le (l.leader (Leader.closed_drained hclosed))) with
    h | h | ⟨id, h⟩ | ⟨id, h⟩ | h
  · exact h
  · rw [h] at hclosed
    cases hclosed
  · have hid := hsettled id
    rw [h] at hid
    rcases hid with hid | hid <;> cases hid
  · have hid := hsettled id
    cases hpc : s.helper id with
    | bail k =>
      rw [hpc] at hid
      rcases hid with hid | hid <;> cases hid
    | dead k =>
      rw [hpc] at hid
      rcases hid with hid | hid <;> cases hid
    | _ =>
      rw [hpc] at h
      cases h
  · rw [Leader.closed_not_leaving hclosed] at h
    cases h

end Basic

section Steps
variable {inst : Instance} {traced : Bool} {s : State inst}

theorem Fills.start : Fills traced (State.start inst) where
  previous := fun k _ hk _ => absurd hk (Nat.not_lt_zero k)
  current := fun _ _ h => absurd h (Nat.not_lt_zero _)
  unwound := nofun
  passes := by
    refine ⟨0, rfl, Nat.zero_le _, ?_, fun k _ hk => absurd hk (Nat.not_lt_zero k)⟩
    intro _
    cases traced with
    | false => rfl
    | true => exact (Nat.zero_div 4).symm

theorem Fills.spawn (f : Fills traced s) (r : Roster s) (id : HelperId inst)
    (hl : s.leader = .spawn id) (ok : Bool) : Fills traced (s.spawn id ok) := by
  obtain ⟨sync, spawned, leader, helper, log⟩ := s
  dsimp only at hl
  subst hl
  have habs : helper id = .absent := r.unspawned id id rfl le_rfl
  have hkeep : ∀ (pc : Helper) id', helper id' ≠ .absent →
      Function.update helper id pc id' = helper id' := by
    intro pc id' hne
    refine Function.update_of_ne ?_ _ _
    rintro rfl
    exact hne habs
  have hcurrent : ∀ (pc : Helper) (spawned' : UInt32) lane, lane.toNat < inst.lanes.toNat →
      lane.toNat < sync.nextLane.toNat →
      State.Filled ⟨sync, spawned', .spawn (id + 1), Function.update helper id pc, log⟩ 0 lane ∨
        State.Outstanding ⟨sync, spawned', .spawn (id + 1), Function.update helper id pc, log⟩ lane := by
    intro pc spawned' lane hlane hlt
    rcases f.current lane hlane hlt with h | h | ⟨id', h⟩ | ⟨id', h⟩ | h
    · exact Or.inl h
    · cases h
    · have hid' : helper id' = .fill 0 lane := h
      exact Or.inr (Or.inr (Or.inl ⟨id', (hkeep pc id' (by rw [hid']; exact nofun)).trans hid'⟩))
    · have hid' : (helper id').unwinding = true := h
      refine Or.inr (Or.inr (Or.inr (Or.inl ⟨id', ?_⟩)))
      change (Function.update helper id pc id').unwinding = true
      rw [hkeep pc id' (by intro he; rw [he] at hid'; cases hid')]
      exact hid'
    · cases h
  have hunwound : ∀ (pc : Helper) id' k, Event.unwound (.helper id') k ∈ log →
      Function.update helper id pc id' = .bail k ∨ Function.update helper id pc id' = .dead k := by
    intro pc id' k hk
    have h : helper id' = .bail k ∨ helper id' = .dead k := f.unwound id' k hk
    rw [hkeep pc id' (by intro he; rw [he] at h; rcases h with h | h <;> cases h)]
    exact h
  cases ok with
  | true => exact ⟨f.previous, hcurrent _ _, hunwound _, f.passes⟩
  | false => exact ⟨f.previous, hcurrent .refused _, hunwound .refused, f.passes⟩

end Steps

section HelperSteps
variable {inst : Instance} {traced : Bool} {s : State inst} {id : HelperId inst} {pc : Helper}
  {sync : FillSync} {evs : List (Event inst)}

theorem HelperMove.untraced {pc₀ : Helper} {sync₀ : FillSync}
    (m : HelperMove inst id sync₀ pc₀ pc sync evs) : evs.filterMap Event.tracedPass = [] := by
  cases m <;> rfl

/-- What kept a lane from being filled still does, or the lane has been filled. -/
theorem HelperMove.outstanding (m : HelperMove inst id s.sync (s.helper id) pc sync evs)
    {lane : UInt32} (h : s.Outstanding lane) :
    (s.withHelper id (pc, sync, evs)).Filled s.leader.slices lane ∨
      (s.withHelper id (pc, sync, evs)).Outstanding lane := by
  rcases h with h | ⟨id', h⟩ | ⟨id', h⟩ | h
  · exact Or.inr (Or.inl h)
  · by_cases hne : id' = id
    · rw [hne] at h
      rw [h] at m
      cases m with
      | filled => exact Or.inl ⟨.helper id, List.mem_cons_self⟩
      | unwound =>
        refine Or.inr (Or.inr (Or.inr (Or.inl ⟨id, ?_⟩)))
        change (Function.update s.helper id _ id).unwinding = true
        rw [Function.update_self]
        rfl
    · exact Or.inr (Or.inr (Or.inl ⟨id', (Function.update_of_ne hne _ _).trans h⟩))
  · refine Or.inr (Or.inr (Or.inr (Or.inl ⟨id', ?_⟩)))
    change (Function.update s.helper id pc id').unwinding = true
    by_cases hne : id' = id
    · rw [hne] at h ⊢
      rw [Function.update_self]
      generalize s.helper id = pc₀ at m h
      cases m with
      | bailed k => rfl
      | _ => cases h
    · rw [Function.update_of_ne hne]
      exact h
  · exact Or.inr (Or.inr (Or.inr (Or.inr h)))

theorem HelperMove.unwound_kept (m : HelperMove inst id s.sync (s.helper id) pc sync evs)
    (f : Fills traced s) (id' : HelperId inst) (k : ℕ)
    (h : Event.unwound (.helper id') k ∈ evs ++ s.log) :
    Function.update s.helper id pc id' = .bail k ∨ Function.update s.helper id pc id' = .dead k := by
  rcases List.mem_append.mp h with h | h
  · generalize s.helper id = pc₀ at m
    cases m with
    | unwound j lane =>
      obtain ⟨rfl, rfl⟩ : id' = id ∧ k = j := by simpa using h
      exact Or.inl (Function.update_self _ _ _)
    | _ => simp at h
  · have hold := f.unwound id' k h
    by_cases hne : id' = id
    · rw [hne] at hold ⊢
      rw [Function.update_self]
      generalize s.helper id = pc₀ at m hold
      rcases hold with rfl | rfl
      · cases m
        exact Or.inr rfl
      · cases m
    · rw [Function.update_of_ne hne]
      exact hold

theorem Fills.helperMove (hlanes : inst.lanes.toNat ≤ 0xFFFFFF) (f : Fills traced s) (b : Barrier s)
    (l : Lanes s) (m : HelperMove inst id s.sync (s.helper id) pc sync evs) :
    Fills traced (s.withHelper id (pc, sync, evs)) := by
  have hmono : ∀ {k lane}, s.Filled k lane → (s.withHelper id (pc, sync, evs)).Filled k lane :=
    fun h => h.mono evs rfl
  have hkeep : ∀ lane, s.Filled s.leader.slices lane ∨ s.Outstanding lane →
      (s.withHelper id (pc, sync, evs)).Filled s.leader.slices lane ∨
        (s.withHelper id (pc, sync, evs)).Outstanding lane := by
    rintro lane (h | h)
    · exact Or.inl (hmono h)
    · exact m.outstanding h
  have hsucc := l.nextLane_succ hlanes
  refine ⟨fun k lane hk hlane => hmono (f.previous k lane hk hlane), ?_, m.unwound_kept f, ?_⟩
  · intro lane hlane hlt
    change lane.toNat < (if s.leader.reset then inst.lanes.toNat else sync.nextLane.toNat) at hlt
    have hfrontier : s.frontier =
      if s.leader.reset then inst.lanes.toNat else s.sync.nextLane.toNat := rfl
    rcases m.lanes (b.placed id) with ⟨hpc, -, hle, -⟩ | ⟨hpc, hpc', -, hnext, -⟩ | ⟨hnext, -⟩
    · rw [b.not_reset id hpc, if_neg Bool.false_ne_true] at hfrontier
      rw [UInt32.le_iff_toNat_le] at hle
      exact hkeep lane (f.current lane hlane (by omega))
    · rw [b.not_reset id hpc, if_neg Bool.false_ne_true] at hfrontier hlt
      rw [hnext, hsucc] at hlt
      by_cases heq : lane = s.sync.nextLane
      · refine Or.inr (Or.inr (Or.inl ⟨id, ?_⟩))
        change Function.update s.helper id pc id = _
        rw [Function.update_self, hpc', heq]
        rfl
      · have hne : lane.toNat ≠ s.sync.nextLane.toNat := fun h => heq (UInt32.toNat_inj.mp h)
        exact hkeep lane (f.current lane hlane (by omega))
    · rw [hnext] at hlt
      exact hkeep lane (f.current lane hlane (hfrontier ▸ hlt))
  · obtain ⟨n, hpasses, hle, hn, hfilled⟩ := f.passes
    refine ⟨n, ?_, hle, hn, fun k lane hk hlane => hmono (hfilled k lane hk hlane)⟩
    rw [tracedPasses_quiet evs rfl m.untraced, hpasses]

end HelperSteps

section LeaderSteps
variable {inst : Instance} {traced : Bool} {s : State inst}

theorem Fills.enter {k : ℕ} {sync : FillSync} {spawned : UInt32} {helper : HelperId inst → Helper}
    {log : List (Event inst)}
    (hprevious : ∀ j lane, j < k → lane.toNat < inst.lanes.toNat →
      ∃ worker, Event.filled worker j lane ∈ log)
    (hcurrent : ∀ lane : UInt32, lane.toNat < inst.lanes.toNat → lane.toNat < sync.nextLane.toNat →
      (∃ worker, Event.filled worker k lane ∈ log) ∨ (∃ id, helper id = .fill k lane) ∨
        ∃ id, (helper id).unwinding = true)
    (hunwound : ∀ id j, Event.unwound (.helper id) j ∈ log → helper id = .bail j ∨ helper id = .dead j)
    (hpasses : ∃ m, (log.filterMap Event.tracedPass).reverse = List.range m ∧
      4 * m ≤ totalSlices inst ∧ (m = if traced then k / 4 else 0) ∧
      ∀ j lane, j < 4 * m → lane.toNat < inst.lanes.toNat →
        ∃ worker, Event.filled worker j lane ∈ log) :
    Fills traced ⟨sync, spawned, Leader.enter inst k, helper, log⟩ := by
  obtain ⟨m, hm, hle, hcount, hfilled⟩ := hpasses
  rcases Leader.enter_cases inst k with ⟨-, he⟩ | ⟨-, he⟩ <;> rw [he]
  · refine ⟨hprevious, ?_, hunwound, m, hm, hle, fun _ => hcount, hfilled⟩
    intro lane hlane hlt
    rcases hcurrent lane hlane hlt with h | h | h
    · exact Or.inl h
    · exact Or.inr (Or.inr (Or.inl h))
    · exact Or.inr (Or.inr (Or.inr (Or.inl h)))
  · exact ⟨hprevious, fun _ _ _ => Or.inr (Or.inr (Or.inr (Or.inr rfl))), hunwound, m, hm, hle, nofun,
      hfilled⟩

variable {pc : Leader} {sync : FillSync} {evs : List (Event inst)}

theorem LeaderMove.slices {spawned : UInt32} {sync₀ : FillSync} {pc₀ : Leader}
    (m : LeaderMove inst traced spawned sync₀ pc₀ pc sync evs) :
    pc.slices = pc₀.slices ∨ ∃ k, pc₀ = .publish k ∧ pc = Leader.enter inst (k + 1) ∧
      sync.nextLane = sync₀.nextLane ∧ evs = [] := by
  cases m with
  | charged => exact Or.inl (Leader.enter_slices 0)
  | published k => exact Or.inr ⟨k, rfl, rfl, rfl, rfl⟩
  | _ => exact Or.inl rfl

theorem LeaderMove.outstanding (m : LeaderMove inst traced s.spawned s.sync s.leader pc sync evs)
    (hK : pc.slices = s.leader.slices) {lane : UInt32} (h : s.Outstanding lane) :
    (s.withLeader (pc, sync, evs)).Filled pc.slices lane ∨
      (s.withLeader (pc, sync, evs)).Outstanding lane := by
  rcases h with h | ⟨id, h⟩ | h | h
  · rw [h] at m
    cases m with
    | filled => exact Or.inl ⟨.leader, List.mem_cons_self⟩
    | unwound => exact Or.inr (Or.inr (Or.inr (Or.inr rfl)))
  · exact Or.inr (Or.inr (Or.inl ⟨id, h.trans (congrArg (Helper.fill · lane) hK.symm)⟩))
  · exact Or.inr (Or.inr (Or.inr (Or.inl h)))
  · refine Or.inr (Or.inr (Or.inr (Or.inr ?_)))
    generalize s.leader = pc₀ at m h
    cases m with
    | bumped => rfl
    | dropStopped => rfl
    | dropBumped => rfl
    | _ => cases h

/-- A lane that an access of the leader hands out is the one it goes on to fill. -/
theorem LeaderMove.frontier (hlanes : inst.lanes.toNat ≤ 0xFFFFFF) (l : Lanes s)
    (m : LeaderMove inst traced s.spawned s.sync s.leader pc sync evs)
    (hK : pc.slices = s.leader.slices) {lane : UInt32} (hlane : lane.toNat < inst.lanes.toNat)
    (hlt : lane.toNat < (s.withLeader (pc, sync, evs)).frontier) :
    lane.toNat < s.frontier ∨ pc = .fill pc.slices lane := by
  have hsucc := l.nextLane_succ hlanes
  obtain ⟨sync₀, spawned, leader, helper, log⟩ := s
  dsimp only at m hsucc
  cases m with
  | charged =>
    refine Or.inl ?_
    rcases Leader.enter_cases inst 0 with ⟨-, he⟩ | ⟨-, he⟩ <;> rw [he] at hlt <;> exact hlt
  | drained k hle => exact Or.inl (hlane.trans_le (UInt32.le_iff_toNat_le.mp hle))
  | claimed k hgt =>
    change lane.toNat < (sync₀.nextLane + 1).toNat at hlt
    rw [hsucc] at hlt
    by_cases heq : lane = sync₀.nextLane
    · exact Or.inr (congrArg (Leader.fill k) heq.symm)
    · have hne : lane.toNat ≠ sync₀.nextLane.toNat := fun h => heq (UInt32.toNat_inj.mp h)
      exact Or.inl (by change lane.toNat < sync₀.nextLane.toNat; omega)
  | laneReset k => exact Or.inl (hlane.trans_le (l.leader rfl))
  | published k => exact absurd hK (by rw [Leader.enter_slices]; exact Nat.succ_ne_self k)
  | _ => exact Or.inl hlt

theorem LeaderMove.unwound_kept (m : LeaderMove inst traced s.spawned s.sync s.leader pc sync evs)
    (id : HelperId inst) (k : ℕ) (h : Event.unwound (.helper id) k ∈ evs ++ s.log) :
    Event.unwound (.helper id) k ∈ s.log := by
  rcases List.mem_append.mp h with h | h
  · generalize s.leader = pc₀ at m
    cases m <;> simp at h
  · exact h

theorem LeaderMove.passes {spawned : UInt32} {sync₀ : FillSync} {pc₀ : Leader}
    (m : LeaderMove inst traced spawned sync₀ pc₀ pc sync evs) (hK : pc.slices = pc₀.slices) :
    (∃ k, pc₀ = .checkLost k ∧ pc = .trace k ∧ k % 4 = 3 ∧ traced = true ∧ evs = [.traced (k / 4)]) ∨
      (evs.filterMap Event.tracedPass = [] ∧ (pc.leaving = false → pc₀.leaving = false ∧
        (if traced then (pc.slices + pc.closed.toNat) / 4 else 0) =
          if traced then (pc₀.slices + pc₀.closed.toNat) / 4 else 0)) := by
  cases m with
  | tracing k h hk ht => exact Or.inl ⟨k, rfl, rfl, hk, ht, rfl⟩
  | untraced k h ht =>
    refine Or.inr ⟨rfl, fun _ => ⟨rfl, ?_⟩⟩
    cases traced with
    | false => rfl
    | true =>
      change (k + 1) / 4 = (k + 0) / 4
      have hk : ¬ k % 4 = 3 := fun h3 => ht ⟨h3, rfl⟩
      omega
  | charged =>
    refine Or.inr ⟨rfl, fun _ => ⟨rfl, ?_⟩⟩
    rw [Leader.enter_slices, Leader.enter_closed]
    rfl
  | published k => exact absurd hK (by rw [Leader.enter_slices]; exact Nat.succ_ne_self k)
  | unwound => exact Or.inr ⟨rfl, nofun⟩
  | traceUnwound => exact Or.inr ⟨rfl, nofun⟩
  | bumped => exact Or.inr ⟨rfl, nofun⟩
  | stopped => exact Or.inr ⟨rfl, nofun⟩
  | dropStopped => exact Or.inr ⟨rfl, nofun⟩
  | dropBumped => exact Or.inr ⟨rfl, nofun⟩
  | _ => exact Or.inr ⟨rfl, fun _ => ⟨rfl, rfl⟩⟩

theorem Fills.leaderMove (hlanes : inst.lanes.toNat ≤ 0xFFFFFF) (f : Fills traced s) (b : Barrier s)
    (l : Lanes s) (m : LeaderMove inst traced s.spawned s.sync s.leader pc sync evs)
    (b' : Barrier (s.withLeader (pc, sync, evs))) (l' : Lanes (s.withLeader (pc, sync, evs))) :
    Fills traced (s.withLeader (pc, sync, evs)) := by
  have hmono : ∀ {k lane}, s.Filled k lane → (s.withLeader (pc, sync, evs)).Filled k lane :=
    fun h => h.mono evs rfl
  obtain ⟨n, hpasses, hle, hn, hfilled⟩ := f.passes
  rcases m.slices with hK | ⟨k, hpc, rfl, hnext, rfl⟩
  · have hcurrent : ∀ lane, lane.toNat < inst.lanes.toNat →
        lane.toNat < (s.withLeader (pc, sync, evs)).frontier →
        (s.withLeader (pc, sync, evs)).Filled pc.slices lane ∨
          (s.withLeader (pc, sync, evs)).Outstanding lane := by
      intro lane hlane hlt
      rcases m.frontier hlanes l hK hlane hlt with h | h
      · rcases f.current lane hlane h with h | h
        · exact Or.inl (hK ▸ hmono h)
        · exact m.outstanding hK h
      · exact Or.inr (Or.inl h)
    refine ⟨?_, hcurrent, ?_, ?_⟩
    · intro k lane hk hlane
      exact hmono (f.previous k lane (hK ▸ hk) hlane)
    · intro id k h
      exact f.unwound id k (m.unwound_kept id k h)
    · rcases m.passes hK with ⟨k, hpc, rfl, hk, rfl, rfl⟩ | ⟨hevs, hcount⟩
      · have hnk := hn (by rw [hpc]; rfl)
        rw [hpc] at hnk
        change n = (k + 0) / 4 at hnk
        have hlt : k < totalSlices inst := b'.working rfl
        refine ⟨n + 1, ?_, by omega, ?_, ?_⟩
        · change (List.filterMap Event.tracedPass ([.traced (k / 4)] ++ s.log)).reverse = _
          rw [List.filterMap_append, List.reverse_append, List.range_succ]
          refine congrArg₂ (· ++ ·) hpasses ?_
          exact congrArg (fun r => [r]) hnk.symm
        · intro _
          change n + 1 = (k + 1) / 4
          omega
        · intro j lane hj hlane
          by_cases hjk : j = k
          · rw [hjk]
            exact filled_of_closed b' l' rfl hcurrent lane hlane
          · refine hmono (f.previous j lane ?_ hlane)
            rw [hpc]
            change j < k
            omega
      · refine ⟨n, ?_, hle, ?_, fun k lane hk hlane => hmono (hfilled k lane hk hlane)⟩
        · rw [tracedPasses_quiet evs rfl hevs, hpasses]
        · intro hleaving
          obtain ⟨hold, heq⟩ := hcount hleaving
          exact (hn hold).trans heq.symm
  · have hclosed : s.leader.closed = true := by
      rw [hpc]
      rfl
    have hzero : s.sync.nextLane = 0 := l.reset (by rw [hpc]; rfl)
    have hall := filled_of_closed b l hclosed f.current
    have hprevious := f.previous
    have hcount := hn (Leader.closed_not_leaving hclosed)
    rw [hpc] at hall hprevious hcount
    refine Fills.enter ?_ ?_ f.unwound ⟨n, hpasses, hle, hcount, hfilled⟩
    · intro j lane hj hlane
      rcases Nat.lt_succ_iff_lt_or_eq.mp hj with hjk | rfl
      · exact hprevious j lane hjk hlane
      · exact hall lane hlane
    · intro lane _ hlt
      rw [hnext, hzero] at hlt
      exact absurd hlt (Nat.not_lt_zero _)

theorem Reachable.fills (hlanes : inst.lanes.toNat ≤ 0xFFFFFF) (h : Reachable traced s) :
    Fills traced s := by
  induction h with
  | start => exact Fills.start
  | step worker ok hreach hstep ih =>
    have hreach' := Reachable.step worker ok hreach hstep
    have b := hreach.barrier hlanes
    have l := hreach.lanes hlanes
    rcases step_cases hstep with ⟨id, hl, rfl⟩ | ⟨x, m, rfl⟩ | ⟨id, x, m, rfl⟩
    · exact ih.spawn (hreach.roster hlanes) id hl ok
    · exact ih.leaderMove hlanes b l m (hreach'.barrier hlanes) (hreach'.lanes hlanes)
    · exact ih.helperMove hlanes b l m

end LeaderSteps

end Argon2Rust.Pool
