import Argon2Rust.PoolBarrier

set_option autoImplicit false

namespace Argon2Rust.Pool
open Parameters IndexAlpha Tally

def Event.claims {inst : Instance} (k : ℕ) (lane : UInt32) : Event inst → Bool
  | .claimed _ k' lane' => k' == k && lane' == lane
  | _ => false

def State.claims {inst : Instance} (s : State inst) (k : ℕ) (lane : UInt32) : ℕ :=
  s.log.countP (Event.claims k lane)

/-- The leader has reset `next_lane` and not yet released the next slice. -/
def Leader.reset : Leader → Bool
  | .resetArrived _ | .publish _ => true
  | _ => false

def Leader.drained : Leader → Bool
  | .pollArrived _ | .pollLost _ _ | .checkLost _ | .storeStop _ | .bumpStop _ | .trace _
  | .resetLane _ | .resetArrived _ | .publish _ => true
  | _ => false

def Leader.overshot : Leader → Bool
  | .dropStop _ | .dropBump _ | .finished _ => true
  | pc => pc.drained

def Helper.drained (K : ℕ) : Helper → Bool
  | .arrive k | .pollGeneration k | .pollStop k | .checkStop k => k == K
  | _ => false

def Helper.overshot (K : ℕ) : Helper → Bool
  | .done => true
  | pc => pc.drained K

theorem Leader.reset_closed {pc : Leader} (h : pc.reset = true) : pc.closed = true := by
  cases pc <;> first | rfl | cases h

theorem Leader.closed_drained {pc : Leader} (h : pc.closed = true) : pc.drained = true := by
  cases pc <;> first | rfl | cases h

/-- The lanes of the leader's slice that have been handed out are those below the frontier. -/
def State.frontier {inst : Instance} (s : State inst) : ℕ :=
  if s.leader.reset then inst.lanes.toNat else s.sync.nextLane.toNat

/-- In `log`, all lanes of the slices before `K` and the first `F` lanes of slice `K` are claimed
exactly once, and no others. -/
def ClaimedOnce (inst : Instance) (K F : ℕ) (log : List (Event inst)) : Prop :=
  ∀ k lane, log.countP (Event.claims k lane) =
    if lane.toNat < inst.lanes.toNat ∧ (k < K ∨ (k = K ∧ lane.toNat < F)) then 1 else 0

structure Lanes {inst : Instance} (s : State inst) : Prop where
  bound : s.sync.nextLane.toNat ≤ inst.lanes.toNat +
    tally (Helper.overshot s.leader.slices) s.helper + s.leader.overshot.toNat
  reset : s.leader.reset = true → s.sync.nextLane = 0
  leader : s.leader.drained = true → inst.lanes.toNat ≤ s.frontier
  helper : ∀ id, (s.helper id).drained s.leader.slices = true → inst.lanes.toNat ≤ s.frontier
  claims : ClaimedOnce inst s.leader.slices s.frontier s.log

section ClaimedOnce
variable {inst : Instance} {K F : ℕ} {log : List (Event inst)}

theorem ClaimedOnce.quiet (h : ClaimedOnce inst K F log) (evs : List (Event inst))
    (hevs : ∀ k lane, evs.countP (Event.claims k lane) = 0) : ClaimedOnce inst K F (evs ++ log) := by
  intro k lane
  rw [List.countP_append, hevs, Nat.zero_add]
  exact h k lane

theorem ClaimedOnce.claim (h : ClaimedOnce inst K F log) (worker : Worker inst) (lane : UInt32)
    (hlane : lane.toNat = F) (hF : F < inst.lanes.toNat) :
    ClaimedOnce inst K (F + 1) ([.claimed worker K lane] ++ log) := by
  intro k lane'
  have hold := h k lane'
  rw [List.countP_append, hold, List.countP_singleton]
  change (if (K == k && lane == lane') = true then 1 else 0) + _ = _
  by_cases hk : k = K
  · by_cases hl : lane' = lane
    · subst hk hl
      simp [hlane, hF]
    · have hne : lane'.toNat ≠ F := fun he => hl (UInt32.toNat_inj.mp (he.trans hlane.symm))
      have hb : (lane == lane') = false := beq_eq_false_iff_ne.mpr (Ne.symm hl)
      rw [hb, Bool.and_false, if_neg Bool.false_ne_true, Nat.zero_add]
      refine if_congr ?_ rfl rfl
      omega
  · have hb : (K == k) = false := beq_eq_false_iff_ne.mpr (Ne.symm hk)
    rw [hb, Bool.false_and, if_neg Bool.false_ne_true, Nat.zero_add]
    refine if_congr ?_ rfl rfl
    omega

/-- Once every lane has been handed out the exact frontier does not matter. -/
theorem ClaimedOnce.overshoot (h : ClaimedOnce inst K F log) (hF : inst.lanes.toNat ≤ F) {F' : ℕ}
    (hF' : inst.lanes.toNat ≤ F') : ClaimedOnce inst K F' log := by
  intro k lane
  rw [h k lane]
  refine if_congr ?_ rfl rfl
  omega

theorem ClaimedOnce.advance (h : ClaimedOnce inst K F log) (hF : inst.lanes.toNat ≤ F) :
    ClaimedOnce inst (K + 1) 0 log := by
  intro k lane
  rw [h k lane]
  refine if_congr ?_ rfl rfl
  omega

end ClaimedOnce

section Moves
variable {inst : Instance} {id : HelperId inst} {sync sync' : FillSync} {evs : List (Event inst)}

@[simp] theorem Helper.enter_drained (k K : ℕ) : (Helper.enter inst k).drained K = false :=
  Helper.enter_ind inst k (fun pc => pc.drained K = false) rfl rfl

theorem HelperMove.lanes {K : ℕ} {pc pc' : Helper} (m : HelperMove inst id sync pc pc' sync' evs)
    (h : Placed inst K sync.stop pc) :
    (pc = .drain K ∧ pc' = .arrive K ∧ inst.lanes ≤ sync.nextLane ∧
      sync'.nextLane = sync.nextLane + 1 ∧ evs = []) ∨
    (pc = .drain K ∧ pc' = .fill K sync.nextLane ∧ ¬ inst.lanes ≤ sync.nextLane ∧
      sync'.nextLane = sync.nextLane + 1 ∧ evs = [.claimed (.helper id) K sync.nextLane]) ∨
    (sync'.nextLane = sync.nextLane ∧ (pc.overshot K = true → pc'.overshot K = true) ∧
      (pc'.drained K = true → pc.drained K = true) ∧
      ∀ k lane, evs.countP (Event.claims k lane) = 0) := by
  cases m with
  | drained k hl =>
    have hk : k = K := h
    exact Or.inl ⟨by rw [hk], by rw [hk], hl, rfl, rfl⟩
  | claimed k hl =>
    have hk : k = K := h
    exact Or.inr (Or.inl ⟨by rw [hk], by rw [hk], hl, rfl, by rw [hk]⟩)
  | left k hs => exact Or.inr (Or.inr ⟨rfl, fun _ => rfl, nofun, fun _ _ => rfl⟩)
  | entered k hs =>
    refine Or.inr (Or.inr ⟨rfl, ?_, ?_, fun _ _ => rfl⟩)
    · intro hK
      have hK : k = K := beq_iff_eq.mp hK
      rcases h with h | ⟨-, h⟩
      · omega
      · rw [hs] at h
        cases h
    · intro hd
      exact absurd ((Helper.enter_drained (k + 1) K).symm.trans hd) nofun
  | filled k lane => exact Or.inr (Or.inr ⟨rfl, nofun, nofun, fun _ _ => rfl⟩)
  | unwound k lane => exact Or.inr (Or.inr ⟨rfl, nofun, nofun, fun _ _ => rfl⟩)
  | bailed k => exact Or.inr (Or.inr ⟨rfl, nofun, nofun, fun _ _ => rfl⟩)
  | _ => exact Or.inr (Or.inr ⟨rfl, fun h => h, fun h => h, fun _ _ => rfl⟩)

end Moves

section Steps
variable {inst : Instance} {s : State inst}

theorem Lanes.start : Lanes (State.start inst) where
  bound := Nat.zero_le _
  reset := nofun
  leader := nofun
  helper := nofun
  claims := by
    intro k lane
    change 0 = _
    rw [if_neg]
    rintro ⟨-, h | ⟨-, h⟩⟩
    · exact absurd h (Nat.not_lt_zero k)
    · exact absurd h (Nat.not_lt_zero _)

theorem Lanes.spawn (l : Lanes s) (r : Roster s) (id : HelperId inst) (hl : s.leader = .spawn id)
    (ok : Bool) : Lanes (s.spawn id ok) := by
  obtain ⟨sync, spawned, leader, helper, log⟩ := s
  dsimp only at hl
  subst hl
  have habs : helper id = .absent := r.unspawned id id rfl le_rfl
  have hbound := l.bound
  have hcount : ∀ pc : Helper, tally (Helper.overshot 0) helper ≤
      tally (Helper.overshot 0) (Function.update helper id pc) := by
    intro pc
    have hu := tally_update (Helper.overshot 0) helper id pc
    rw [habs] at hu
    change _ + 0 = _ at hu
    omega
  have hdrained : ∀ pc : Helper, pc.drained 0 = false → ∀ id',
      (Function.update helper id pc id').drained 0 = true → inst.lanes.toNat ≤ sync.nextLane.toNat := by
    intro pc hpc id' hid'
    by_cases h : id' = id
    · rw [h, Function.update_self, hpc] at hid'
      cases hid'
    · rw [Function.update_of_ne h] at hid'
      exact l.helper id' hid'
  change sync.nextLane.toNat ≤ inst.lanes.toNat + tally (Helper.overshot 0) helper + 0 at hbound
  cases ok with
  | true =>
    have hc := hcount (Helper.enter inst 0)
    refine ⟨?_, nofun, nofun, hdrained _ (Helper.enter_drained 0 0), l.claims⟩
    change sync.nextLane.toNat ≤ inst.lanes.toNat +
      tally (Helper.overshot 0) (Function.update helper id (Helper.enter inst 0)) + 0
    omega
  | false =>
    have hc := hcount .refused
    refine ⟨?_, nofun, nofun, hdrained .refused rfl, l.claims⟩
    change sync.nextLane.toNat ≤ inst.lanes.toNat +
      tally (Helper.overshot 0) (Function.update helper id .refused) + 0
    omega

theorem Lanes.nextLane_succ (hlanes : inst.lanes.toNat ≤ 0xFFFFFF) (l : Lanes s) :
    (s.sync.nextLane + 1).toNat = s.sync.nextLane.toNat + 1 := by
  have hb := l.bound
  have hn := tally_le (Helper.overshot s.leader.slices) s.helper
  have hle := @helpers_le inst
  have hbool := Bool.toNat_le s.leader.overshot
  rw [UInt32.toNat_add]
  change (s.sync.nextLane.toNat + 1) % 2 ^ 32 = _
  omega

theorem Helper.not_drained_succ {pc : Helper} {k : ℕ}
    (h : pc.isRefused = true ∨ pc.parkedAt k = true) : pc.drained (k + 1) = false := by
  have hnot := Helper.not_parkedAt_succ h
  cases pc with
  | pollGeneration j => exact hnot
  | pollStop j => exact hnot
  | refused => rfl
  | _ => rcases h with h | h <;> cases h

/-- A helper that is claiming keeps the leader from resetting `next_lane`. -/
theorem Barrier.not_reset (b : Barrier s) (id : HelperId inst)
    (h : s.helper id = .drain s.leader.slices) : s.leader.reset = false := by
  cases hr : s.leader.reset with
  | false => rfl
  | true =>
    have hs := b.settled (Leader.reset_closed hr) id
    rw [h] at hs
    rcases hs with hs | hs <;> cases hs

/-- What an access of a helper has to keep; the leader stays where it is. -/
theorem Lanes.withHelper {id : HelperId inst} {pc : Helper} {sync : FillSync}
    {evs : List (Event inst)}
    (hbound : sync.nextLane.toNat ≤ inst.lanes.toNat +
      tally (Helper.overshot s.leader.slices) (Function.update s.helper id pc) +
        s.leader.overshot.toNat)
    (hreset : s.leader.reset = true → sync.nextLane = 0)
    (hleader : s.leader.drained = true →
      inst.lanes.toNat ≤ (s.withHelper id (pc, sync, evs)).frontier)
    (hhelper : ∀ id', (Function.update s.helper id pc id').drained s.leader.slices = true →
      inst.lanes.toNat ≤ (s.withHelper id (pc, sync, evs)).frontier)
    (hclaims : ClaimedOnce inst s.leader.slices (s.withHelper id (pc, sync, evs)).frontier
      (evs ++ s.log)) : Lanes (s.withHelper id (pc, sync, evs)) :=
  ⟨hbound, hreset, hleader, hhelper, hclaims⟩

theorem Lanes.helperMove (hlanes : inst.lanes.toNat ≤ 0xFFFFFF) (l : Lanes s) (b : Barrier s)
    {id : HelperId inst} {pc : Helper} {sync : FillSync} {evs : List (Event inst)}
    (m : HelperMove inst id s.sync (s.helper id) pc sync evs) :
    Lanes (s.withHelper id (pc, sync, evs)) := by
  have hsucc := l.nextLane_succ hlanes
  have hb := l.bound
  have hu := tally_update (Helper.overshot s.leader.slices) s.helper id pc
  have hfrontier : s.frontier = if s.leader.reset then inst.lanes.toNat else s.sync.nextLane.toNat :=
    rfl
  have hfrontier' : (s.withHelper id (pc, sync, evs)).frontier =
      if s.leader.reset then inst.lanes.toNat else sync.nextLane.toNat := rfl
  rcases m.lanes (b.placed id) with ⟨hpc, rfl, hle, hnext, rfl⟩ | ⟨hpc, rfl, hlt, hnext, rfl⟩ |
    ⟨hnext, hover, hdr, hevs⟩
  · have hself : (Helper.arrive s.leader.slices).overshot s.leader.slices = true :=
      beq_self_eq_true s.leader.slices
    rw [b.not_reset id hpc, if_neg Bool.false_ne_true] at hfrontier hfrontier'
    rw [hnext, hsucc] at hfrontier'
    rw [UInt32.le_iff_toNat_le] at hle
    rw [hpc, hself] at hu
    change _ + 0 = _ + 1 at hu
    refine Lanes.withHelper ?_ ?_ ?_ ?_ ?_
    · rw [hnext, hsucc]
      omega
    · intro h
      exact absurd ((b.not_reset id hpc).symm.trans h) nofun
    · intro _
      omega
    · intro _ _
      omega
    · rw [hfrontier']
      exact (hfrontier ▸ l.claims).overshoot hle (by omega)
  · rw [b.not_reset id hpc, if_neg Bool.false_ne_true] at hfrontier hfrontier'
    rw [hnext, hsucc] at hfrontier'
    rw [UInt32.le_iff_toNat_le, not_le] at hlt
    rw [hpc] at hu
    change _ + 0 = _ + 0 at hu
    refine Lanes.withHelper ?_ ?_ ?_ ?_ ?_
    · rw [hnext, hsucc]
      omega
    · intro h
      exact absurd ((b.not_reset id hpc).symm.trans h) nofun
    · intro h
      have := l.leader h
      omega
    · intro id' hid'
      have hne : id' ≠ id := by
        rintro rfl
        rw [Function.update_self] at hid'
        cases hid'
      rw [Function.update_of_ne hne] at hid'
      have := l.helper id' hid'
      omega
    · rw [hfrontier']
      exact (hfrontier ▸ l.claims).claim _ _ rfl hlt
  · rw [hnext, ← hfrontier] at hfrontier'
    refine Lanes.withHelper ?_ ?_ ?_ ?_ ?_
    · rw [hnext]
      cases ho : (s.helper id).overshot s.leader.slices with
      | false =>
        rw [ho] at hu
        change _ + 0 = _ at hu
        omega
      | true =>
        rw [ho, hover ho] at hu
        omega
    · intro h
      exact hnext.trans (l.reset h)
    · intro h
      rw [hfrontier']
      exact l.leader h
    · intro id' hid'
      rw [hfrontier']
      by_cases h : id' = id
      · rw [h, Function.update_self] at hid'
        exact l.helper id (hdr hid')
      · rw [Function.update_of_ne h] at hid'
        exact l.helper id' hid'
    · rw [hfrontier']
      exact l.claims.quiet evs hevs

theorem Lanes.enter {k : ℕ} {sync : FillSync} {spawned : UInt32} {helper : HelperId inst → Helper}
    {log : List (Event inst)} (hbound : sync.nextLane.toNat ≤
      inst.lanes.toNat + tally (Helper.overshot k) helper)
    (hhelper : ∀ id, (helper id).drained k = true → inst.lanes.toNat ≤ sync.nextLane.toNat)
    (hclaims : ClaimedOnce inst k sync.nextLane.toNat log) :
    Lanes ⟨sync, spawned, Leader.enter inst k, helper, log⟩ := by
  rcases Leader.enter_cases inst k with ⟨-, he⟩ | ⟨-, he⟩ <;> rw [he]
  · exact ⟨hbound, nofun, nofun, hhelper, hclaims⟩
  · exact ⟨hbound.trans (Nat.le_add_right _ _), nofun, nofun, hhelper, hclaims⟩

theorem Lanes.leaderMove (hlanes : inst.lanes.toNat ≤ 0xFFFFFF) {traced : Bool} (l : Lanes s)
    (b : Barrier s) {pc : Leader} {sync : FillSync} {evs : List (Event inst)}
    (m : LeaderMove inst traced s.spawned s.sync s.leader pc sync evs) :
    Lanes (s.withLeader (pc, sync, evs)) := by
  have hsucc := l.nextLane_succ hlanes
  obtain ⟨sync₀, spawned, leader, helper, log⟩ := s
  have hb := l.bound
  dsimp only at m hb hsucc
  cases m with
  | spawnedAll i h => exact ⟨l.bound, nofun, nofun, l.helper, l.claims⟩
  | charged => exact Lanes.enter l.bound l.helper l.claims
  | drained k hle =>
    rw [UInt32.le_iff_toNat_le] at hle
    refine ⟨?_, nofun, ?_, ?_, ?_⟩
    · change (sync₀.nextLane + 1).toNat ≤ _
      rw [hsucc]
      exact Nat.succ_le_succ hb
    · intro _
      change _ ≤ (sync₀.nextLane + 1).toNat
      omega
    · intro _ _
      change _ ≤ (sync₀.nextLane + 1).toNat
      omega
    · change ClaimedOnce inst k (sync₀.nextLane + 1).toNat log
      exact l.claims.overshoot hle (by omega)
  | claimed k hlt =>
    rw [UInt32.le_iff_toNat_le, not_le] at hlt
    refine ⟨?_, nofun, nofun, ?_, ?_⟩
    · change (sync₀.nextLane + 1).toNat ≤ inst.lanes.toNat + tally (Helper.overshot k) helper + 0
      omega
    · intro id hid
      exact absurd (l.helper id hid) (not_le.mpr hlt)
    · change ClaimedOnce inst k (sync₀.nextLane + 1).toNat _
      rw [hsucc]
      exact l.claims.claim _ _ rfl hlt
  | filled k lane =>
    exact ⟨l.bound, nofun, nofun, l.helper, l.claims.quiet _ fun _ _ => rfl⟩
  | unwound k lane =>
    exact ⟨hb.trans (Nat.le_succ _), nofun, nofun, l.helper, l.claims.quiet _ fun _ _ => rfl⟩
  | tracing k h hk ht => exact ⟨l.bound, nofun, l.leader, l.helper, l.claims.quiet _ fun _ _ => rfl⟩
  | bumped k => exact ⟨l.bound, nofun, nofun, l.helper, l.claims⟩
  | traceUnwound k => exact ⟨l.bound, nofun, nofun, l.helper, l.claims.quiet _ fun _ _ => rfl⟩
  | laneReset k =>
    exact ⟨Nat.zero_le _, fun _ => rfl, fun _ => le_rfl, fun _ _ => le_rfl,
      l.claims.overshoot (l.leader rfl) le_rfl⟩
  | arrivedReset k => exact ⟨l.bound, l.reset, l.leader, l.helper, l.claims⟩
  | published k =>
    have hzero : sync₀.nextLane = 0 := l.reset rfl
    refine Lanes.enter ?_ ?_ ?_
    · change sync₀.nextLane.toNat ≤ _
      rw [hzero]
      exact Nat.zero_le _
    · intro id hid
      have hnot : (helper id).drained (k + 1) = false := Helper.not_drained_succ (b.settled rfl id)
      exact absurd (hnot.symm.trans hid) nofun
    · change ClaimedOnce inst (k + 1) sync₀.nextLane.toNat log
      rw [hzero]
      exact l.claims.advance le_rfl
  | dropStopped k => exact ⟨l.bound, nofun, nofun, l.helper, l.claims⟩
  | dropBumped k => exact ⟨l.bound, nofun, nofun, l.helper, l.claims⟩
  | _ => exact ⟨l.bound, nofun, l.leader, l.helper, l.claims⟩

theorem Reachable.lanes (hlanes : inst.lanes.toNat ≤ 0xFFFFFF) {traced : Bool}
    (h : Reachable traced s) : Lanes s := by
  induction h with
  | start => exact Lanes.start
  | step worker ok hreach hstep ih =>
    have b := hreach.barrier hlanes
    rcases step_cases hstep with ⟨id, hl, rfl⟩ | ⟨x, m, rfl⟩ | ⟨id, x, m, rfl⟩
    · exact ih.spawn (hreach.roster hlanes) id hl ok
    · exact ih.leaderMove hlanes b m
    · exact ih.helperMove hlanes b m

end Steps

end Argon2Rust.Pool
