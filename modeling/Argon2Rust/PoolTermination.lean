import Argon2Rust.PoolEffects
import Argon2Rust.Ranking

set_option autoImplicit false

/-!
# The pool comes to its end

A rank for the states of the pool. Every access but a failing poll of `park_until`
lowers it: a worker moves on in its slice, a claim uses up one of the lanes that are
left, and going to the next slice is worth more than a slice has accesses. So any run
does a bounded amount of work, whoever is scheduled and whoever unwinds, and from
every reachable state some schedule brings every worker to its end.
-/
namespace Argon2Rust.Pool
open Parameters IndexAlpha Tally Ranking

section Ranks
variable (inst : Instance)

/-- The accesses that a helper still has to make, with the claims of lanes left out. -/
def Helper.rank : Helper → ℕ
  | .absent => 6 * totalSlices inst + 7
  | .fill k _ => 6 * (totalSlices inst - k) + 6
  | .drain k => 6 * (totalSlices inst - k) + 5
  | .arrive k => 6 * (totalSlices inst - k) + 4
  | .pollGeneration k | .pollStop k => 6 * (totalSlices inst - k) + 3
  | .checkStop k => 6 * (totalSlices inst - k) + 2
  | .bail _ => 1
  | .refused | .dead _ | .done => 0

def Leader.rank : Leader → ℕ
  | .spawn _ => 10 * totalSlices inst + 12
  | .charge => 10 * totalSlices inst + 11
  | .fill k _ => 10 * (totalSlices inst - k) + 10
  | .drain k => 10 * (totalSlices inst - k) + 9
  | .pollArrived k | .pollLost k _ => 10 * (totalSlices inst - k) + 8
  | .checkLost k => 10 * (totalSlices inst - k) + 7
  | .trace k => 10 * (totalSlices inst - k) + 6
  | .resetLane k => 10 * (totalSlices inst - k) + 5
  | .resetArrived k => 10 * (totalSlices inst - k) + 4
  | .publish k => 10 * (totalSlices inst - k) + 3
  | .storeStop _ => 4
  | .bumpStop _ => 3
  | .dropStop _ => 2
  | .dropBump _ => 1
  | .finished _ => 0

/-- The claims that are left when the frontier of slice `K` is at `F`. -/
def claimsLeft (K F : ℕ) : ℕ :=
  if K < totalSlices inst then
    (totalSlices inst - K - 1) * inst.lanes.toNat + (inst.lanes.toNat - F)
  else 0

variable {inst}

def helperRank (helper : HelperId inst → Helper) : ℕ := ∑ id, (helper id).rank inst

def State.rank (s : State inst) : ℕ :=
  helperRank s.helper + s.leader.rank inst + 2 * claimsLeft inst s.leader.slices s.frontier

/-- An access is work unless it leaves its worker inside `park_until`. -/
def works (choice : Worker inst × Bool) (s s' : State inst) : Bool :=
  !(s.parked choice.1 && s'.parked choice.1)

theorem helperRank_update (helper : HelperId inst → Helper) (id : HelperId inst) (pc : Helper) :
    helperRank (Function.update helper id pc) + (helper id).rank inst =
      helperRank helper + pc.rank inst := by
  have hpoint : (fun j => (Function.update helper id pc j).rank inst) =
      Function.update (fun j => (helper j).rank inst) id (pc.rank inst) := by
    funext j
    by_cases h : j = id
    · rw [h, Function.update_self, Function.update_self]
    · rw [Function.update_of_ne h, Function.update_of_ne h]
  have hsplit := Finset.sum_erase_add Finset.univ (fun j => (helper j).rank inst)
    (Finset.mem_univ id)
  unfold helperRank
  rw [hpoint, Finset.sum_update_of_mem (Finset.mem_univ id), Finset.sdiff_singleton_eq_erase,
    ← hsplit]
  omega

end Ranks

section Moves
variable {inst : Instance}

theorem Helper.enter_rank (k : ℕ) : (Helper.enter inst (k + 1)).rank inst + 1 ≤
    6 * (totalSlices inst - k) + 2 := by
  rcases Helper.enter_cases inst (k + 1) with ⟨hk, he⟩ | ⟨-, he⟩ <;> rw [he]
  · change 6 * (totalSlices inst - (k + 1)) + 5 + 1 ≤ _
    omega
  · exact Nat.le_add_left _ _

theorem Helper.enter_rank_zero :
    (Helper.enter inst 0).rank inst ≤ 6 * totalSlices inst + 5 := by
  rcases Helper.enter_cases inst 0 with ⟨-, he⟩ | ⟨-, he⟩ <;> rw [he]
  · exact le_rfl
  · exact Nat.zero_le _

theorem Leader.enter_rank (k : ℕ) : (Leader.enter inst (k + 1)).rank inst + 1 ≤
    10 * (totalSlices inst - k) + 3 := by
  rcases Leader.enter_cases inst (k + 1) with ⟨hk, he⟩ | ⟨-, he⟩ <;> rw [he]
  · change 10 * (totalSlices inst - (k + 1)) + 9 + 1 ≤ _
    omega
  · exact Nat.le_add_left _ _

theorem Leader.enter_rank_zero :
    (Leader.enter inst 0).rank inst + 1 ≤ 10 * totalSlices inst + 11 := by
  rcases Leader.enter_cases inst 0 with ⟨-, he⟩ | ⟨-, he⟩ <;> rw [he]
  · change 10 * totalSlices inst + 9 + 1 ≤ _
    omega
  · change 2 + 1 ≤ _
    omega

variable {sync sync' : FillSync} {evs : List (Event inst)}

theorem HelperMove.rank {id : HelperId inst} {pc pc' : Helper}
    (m : HelperMove inst id sync pc pc' sync' evs) :
    (pc.parked = true ∧ pc'.parked = true ∧ pc'.rank inst = pc.rank inst ∧
      sync'.nextLane = sync.nextLane) ∨
    (∃ k, pc = .drain k ∧ ¬ inst.lanes ≤ sync.nextLane ∧ pc'.rank inst = pc.rank inst + 1 ∧
      sync'.nextLane = sync.nextLane + 1) ∨
    (pc'.rank inst + 1 ≤ pc.rank inst ∧ (sync'.nextLane = sync.nextLane ∨
      (inst.lanes ≤ sync.nextLane ∧ sync'.nextLane = sync.nextLane + 1))) := by
  cases m with
  | drained k h => exact Or.inr (Or.inr ⟨le_rfl, Or.inr ⟨h, rfl⟩⟩)
  | claimed k h => exact Or.inr (Or.inl ⟨k, rfl, h, rfl, rfl⟩)
  | waited k h => exact Or.inl ⟨rfl, rfl, rfl, rfl⟩
  | parked k h => exact Or.inl ⟨rfl, rfl, rfl, rfl⟩
  | entered k h => exact Or.inr (Or.inr ⟨Helper.enter_rank k, Or.inl rfl⟩)
  | filled k lane => exact Or.inr (Or.inr ⟨le_rfl, Or.inl rfl⟩)
  | unwound k lane =>
    refine Or.inr (Or.inr ⟨?_, Or.inl rfl⟩)
    change 1 + 1 ≤ 6 * (totalSlices inst - k) + 6
    omega
  | left k h =>
    refine Or.inr (Or.inr ⟨?_, Or.inl rfl⟩)
    change 0 + 1 ≤ 6 * (totalSlices inst - k) + 2
    omega
  | _ => exact Or.inr (Or.inr ⟨le_rfl, Or.inl rfl⟩)

theorem LeaderMove.rank {traced : Bool} {spawned : UInt32} {pc pc' : Leader}
    (m : LeaderMove inst traced spawned sync pc pc' sync' evs) :
    (pc.parked = true ∧ pc'.parked = true ∧ pc'.rank inst = pc.rank inst) ∨
    (∃ k, pc = .drain k ∧ ¬ inst.lanes ≤ sync.nextLane ∧ pc' = .fill k sync.nextLane ∧
      sync'.nextLane = sync.nextLane + 1) ∨
    pc'.rank inst + 1 ≤ pc.rank inst := by
  cases m with
  | claimed k h => exact Or.inr (Or.inl ⟨k, rfl, h, rfl, rfl⟩)
  | polled k => exact Or.inl ⟨rfl, rfl, rfl⟩
  | waited k a h => exact Or.inl ⟨rfl, rfl, rfl⟩
  | charged => exact Or.inr (Or.inr Leader.enter_rank_zero)
  | published k => exact Or.inr (Or.inr (Leader.enter_rank k))
  | unwound k lane =>
    refine Or.inr (Or.inr ?_)
    change 2 + 1 ≤ 10 * (totalSlices inst - k) + 10
    omega
  | lostOne k h =>
    refine Or.inr (Or.inr ?_)
    change 4 + 1 ≤ 10 * (totalSlices inst - k) + 7
    omega
  | traceUnwound k =>
    refine Or.inr (Or.inr ?_)
    change 2 + 1 ≤ 10 * (totalSlices inst - k) + 6
    omega
  | untraced k h ht =>
    refine Or.inr (Or.inr ?_)
    change 10 * (totalSlices inst - k) + 5 + 1 ≤ 10 * (totalSlices inst - k) + 7
    omega
  | _ => exact Or.inr (Or.inr le_rfl)

end Moves

section Steps
variable {inst : Instance} {s s' : State inst} {traced : Bool}
  (hlanes : inst.lanes.toNat ≤ 0xFFFFFF) (r : Roster s) (b : Barrier s) (l : Lanes s)
include hlanes b l

/-- A helper's access uses up a lane if it claims one, and otherwise leaves the lanes as they are. -/
theorem helper_rank (m : Remembered s) {id : HelperId inst}
    {x : Helper × FillSync × List (Event inst)}
    (h : HelperMove inst id s.sync (s.helper id) x.1 x.2.1 x.2.2) :
    (s.withHelper id x).rank + (works (.helper id, true) s (s.withHelper id x)).toNat ≤ s.rank := by
  have hsum := helperRank_update s.helper id x.1
  have hself : (s.withHelper id x).helper id = x.1 := Function.update_self _ _ _
  have hworks := Bool.toNat_le (works (.helper id, true) s (s.withHelper id x))
  have hsucc := l.nextLane_succ hlanes
  have hrank : (s.withHelper id x).rank = helperRank (Function.update s.helper id x.1) +
      s.leader.rank inst + 2 * claimsLeft inst s.leader.slices (s.withHelper id x).frontier := rfl
  rcases h.rank with ⟨hpark, hpark', heq, hnext⟩ | ⟨k, hpc, hgt, heq, hnext⟩ | ⟨hlt, hnext⟩
  · have hidle : works (.helper id, true) s (s.withHelper id x) = false := by
      change (!((s.helper id).parked && ((s.withHelper id x).helper id).parked)) = false
      rw [hself, hpark, hpark']
      rfl
    have hfrontier : (s.withHelper id x).frontier = s.frontier := by
      change (if s.leader.reset = true then _ else x.2.1.nextLane.toNat) = _
      rw [hnext]
      rfl
    rw [hidle, hrank, hfrontier]
    unfold State.rank
    change _ + 0 ≤ _
    omega
  · have hk : k = s.leader.slices := by
      have hplaced := b.placed id
      rw [hpc] at hplaced
      exact hplaced
    have hreset := b.not_reset id (by rw [hpc, hk])
    have hdraining := m.draining id k hpc
    have hfrontier : s.frontier = s.sync.nextLane.toNat := by
      unfold State.frontier
      rw [hreset]
      rfl
    have hfrontier' : (s.withHelper id x).frontier = s.sync.nextLane.toNat + 1 := by
      change (if s.leader.reset = true then _ else x.2.1.nextLane.toNat) = _
      rw [hreset, hnext, hsucc]
      rfl
    rw [UInt32.le_iff_toNat_le] at hgt
    rw [hrank, hfrontier']
    unfold State.rank claimsLeft
    rw [if_pos (hk ▸ hdraining), if_pos (hk ▸ hdraining), hfrontier]
    omega
  · have hleft : claimsLeft inst s.leader.slices (s.withHelper id x).frontier ≤
        claimsLeft inst s.leader.slices s.frontier := by
      have hfrontier : s.frontier ≤ (s.withHelper id x).frontier := by
        change _ ≤ (if s.leader.reset = true then _ else x.2.1.nextLane.toNat)
        unfold State.frontier
        by_cases hreset : s.leader.reset = true
        · rw [if_pos hreset, if_pos hreset]
        · rw [if_neg hreset, if_neg hreset]
          rcases hnext with hnext | ⟨-, hnext⟩
          · rw [hnext]
          · rw [hnext, hsucc]
            exact Nat.le_succ _
      unfold claimsLeft
      split_ifs
      · omega
      · exact le_rfl
    rw [hrank]
    unfold State.rank
    omega

omit hlanes b l in
theorem claimsLeft_mono {K F F' : ℕ} (h : inst.lanes.toNat - F' ≤ inst.lanes.toNat - F) :
    claimsLeft inst K F' ≤ claimsLeft inst K F := by
  unfold claimsLeft
  split_ifs
  · exact Nat.add_le_add_left h _
  · exact le_rfl

omit hlanes b l in
theorem claimsLeft_succ (k F : ℕ) : claimsLeft inst (k + 1) F ≤ claimsLeft inst k inst.lanes.toNat := by
  unfold claimsLeft
  by_cases hk : k + 1 < totalSlices inst
  · obtain ⟨n, hn⟩ := Nat.exists_eq_add_of_lt hk
    rw [if_pos hk, if_pos (Nat.lt_of_succ_lt hk), hn, show k + 1 + n + 1 - (k + 1) - 1 = n by omega,
      show k + 1 + n + 1 - k - 1 = n + 1 by omega, Nat.succ_mul]
    omega
  · rw [if_neg hk]
    exact Nat.zero_le _

omit b in
theorem leader_claimsLeft {x : Leader × FillSync × List (Event inst)}
    (h : LeaderMove inst traced s.spawned s.sync s.leader x.1 x.2.1 x.2.2) :
    claimsLeft inst (s.withLeader x).leader.slices (s.withLeader x).frontier ≤
      claimsLeft inst s.leader.slices s.frontier := by
  have hsucc := l.nextLane_succ hlanes
  have hdrained := l.leader
  obtain ⟨sync₀, spawned, leader, helper, log⟩ := s
  obtain ⟨pc, sync, evs⟩ := x
  dsimp only at h hsucc hdrained
  cases h with
  | charged =>
    rcases Leader.enter_cases inst 0 with ⟨-, he⟩ | ⟨-, he⟩
    · simp only [State.withLeader, State.frontier, he]
      exact le_rfl
    · simp only [State.withLeader, State.frontier, he]
      exact le_rfl
  | drained k hle =>
    refine claimsLeft_mono ?_
    change inst.lanes.toNat - (sync₀.nextLane + 1).toNat ≤ inst.lanes.toNat - sync₀.nextLane.toNat
    omega
  | claimed k hgt =>
    refine claimsLeft_mono ?_
    change inst.lanes.toNat - (sync₀.nextLane + 1).toNat ≤ inst.lanes.toNat - sync₀.nextLane.toNat
    omega
  | laneReset k =>
    refine claimsLeft_mono ?_
    change inst.lanes.toNat - inst.lanes.toNat ≤ _
    omega
  | published k =>
    have hslices : (Leader.enter inst (k + 1)).slices = k + 1 := Leader.enter_slices _
    change claimsLeft inst (Leader.enter inst (k + 1)).slices _ ≤ claimsLeft inst k inst.lanes.toNat
    rw [hslices]
    exact claimsLeft_succ k _
  | _ => exact le_rfl

theorem leader_rank {x : Leader × FillSync × List (Event inst)} (ok : Bool)
    (h : LeaderMove inst traced s.spawned s.sync s.leader x.1 x.2.1 x.2.2) :
    (s.withLeader x).rank + (works (.leader, ok) s (s.withLeader x)).toNat ≤ s.rank := by
  have hworks := Bool.toNat_le (works (.leader, ok) s (s.withLeader x))
  have hleft := leader_claimsLeft hlanes l h
  have hsucc := l.nextLane_succ hlanes
  have hrank : (s.withLeader x).rank = helperRank s.helper + x.1.rank inst +
      2 * claimsLeft inst (s.withLeader x).leader.slices (s.withLeader x).frontier := rfl
  rcases h.rank with ⟨hpark, hpark', heq⟩ | ⟨k, hpc, hgt, hpc', hnext⟩ | hlt
  · have hidle : works (.leader, ok) s (s.withLeader x) = false := by
      change (!(s.leader.parked && x.1.parked)) = false
      rw [hpark, hpark']
      rfl
    rw [hidle, hrank]
    unfold State.rank
    change _ + 0 ≤ _
    omega
  · have hworking := b.working (by rw [hpc]; rfl)
    have hfrontier : s.frontier = s.sync.nextLane.toNat := by
      unfold State.frontier
      rw [hpc]
      rfl
    have hfrontier' : (s.withLeader x).frontier = s.sync.nextLane.toNat + 1 := by
      change (if x.1.reset = true then _ else x.2.1.nextLane.toNat) = _
      rw [hpc', hnext, hsucc]
      rfl
    rw [hpc] at hworking
    change k < totalSlices inst at hworking
    have hbefore : s.rank = helperRank s.helper + (10 * (totalSlices inst - k) + 9) + 2 *
        ((totalSlices inst - k - 1) * inst.lanes.toNat +
          (inst.lanes.toNat - s.sync.nextLane.toNat)) := by
      unfold State.rank claimsLeft
      rw [hpc, hfrontier]
      change _ + 2 * (if k < totalSlices inst then _ else 0) = _
      rw [if_pos hworking]
      rfl
    have hafter : (s.withLeader x).rank =
        helperRank s.helper + (10 * (totalSlices inst - k) + 10) + 2 *
          ((totalSlices inst - k - 1) * inst.lanes.toNat +
            (inst.lanes.toNat - (s.sync.nextLane.toNat + 1))) := by
      rw [hrank, hfrontier']
      change _ + x.1.rank inst + 2 * claimsLeft inst x.1.slices _ = _
      unfold claimsLeft
      rw [hpc']
      change _ + 2 * (if k < totalSlices inst then _ else 0) = _
      rw [if_pos hworking]
      rfl
    rw [UInt32.le_iff_toNat_le] at hgt
    omega
  · rw [hrank]
    unfold State.rank
    omega

include r in
/-- Every step lowers the rank, except that a step inside `park_until` may keep it. -/
theorem step_rank (m : Remembered s) {choice : Worker inst × Bool}
    (h : s.step traced choice.1 choice.2 = some s') :
    s'.rank + (works choice s s').toNat ≤ s.rank := by
  obtain ⟨worker, ok⟩ := choice
  cases worker with
  | leader =>
    rcases step_leader h with ⟨id, hl, rfl⟩ | ⟨x, hx, hspawn, rfl⟩
    · have hsum : ∀ pc, helperRank (Function.update s.helper id pc) + (6 * totalSlices inst + 7) =
          helperRank s.helper + pc.rank inst := by
        intro pc
        have h := helperRank_update s.helper id pc
        rw [r.unspawned id id hl le_rfl] at h
        exact h
      have hworks := Bool.toNat_le (works (.leader, ok) s (s.spawn id ok))
      have henter := hsum (Helper.enter inst 0)
      have hrefused := hsum .refused
      have hzero := @Helper.enter_rank_zero inst
      dsimp only at hworks ⊢
      have hself : s.rank = helperRank s.helper + (10 * totalSlices inst + 12) +
          2 * claimsLeft inst 0 s.sync.nextLane.toNat := by
        unfold State.rank State.frontier
        rw [hl]
        rfl
      cases ok with
      | true =>
        have hspawned : (s.spawn id true).rank = helperRank (Function.update s.helper id
            (Helper.enter inst 0)) + (10 * totalSlices inst + 12) +
            2 * claimsLeft inst 0 s.sync.nextLane.toNat := rfl
        rw [hself, hspawned]
        omega
      | false =>
        have hspawned : (s.spawn id false).rank = helperRank (Function.update s.helper id
            .refused) + (10 * totalSlices inst + 12) +
            2 * claimsLeft inst 0 s.sync.nextLane.toNat := rfl
        change _ = _ + 0 at hrefused
        rw [hself, hspawned]
        omega
    · exact leader_rank hlanes b l ok (Leader.next_move inst hspawn hx)
  | helper id =>
    obtain ⟨x, hx, rfl⟩ := step_helper h
    exact helper_rank hlanes b l m (Helper.next_move inst hx)

end Steps

section Runs
variable {inst : Instance} {traced : Bool}

def choose (traced : Bool) (choice : Worker inst × Bool) (s : State inst) : Option (State inst) :=
  s.step traced choice.1 choice.2

def poolRank (hlanes : inst.lanes.toNat ≤ 0xFFFFFF) (traced : Bool) :
    Rank (choose traced) works (Reachable traced : State inst → Prop) where
  rank := State.rank
  inv hs hstep := hs.step _ _ hstep
  falls hs hstep := step_rank hlanes (hs.roster hlanes) (hs.barrier hlanes) (hs.lanes hlanes)
    (hs.remembered hlanes) hstep

theorem Helper.next_some (id : HelperId inst) (sync : FillSync) {pc : Helper}
    (h : pc.finished = false) : ∃ x, Helper.next inst id true sync pc = some x := by
  cases pc with
  | absent => cases h
  | refused => cases h
  | dead k => cases h
  | done => cases h
  | fill k lane => exact ⟨_, rfl⟩
  | arrive k => exact ⟨_, rfl⟩
  | bail k => exact ⟨_, rfl⟩
  | _ =>
    dsimp only [Helper.next]
    split_ifs <;> exact ⟨_, rfl⟩

theorem Leader.next_some (inst : Instance) (traced : Bool) (spawned : UInt32) (sync : FillSync) {pc : Leader}
    (h : pc.finishes = false) : ∃ x, Leader.next inst traced true spawned sync pc = some x := by
  cases pc with
  | finished k => cases h
  | drain k =>
    dsimp only [Leader.next]
    split_ifs <;> exact ⟨_, rfl⟩
  | pollLost k a =>
    dsimp only [Leader.next]
    split_ifs <;> exact ⟨_, rfl⟩
  | checkLost k =>
    dsimp only [Leader.next]
    split_ifs <;> exact ⟨_, rfl⟩
  | _ => exact ⟨_, rfl⟩

variable (traced) in
theorem step_of_unfinished {s : State inst} {worker : Worker inst}
    (h : s.finished worker = false) : ∃ s', s.step traced worker true = some s' := by
  cases worker with
  | helper id =>
    obtain ⟨x, hx⟩ := Helper.next_some id s.sync h
    exact ⟨s.withHelper id x, congrArg (Option.map (s.withHelper id)) hx⟩
  | leader =>
    obtain ⟨x, hx⟩ := Leader.next_some inst traced s.spawned s.sync h
    unfold State.step
    cases hl : s.leader with
    | spawn i =>
      dsimp only
      split_ifs
      · exact ⟨_, rfl⟩
      · rw [hl] at hx
        exact ⟨_, congrArg (Option.map s.withLeader) hx⟩
    | _ =>
      rw [hl] at hx
      exact ⟨_, congrArg (Option.map s.withLeader) hx⟩

/-- While a worker goes on alone the rank does not rise; if that gets it out of `park_until`,
the rank falls. -/
theorem advance_rank (hlanes : inst.lanes.toNat ≤ 0xFFFFFF) (worker : Worker inst) (m : ℕ)
    {s : State inst} (hs : Reachable traced s) :
    ∃ schedule : List (Worker inst × Bool), (∀ choice ∈ schedule, choice.2 = true) ∧
      run (choose traced) schedule s = some ((State.advance traced worker)^[m] s) ∧
      (s.parked worker = true → ((State.advance traced worker)^[m] s).parked worker = false →
        ((State.advance traced worker)^[m] s).rank < s.rank) := by
  induction m generalizing s with
  | zero => exact ⟨[], nofun, rfl, fun h h' => absurd (h.symm.trans h') nofun⟩
  | succ m ih =>
    rw [Function.iterate_succ_apply]
    cases hstep : s.step traced worker true with
    | none =>
      have hsame : State.advance traced worker s = s := by
        unfold State.advance
        rw [hstep]
        rfl
      rw [hsame]
      exact ih hs
    | some t =>
      have hnext : State.advance traced worker s = t := by
        unfold State.advance
        rw [hstep]
        rfl
      have ht := hs.step worker true hstep
      have hfalls : t.rank + (works (worker, true) s t).toNat ≤ s.rank :=
        (poolRank hlanes traced).falls hs hstep
      obtain ⟨schedule, hallowed, hrun, hlt⟩ := ih ht
      rw [hnext]
      refine ⟨(worker, true) :: schedule, ?_, (run_cons _).mpr ⟨t, hstep, hrun⟩, fun hp hp' => ?_⟩
      · intro choice hc
        rcases List.mem_cons.mp hc with rfl | hc
        · rfl
        · exact hallowed choice hc
      · cases htp : t.parked worker with
        | true =>
          have hlater := hlt htp hp'
          omega
        | false =>
          have hworks : works (worker, true) s t = true := by
            change (!(s.parked worker && t.parked worker)) = true
            rw [htp, Bool.and_false]
            rfl
          have hmono := (poolRank hlanes traced).work_le ht hrun
          change ((State.advance traced worker)^[m] t).rank + _ ≤ t.rank at hmono
          rw [hworks] at hfalls
          change t.rank + 1 ≤ s.rank at hfalls
          omega

theorem work_within_reach (hlanes : inst.lanes.toNat ≤ 0xFFFFFF) {s : State inst}
    (hs : Reachable traced s) (hunfinished : ¬ ∀ worker, s.finished worker = true) :
    ∃ schedule s', (∀ choice ∈ schedule, choice.2 = true) ∧
      run (choose traced) schedule s = some s' ∧ s'.rank < s.rank := by
  rw [not_forall] at hunfinished
  obtain ⟨worker, hworker⟩ := hunfinished
  obtain ⟨worker', hunfinished', -, m, -, hunparks⟩ := somebody_moves hlanes traced
    (hs.roster hlanes) (hs.barrier hlanes) worker (Bool.eq_false_iff.mpr hworker)
  cases hpark : s.parked worker' with
  | true =>
    obtain ⟨schedule, hallowed, hrun, hlt⟩ := advance_rank hlanes worker' m hs
    exact ⟨schedule, _, hallowed, hrun, hlt hpark hunparks⟩
  | false =>
    obtain ⟨t, ht⟩ := step_of_unfinished traced hunfinished'
    have hfalls : t.rank + (works (worker', true) s t).toNat ≤ s.rank :=
      (poolRank hlanes traced).falls hs ht
    have hworks : works (worker', true) s t = true := by
      change (!(s.parked worker' && t.parked worker')) = true
      rw [hpark]
      rfl
    rw [hworks] at hfalls
    exact ⟨[(worker', true)], t, fun choice hc => by cases List.mem_singleton.mp hc; rfl,
      (run_cons _).mpr ⟨t, ht, rfl⟩, hfalls⟩

/-- The rank of the start: what any run can do at most. -/
def workBound (inst : Instance) : ℕ :=
  (helpers inst).toNat * (6 * totalSlices inst + 7) + (10 * totalSlices inst + 12) +
    2 * (totalSlices inst * inst.lanes.toNat)

theorem start_rank : (State.start inst).rank = workBound inst := by
  have hleft : claimsLeft inst 0 0 = totalSlices inst * inst.lanes.toNat := by
    unfold claimsLeft
    by_cases h : 0 < totalSlices inst
    · obtain ⟨n, hn⟩ := Nat.exists_eq_add_of_lt h
      rw [if_pos h, hn, show 0 + n + 1 - 0 - 1 = n by omega, Nat.zero_add, Nat.succ_mul, Nat.sub_zero]
    · rw [if_neg h, Nat.le_zero.mp (not_lt.mp h), Nat.zero_mul]
  have hhelpers : helperRank (State.start inst).helper =
      (helpers inst).toNat * (6 * totalSlices inst + 7) := by
    change ∑ _id : Fin (helpers inst).toNat, (6 * totalSlices inst + 7) = _
    rw [Finset.sum_const, Finset.card_univ, Fintype.card_fin, smul_eq_mul]
  unfold State.rank workBound
  rw [hhelpers]
  change _ + (10 * totalSlices inst + 12) + 2 * claimsLeft inst 0 0 = _
  rw [hleft]

end Runs

/-- Every run of the pool, with any helpers refused and anybody unwinding, does a bounded number
of accesses other than failing polls; and from every state it can reach, some schedule in which
nothing fails any more brings every worker to its end. -/
theorem pool_terminates {w : PointerWidth} (algorithm : Algorithm) (version : Version)
    (p : Params w) (traced : Bool) :
    (∀ schedule s, run (choose traced) schedule (State.start (Instance.new algorithm version p)) =
      some s → work (choose traced) works schedule (State.start (Instance.new algorithm version p)) ≤
        workBound (Instance.new algorithm version p)) ∧
    ∀ s : State (Instance.new algorithm version p), Reachable traced s →
      ∃ schedule s', (∀ choice ∈ schedule, choice.2 = true) ∧
        run (choose traced) schedule s = some s' ∧ ∀ worker, s'.finished worker = true := by
  refine ⟨fun schedule s hrun => ?_, fun s hs => ?_⟩
  · have hle := (poolRank p.costs.lanes_le traced).work_le Reachable.start hrun
    change s.rank + _ ≤ (State.start (Instance.new algorithm version p)).rank at hle
    rw [start_rank] at hle
    omega
  · exact (poolRank p.costs.lanes_le traced).finishes
      (fun t ht => work_within_reach p.costs.lanes_le ht) hs

theorem pool_terminates_two : ∃ schedule s', (∀ choice ∈ schedule, choice.2 = true) ∧
    run (choose true) schedule (State.start twoWorkers) = some s' ∧
    ∀ worker, s'.finished worker = true :=
  (pool_terminates .argon2id .v0x13 Independence.twoLanes true).2 _ .start

end Argon2Rust.Pool
