import Argon2Rust.PoolRoster

set_option autoImplicit false

/-!
# The barrier

Where each helper can be while the leader has `K` slices behind it: at work in
slice `K`, parked after it, or not yet released from the barrier before. `arrived`
counts the helpers parked after slice `K`, so once the leader's wait is over nobody
is left inside the slice, and until it publishes the next generation or sets
`stop` nobody moves.
-/
namespace Argon2Rust.Pool
open Parameters IndexAlpha Tally

/-- The slices a leader has behind it. -/
def Leader.slices : Leader → ℕ
  | .spawn _ | .charge => 0
  | .drain k | .fill k _ | .pollArrived k | .pollLost k _ | .checkLost k | .storeStop k
  | .bumpStop k | .trace k | .resetLane k | .resetArrived k | .publish k | .dropStop k
  | .dropBump k | .finished k => k

def Leader.working : Leader → Bool
  | .spawn _ | .charge | .dropStop _ | .dropBump _ | .finished _ => false
  | _ => true

def Leader.leaving : Leader → Bool
  | .bumpStop _ | .dropStop _ | .dropBump _ | .finished _ => true
  | _ => false

def Leader.halted : Leader → Bool
  | .bumpStop _ | .dropBump _ | .finished _ => true
  | _ => false

/-- The leader is past the wait for its slice and has not released the next one. -/
def Leader.closed : Leader → Bool
  | .trace _ | .resetLane _ | .resetArrived _ | .publish _ => true
  | _ => false

def Leader.isPublish : Leader → Bool
  | .publish _ => true
  | _ => false

def Helper.parkedAt (K : ℕ) : Helper → Bool
  | .pollGeneration k | .pollStop k => k == K
  | _ => false

/-- Where a helper can be, given the slices behind the leader. -/
def Placed (inst : Instance) (K : ℕ) (stop : Bool) : Helper → Prop
  | .absent | .refused => True
  | .drain k | .fill k _ | .arrive k | .bail k | .dead k => k = K
  | .pollGeneration k | .pollStop k => k = K ∨ k + 1 = K
  | .checkStop k => k + 1 = K ∨ (k = K ∧ stop = true)
  | .done => stop = true ∨ K = totalSlices inst

structure Barrier {inst : Instance} (s : State inst) : Prop where
  slices_le : s.leader.slices ≤ totalSlices inst
  working : s.leader.working = true → s.leader.slices < totalSlices inst
  stop : s.sync.stop = true → s.leader.leaving = true
  halted : s.leader.halted = true → s.sync.stop = true
  generation : s.sync.stop = false → s.sync.generation = UInt32.ofNat s.leader.slices
  placed : ∀ id, Placed inst s.leader.slices s.sync.stop (s.helper id)
  settled : s.leader.closed = true → ∀ id,
    (s.helper id).isRefused = true ∨ (s.helper id).parkedAt s.leader.slices = true
  checked : ∀ k, s.leader = .checkLost k → ∀ id, (s.helper id).isRefused = true ∨
    (s.helper id).isDead = true ∨ (s.helper id).parkedAt s.leader.slices = true
  arrived : s.sync.stop = false → s.sync.arrived.toNat =
    if s.leader.isPublish then 0 else tally (Helper.parkedAt s.leader.slices) s.helper
  polled : ∀ k a, s.leader = .pollLost k a →
    a.toNat ≤ tally (Helper.parkedAt s.leader.slices) s.helper

section Phases
variable {pc : Leader}

theorem Leader.closed_not_leaving (h : pc.closed = true) : pc.leaving = false := by
  cases pc <;> first | rfl | cases h

theorem Leader.publish_closed (h : pc.isPublish = true) : pc.closed = true := by
  cases pc <;> first | rfl | cases h

end Phases

theorem ofNat_ne_succ (k : ℕ) : UInt32.ofNat k ≠ UInt32.ofNat (k + 1) := by
  intro h
  have hk := congrArg UInt32.toNat h
  rw [UInt32.toNat_ofNat', UInt32.toNat_ofNat'] at hk
  omega

section Enter
variable {inst : Instance}

theorem Placed.mono {K : ℕ} {stop : Bool} {pc : Helper} (h : Placed inst K stop pc) :
    Placed inst K true pc := by
  cases pc with
  | checkStop k =>
    rcases h with h | ⟨h, -⟩
    · exact Or.inl h
    · exact Or.inr ⟨h, rfl⟩
  | done => exact Or.inl rfl
  | _ => exact h

theorem Helper.enter_placed (k : ℕ) (stop : Bool) (h : k ≤ totalSlices inst) :
    Placed inst k stop (Helper.enter inst k) := by
  rcases Helper.enter_cases inst k with ⟨-, he⟩ | ⟨hle, he⟩ <;> rw [he]
  · rfl
  · exact Or.inr (le_antisymm h hle)

@[simp] theorem Helper.enter_parkedAt (k K : ℕ) : (Helper.enter inst k).parkedAt K = false :=
  Helper.enter_ind inst k (fun pc => pc.parkedAt K = false) rfl rfl

@[simp] theorem Leader.enter_slices (k : ℕ) : (Leader.enter inst k).slices = k :=
  Leader.enter_ind inst k (fun pc => pc.slices = k) rfl rfl

@[simp] theorem Leader.enter_halted (k : ℕ) : (Leader.enter inst k).halted = false :=
  Leader.enter_ind inst k (fun pc => pc.halted = false) rfl rfl

@[simp] theorem Leader.enter_closed (k : ℕ) : (Leader.enter inst k).closed = false :=
  Leader.enter_ind inst k (fun pc => pc.closed = false) rfl rfl

@[simp] theorem Leader.enter_isPublish (k : ℕ) : (Leader.enter inst k).isPublish = false :=
  Leader.enter_ind inst k (fun pc => pc.isPublish = false) rfl rfl

theorem Leader.enter_working (k : ℕ) (h : (Leader.enter inst k).working = true) :
    k < totalSlices inst := by
  rcases Leader.enter_cases inst k with ⟨hlt, -⟩ | ⟨-, he⟩
  · exact hlt
  · rw [he] at h
    cases h

theorem Leader.enter_ne_checkLost (k j : ℕ) : Leader.enter inst k ≠ .checkLost j :=
  Leader.enter_ind inst k (fun pc => pc ≠ .checkLost j) nofun nofun

theorem Leader.enter_ne_pollLost (k j : ℕ) (a : UInt32) : Leader.enter inst k ≠ .pollLost j a :=
  Leader.enter_ind inst k (fun pc => pc ≠ .pollLost j a) nofun nofun

end Enter

section Helpers
variable {inst : Instance} {id : HelperId inst} {sync sync' : FillSync} {pc pc' : Helper}
  {evs : List (Event inst)} {K : ℕ}

theorem HelperMove.stop_eq (m : HelperMove inst id sync pc pc' sync' evs) :
    sync'.stop = sync.stop ∧ sync'.generation = sync.generation := by
  cases m <;> exact ⟨rfl, rfl⟩

theorem HelperMove.placed (m : HelperMove inst id sync pc pc' sync' evs)
    (hK : K ≤ totalSlices inst) (hgen : sync.stop = false → sync.generation = UInt32.ofNat K)
    (h : Placed inst K sync.stop pc) : Placed inst K sync'.stop pc' := by
  rw [m.stop_eq.1]
  cases m with
  | drained k hl => exact h
  | claimed k hl => exact h
  | filled k lane => exact h
  | unwound k lane => exact h
  | arrived k => exact Or.inl h
  | released k hg =>
    rcases h with rfl | h
    · cases hs : sync.stop with
      | false => exact absurd ((hgen hs).symm.trans hg) (ofNat_ne_succ k)
      | true => exact Or.inr ⟨rfl, rfl⟩
    · exact Or.inl h
  | waited k hg => exact h
  | stopped k hs =>
    rcases h with h | h
    · exact Or.inr ⟨h, hs⟩
    · exact Or.inl h
  | parked k hs => exact h
  | left k hs => exact Or.inl hs
  | entered k hs =>
    rcases h with rfl | ⟨-, h⟩
    · exact Helper.enter_placed _ _ hK
    · rw [hs] at h
      cases h
  | bailed k => exact h

/-- Until `stop`, a helper parked after the leader's slice stays there. -/
theorem HelperMove.parked_iff (m : HelperMove inst id sync pc pc' sync' evs)
    (hstop : sync.stop = false) (hgen : sync.generation = UInt32.ofNat K)
    (h : Placed inst K sync.stop pc) :
    (pc'.parkedAt K = pc.parkedAt K ∧ sync'.arrived = sync.arrived) ∨
      (pc.parkedAt K = false ∧ pc'.parkedAt K = true ∧ sync'.arrived = sync.arrived + 1) := by
  cases m with
  | arrived k => exact Or.inr ⟨rfl, beq_iff_eq.mpr h, rfl⟩
  | released k hg =>
    refine Or.inl ⟨?_, rfl⟩
    have hne : k ≠ K := by
      rintro rfl
      exact ofNat_ne_succ k (hgen.symm.trans hg)
    exact (beq_eq_false_iff_ne.mpr hne).symm
  | stopped k hs =>
    rw [hstop] at hs
    cases hs
  | left k hs =>
    rw [hstop] at hs
    cases hs
  | entered k hs => exact Or.inl ⟨Helper.enter_parkedAt _ _, rfl⟩
  | _ => exact Or.inl ⟨rfl, rfl⟩

theorem HelperMove.alive (m : HelperMove inst id sync pc pc' sync' evs) :
    pc.isRefused = false ∧ pc.isDead = false := by
  cases m <;> exact ⟨rfl, rfl⟩

end Helpers

section Steps
variable {inst : Instance} {s : State inst}

theorem Barrier.stop_false (b : Barrier s) (h : s.leader.leaving = false) : s.sync.stop = false := by
  cases hs : s.sync.stop with
  | false => rfl
  | true =>
    rw [b.stop hs] at h
    cases h

theorem Barrier.start : Barrier (State.start inst) where
  slices_le := Nat.zero_le _
  working := nofun
  stop := nofun
  halted := nofun
  generation := fun _ => rfl
  placed := fun _ => trivial
  settled := nofun
  checked := nofun
  arrived := fun _ => (tally_eq_zero (Helper.parkedAt 0) _ fun _ => rfl).symm
  polled := nofun

theorem Barrier.spawn (b : Barrier s) (r : Roster s) (id : HelperId inst)
    (hl : s.leader = .spawn id) (ok : Bool) : Barrier (s.spawn id ok) := by
  obtain ⟨sync, spawned, leader, helper, log⟩ := s
  dsimp only at hl
  subst hl
  have habs : helper id = .absent := r.unspawned id id rfl le_rfl
  have hstop : sync.stop = false := b.stop_false rfl
  have hplaced : ∀ pc, Placed inst 0 sync.stop pc → ∀ id',
      Placed inst 0 sync.stop (Function.update helper id pc id') := by
    intro pc hpc id'
    by_cases h : id' = id
    · rw [h, Function.update_self]
      exact hpc
    · rw [Function.update_of_ne h]
      exact b.placed id'
  have harrived : ∀ pc : Helper, pc.parkedAt 0 = false →
      sync.arrived.toNat = tally (Helper.parkedAt 0) (Function.update helper id pc) := by
    intro pc hpc
    rw [tally_update_of_eq (Helper.parkedAt 0) helper id pc (by rw [hpc, habs]; rfl)]
    exact b.arrived hstop
  cases ok with
  | true =>
    exact ⟨Nat.zero_le _, nofun, b.stop, nofun, b.generation,
      hplaced _ (Helper.enter_placed 0 _ (Nat.zero_le _)), nofun, nofun,
      fun _ => harrived _ (Helper.enter_parkedAt 0 0), nofun⟩
  | false =>
    exact ⟨Nat.zero_le _, nofun, b.stop, nofun, b.generation, hplaced .refused trivial, nofun,
      nofun, fun _ => harrived .refused rfl, nofun⟩

theorem Barrier.helperMove (hlanes : inst.lanes.toNat ≤ 0xFFFFFF) (b : Barrier s)
    {id : HelperId inst} {pc : Helper} {sync : FillSync} {evs : List (Event inst)}
    (m : HelperMove inst id s.sync (s.helper id) pc sync evs) :
    Barrier (s.withHelper id (pc, sync, evs)) := by
  obtain ⟨hstop, hgen⟩ := m.stop_eq
  have hparked : s.sync.stop = false → _ := fun h =>
    m.parked_iff h (b.generation h) (b.placed id)
  have hkeep : s.sync.stop = false → ∀ id', (s.helper id').parkedAt s.leader.slices = true →
      (Function.update s.helper id pc id').parkedAt s.leader.slices = true := by
    intro h id' hid'
    by_cases hne : id' = id
    · rw [hne] at hid' ⊢
      rw [Function.update_self]
      rcases hparked h with ⟨heq, -⟩ | ⟨-, htrue, -⟩
      · exact heq.trans hid'
      · exact htrue
    · rw [Function.update_of_ne hne]
      exact hid'
  have hfix : ∀ test : Helper → Bool, test (s.helper id) = false → ∀ id',
      test (s.helper id') = true → test (Function.update s.helper id pc id') = true := by
    intro test hfalse id' hid'
    have hne : id' ≠ id := by
      rintro rfl
      rw [hfalse] at hid'
      cases hid'
    rw [Function.update_of_ne hne]
    exact hid'
  refine ⟨b.slices_le, b.working, ?_, ?_, ?_, ?_, ?_, ?_, ?_, ?_⟩
  · intro h
    exact b.stop (hstop ▸ h)
  · intro h
    exact hstop.trans (b.halted h)
  · intro h
    exact hgen.trans (b.generation (hstop ▸ h))
  · intro id'
    change Placed inst s.leader.slices sync.stop (Function.update s.helper id pc id')
    by_cases hne : id' = id
    · rw [hne, Function.update_self]
      exact m.placed b.slices_le b.generation (b.placed id)
    · rw [Function.update_of_ne hne, hstop]
      exact b.placed id'
  · intro hclosed id'
    have hs := b.stop_false (Leader.closed_not_leaving hclosed)
    rcases b.settled hclosed id' with h | h
    · exact Or.inl (hfix Helper.isRefused m.alive.1 id' h)
    · exact Or.inr (hkeep hs id' h)
  · intro k hk id'
    have hs : s.sync.stop = false := b.stop_false (by change s.leader = _ at hk; rw [hk]; rfl)
    rcases b.checked k hk id' with h | h | h
    · exact Or.inl (hfix Helper.isRefused m.alive.1 id' h)
    · exact Or.inr (Or.inl (hfix Helper.isDead m.alive.2 id' h))
    · exact Or.inr (Or.inr (hkeep hs id' h))
  · intro h
    have hs : s.sync.stop = false := hstop ▸ h
    have harrived := b.arrived hs
    have hu := tally_update (Helper.parkedAt s.leader.slices) s.helper id pc
    have hn := tally_le (Helper.parkedAt s.leader.slices) s.helper
    have hle := @helpers_le inst
    change sync.arrived.toNat = if s.leader.isPublish = true then 0 else
      tally (Helper.parkedAt s.leader.slices) (Function.update s.helper id pc)
    rcases hparked hs with ⟨heq, hadd⟩ | ⟨hfalse, htrue, hadd⟩
    · rw [heq] at hu
      rw [hadd, harrived]
      split <;> omega
    · have hpub : s.leader.isPublish = false := by
        cases hp : s.leader.isPublish with
        | false => rfl
        | true =>
          have hsettled := b.settled (Leader.publish_closed hp) id
          rw [m.alive.1, hfalse] at hsettled
          rcases hsettled with h | h <;> cases h
      rw [hfalse, htrue] at hu
      change _ + 0 = _ + 1 at hu
      rw [hpub] at harrived ⊢
      change s.sync.arrived.toNat = tally (Helper.parkedAt s.leader.slices) s.helper at harrived
      change sync.arrived.toNat =
        tally (Helper.parkedAt s.leader.slices) (Function.update s.helper id pc)
      rw [hadd, UInt32.toNat_add]
      change (s.sync.arrived.toNat + 1) % 2 ^ 32 = _
      omega
  · intro k a hk
    have hs : s.sync.stop = false := b.stop_false (by change s.leader = _ at hk; rw [hk]; rfl)
    refine (b.polled k a hk).trans (tally_mono _ _ _ _ (hkeep hs))

/-- When the leader's wait is over, nobody is left inside the slice. -/
theorem everyone_past (hlanes : inst.lanes.toNat ≤ 0xFFFFFF) (r : Roster s)
    (hspawn : ∀ i, s.leader ≠ .spawn i) (hcharged : s.leader.charged = true) {a : UInt32} {K : ℕ}
    (h : helpers inst ≤ a + s.sync.lost) (ha : a.toNat ≤ tally (Helper.parkedAt K) s.helper)
    (id : HelperId inst) : (s.helper id).isRefused = true ∨ (s.helper id).isDead = true ∨
      (s.helper id).parkedAt K = true := by
  have hlost := r.lost
  have hsum := r.present_add_refused hspawn
  have hle := @helpers_le inst
  have hparked := tally_le (Helper.parkedAt K) s.helper
  have hdead := tally_le Helper.isDead s.helper
  rw [if_pos hcharged] at hlost
  rw [UInt32.le_iff_toNat_le, UInt32.toNat_add] at h
  have hdisjoint : ∀ id', (([Helper.isRefused, Helper.isDead, Helper.parkedAt K] :
      List (Helper → Bool)).map fun test => (test (s.helper id')).toNat).sum ≤ 1 := by
    intro id'
    cases s.helper id' with
    | pollGeneration k =>
      change 0 + (0 + ((k == K).toNat + 0)) ≤ 1
      have := Bool.toNat_le (k == K)
      omega
    | pollStop k =>
      change 0 + (0 + ((k == K).toNat + 0)) ≤ 1
      have := Bool.toNat_le (k == K)
      omega
    | refused => exact le_rfl
    | dead k => exact le_rfl
    | _ => exact Nat.zero_le _
  have hall : (helpers inst).toNat ≤ (([Helper.isRefused, Helper.isDead, Helper.parkedAt K] :
      List (Helper → Bool)).map fun test => tally test s.helper).sum := by
    simp only [List.map_cons, List.map_nil, List.sum_cons, List.sum_nil]
    omega
  obtain ⟨test, htest, hid⟩ := exhausted _ s.helper hdisjoint hall id
  simp only [List.mem_cons, List.not_mem_nil, or_false] at htest
  rcases htest with rfl | rfl | rfl
  · exact Or.inl hid
  · exact Or.inr (Or.inl hid)
  · exact Or.inr (Or.inr hid)

theorem Helper.placed_succ {pc : Helper} {k : ℕ} {stop : Bool}
    (h : pc.isRefused = true ∨ pc.parkedAt k = true) : Placed inst (k + 1) stop pc := by
  cases pc with
  | refused => trivial
  | pollGeneration j =>
    rcases h with h | h
    · cases h
    · exact Or.inr (congrArg (· + 1) (beq_iff_eq.mp h))
  | pollStop j =>
    rcases h with h | h
    · cases h
    · exact Or.inr (congrArg (· + 1) (beq_iff_eq.mp h))
  | _ => rcases h with h | h <;> cases h

theorem Helper.not_parkedAt_succ {pc : Helper} {k : ℕ}
    (h : pc.isRefused = true ∨ pc.parkedAt k = true) : pc.parkedAt (k + 1) = false := by
  cases pc with
  | pollGeneration j =>
    rcases h with h | h
    · cases h
    · rw [beq_iff_eq.mp h]
      exact beq_eq_false_iff_ne.mpr (Nat.ne_of_lt (Nat.lt_succ_self k))
  | pollStop j =>
    rcases h with h | h
    · cases h
    · rw [beq_iff_eq.mp h]
      exact beq_eq_false_iff_ne.mpr (Nat.ne_of_lt (Nat.lt_succ_self k))
  | _ => rfl

theorem Barrier.enter {k : ℕ} {sync : FillSync} {spawned : UInt32} {helper : HelperId inst → Helper}
    {log : List (Event inst)} (hk : k ≤ totalSlices inst) (hstop : sync.stop = false)
    (hgen : sync.generation = UInt32.ofNat k) (hplaced : ∀ id, Placed inst k sync.stop (helper id))
    (harrived : sync.arrived.toNat = tally (Helper.parkedAt k) helper) :
    Barrier ⟨sync, spawned, Leader.enter inst k, helper, log⟩ where
  slices_le := by
    rw [Leader.enter_slices]
    exact hk
  working := by
    intro h
    rw [Leader.enter_slices]
    exact Leader.enter_working k h
  stop := fun h => absurd (hstop.symm.trans h) nofun
  halted := by
    intro h
    rw [Leader.enter_halted] at h
    cases h
  generation := by
    intro _
    rw [Leader.enter_slices]
    exact hgen
  placed := by
    rw [Leader.enter_slices]
    exact hplaced
  settled := by
    intro h
    rw [Leader.enter_closed] at h
    cases h
  checked := fun j h => absurd h (Leader.enter_ne_checkLost k j)
  arrived := by
    intro _
    rw [Leader.enter_isPublish, Leader.enter_slices]
    exact harrived
  polled := fun j a h => absurd h (Leader.enter_ne_pollLost k j a)

theorem Barrier.leaderMove (hlanes : inst.lanes.toNat ≤ 0xFFFFFF) {traced : Bool} (b : Barrier s)
    (r : Roster s) {pc : Leader} {sync : FillSync} {evs : List (Event inst)}
    (m : LeaderMove inst traced s.spawned s.sync s.leader pc sync evs) :
    Barrier (s.withLeader (pc, sync, evs)) := by
  obtain ⟨sync₀, spawned, leader, helper, log⟩ := s
  dsimp only at m
  have hnodead : ∀ k, leader = .checkLost k → ¬ helpers inst - spawned < sync₀.lost → ∀ id,
      (helper id).isRefused = true ∨ (helper id).parkedAt k = true := by
    rintro k rfl hlost id
    have hl := r.lost
    have hr := r.shortfall nofun
    have hd := of_tally_eq_zero Helper.isDead helper (by
      rw [UInt32.lt_iff_toNat_lt] at hlost
      change ¬ (helpers inst - spawned).toNat < sync₀.lost.toNat at hlost
      change sync₀.lost.toNat = tally Helper.isRefused helper + tally Helper.isDead helper at hl
      change (helpers inst - spawned).toNat = tally Helper.isRefused helper at hr
      omega) id
    rcases b.checked k rfl id with h | h | h
    · exact Or.inl h
    · rw [hd] at h
      cases h
    · exact Or.inr h
  cases m with
  | spawnedAll i h =>
    exact ⟨b.slices_le, nofun, b.stop, nofun, b.generation, b.placed, nofun, nofun, b.arrived, nofun⟩
  | charged =>
    have hstop : sync₀.stop = false := b.stop_false rfl
    exact Barrier.enter (Nat.zero_le _) hstop (b.generation hstop) b.placed (b.arrived hstop)
  | unwound k lane =>
    exact ⟨b.slices_le, nofun, fun _ => rfl, nofun, b.generation, b.placed, nofun, nofun, b.arrived,
      nofun⟩
  | polled k =>
    have hstop := b.stop_false rfl
    refine ⟨b.slices_le, b.working, b.stop, nofun, b.generation, b.placed, nofun, nofun, b.arrived,
      ?_⟩
    intro j a ha
    cases ha
    exact (b.arrived hstop).le
  | released k a h =>
    refine ⟨b.slices_le, b.working, b.stop, nofun, b.generation, b.placed, nofun, ?_, b.arrived,
      nofun⟩
    intro j hj id
    cases hj
    exact everyone_past hlanes r nofun rfl h (b.polled k a rfl) id
  | lostOne k h =>
    exact ⟨b.slices_le, b.working, b.stop, nofun, b.generation, b.placed, nofun, nofun, b.arrived,
      nofun⟩
  | tracing k h hk ht =>
    exact ⟨b.slices_le, b.working, b.stop, nofun, b.generation, b.placed,
      fun _ => hnodead k rfl h, nofun, b.arrived, nofun⟩
  | untraced k h ht =>
    exact ⟨b.slices_le, b.working, b.stop, nofun, b.generation, b.placed,
      fun _ => hnodead k rfl h, nofun, b.arrived, nofun⟩
  | stopped k =>
    exact ⟨b.slices_le, b.working, fun _ => rfl, fun _ => rfl, nofun, fun id => (b.placed id).mono,
      nofun, nofun, nofun, nofun⟩
  | bumped k =>
    have hstop : sync₀.stop = true := b.halted rfl
    refine ⟨b.slices_le, nofun, fun _ => rfl, nofun, ?_, b.placed, nofun, nofun, ?_, nofun⟩
    · intro h
      exact absurd (hstop.symm.trans h) nofun
    · intro h
      exact absurd (hstop.symm.trans h) nofun
  | returned k =>
    exact ⟨b.slices_le, b.working, b.stop, nofun, b.generation, b.placed, b.settled, nofun, b.arrived,
      nofun⟩
  | traceUnwound k =>
    exact ⟨b.slices_le, nofun, fun _ => rfl, nofun, b.generation, b.placed, nofun, nofun, b.arrived,
      nofun⟩
  | laneReset k =>
    exact ⟨b.slices_le, b.working, b.stop, nofun, b.generation, b.placed, b.settled, nofun, b.arrived,
      nofun⟩
  | arrivedReset k =>
    exact ⟨b.slices_le, b.working, b.stop, nofun, b.generation, b.placed, b.settled, nofun,
      fun _ => rfl, nofun⟩
  | published k =>
    have hstop : sync₀.stop = false := b.stop_false rfl
    have hparked : ∀ id, (helper id).isRefused = true ∨ (helper id).parkedAt k = true := b.settled rfl
    refine Barrier.enter (b.working rfl) hstop rfl ?_ ?_
    · intro id
      exact Helper.placed_succ (hparked id)
    · refine Eq.trans (b.arrived hstop) (tally_eq_zero _ _ fun id => ?_).symm
      exact Helper.not_parkedAt_succ (hparked id)
  | dropStopped k =>
    exact ⟨b.slices_le, nofun, fun _ => rfl, fun _ => rfl, nofun, fun id => (b.placed id).mono,
      nofun, nofun, nofun, nofun⟩
  | dropBumped k =>
    have hstop : sync₀.stop = true := b.halted rfl
    refine ⟨b.slices_le, nofun, fun _ => rfl, fun _ => hstop, ?_, b.placed, nofun, nofun, ?_, nofun⟩
    · intro h
      exact absurd (hstop.symm.trans h) nofun
    · intro h
      exact absurd (hstop.symm.trans h) nofun
  | _ =>
    exact ⟨b.slices_le, b.working, b.stop, nofun, b.generation, b.placed, nofun, nofun,
      b.arrived, nofun⟩

theorem Reachable.barrier (hlanes : inst.lanes.toNat ≤ 0xFFFFFF) {traced : Bool}
    (h : Reachable traced s) : Barrier s := by
  induction h with
  | start => exact Barrier.start
  | step worker ok hreach hstep ih =>
    have r := hreach.roster hlanes
    rcases step_cases hstep with ⟨id, hl, rfl⟩ | ⟨x, m, rfl⟩ | ⟨id, x, m, rfl⟩
    · exact ih.spawn r id hl ok
    · exact ih.leaderMove hlanes r m
    · exact ih.helperMove hlanes m

end Steps

end Argon2Rust.Pool
