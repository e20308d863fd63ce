import Argon2Rust.PoolSafety

set_option autoImplicit false

namespace Argon2Rust.Pool
open Parameters IndexAlpha Tally

/-- The dispatch of `fill_memory_blocks_traced`: the pool runs only for several workers and lanes. -/
def usesPool (inst : Instance) : Bool := 1 < inst.threads && 1 < inst.lanes

/-- No `u32` operation that some worker is about to perform leaves its range. -/
structure NoOverflow {inst : Instance} (s : State inst) : Prop where
  spawned : ∀ i, s.leader = .spawn i → i < (helpers inst).toNat → s.spawned.toNat + 1 < 2 ^ 32
  shortfall : (s.leader = .charge ∨ ∃ k, s.leader = .checkLost k) →
    s.spawned.toNat ≤ (helpers inst).toNat
  nextLane : ((∃ k, s.leader = .drain k) ∨ ∃ id k, s.helper id = .drain k) →
    s.sync.nextLane.toNat + 1 < 2 ^ 32
  waited : ∀ k a, s.leader = .pollLost k a → a.toNat + s.sync.lost.toNat < 2 ^ 32
  leaderGeneration : ∀ k, s.leader = .publish k → (UInt32.ofNat k).toNat + 1 < 2 ^ 32
  helperGeneration : ∀ id k, s.helper id = .arrive k → (UInt32.ofNat k).toNat + 1 < 2 ^ 32

section Safe
variable {inst : Instance} {s : State inst}

theorem Roster.spawned_le (r : Roster s) : s.spawned.toNat ≤ (helpers inst).toNat := by
  rw [r.spawned]
  exact tally_le Helper.present s.helper

theorem Roster.lost_le (r : Roster s) : s.sync.lost.toNat ≤ 2 * (helpers inst).toNat := by
  have hrefused := tally_le Helper.isRefused s.helper
  have hdead := tally_le Helper.isDead s.helper
  rw [r.lost]
  cases s.leader.charged with
  | false =>
    rw [if_neg Bool.false_ne_true]
    omega
  | true =>
    rw [if_pos rfl]
    omega

/-- Everything but `generation` is bounded by the number of workers and lanes. -/
theorem noOverflow_of_slices (hlanes : inst.lanes.toNat ≤ 0xFFFFFF)
    (hslices : totalSlices inst < 2 ^ 32) (r : Roster s) (b : Barrier s) (l : Lanes s) : NoOverflow s where
  spawned := by
    intro i _ _
    have hle := r.spawned_le
    have hn := @helpers_le inst
    omega
  shortfall := fun _ => r.spawned_le
  nextLane := by
    intro _
    have hbound := l.bound
    have htally := tally_le (Helper.overshot s.leader.slices) s.helper
    have hn := @helpers_le inst
    have hbool := Bool.toNat_le s.leader.overshot
    omega
  waited := by
    intro k a hpoll
    have ha := b.polled k a hpoll
    have htally := tally_le (Helper.parkedAt s.leader.slices) s.helper
    have hlost := r.lost_le
    have hn := @helpers_le inst
    omega
  leaderGeneration := by
    intro k hpub
    have hlt := b.working (by rw [hpub]; rfl)
    rw [hpub] at hlt
    change k < totalSlices inst at hlt
    rw [UInt32.toNat_ofNat_of_lt' (hlt.trans hslices)]
    omega
  helperGeneration := by
    intro id k harrive
    have hplaced := b.placed id
    have hle := b.slices_le
    rw [harrive] at hplaced
    change k = s.leader.slices at hplaced
    have htotal : totalSlices inst % 4 = 0 := Nat.mul_mod_right 4 _
    rw [UInt32.toNat_ofNat_of_lt' (by change k < 2 ^ 32; omega)]
    omega

end Safe

section Alone
variable (inst : Instance)

/-- The leader at the top of slice `k`, all helpers refused, with `lane` lanes handed out. -/
def State.alone (k : ℕ) (lane : UInt32) (log : List (Event inst)) : State inst where
  sync := { nextLane := lane, arrived := 0, generation := UInt32.ofNat k, lost := helpers inst
            stop := false }
  spawned := 0
  leader := .drain k
  helper := fun _ => .refused
  log := log

variable {inst}

theorem reachable_refused (i : ℕ) (hi : i ≤ (helpers inst).toNat) :
    Reachable false { State.start inst with
      leader := .spawn i
      helper := fun id => if id.val < i then .refused else .absent } := by
  induction i with
  | zero => exact Reachable.start
  | succ i ih =>
    have hlt : i < (helpers inst).toNat := hi
    refine (ih hlt.le).step .leader false ?_
    have hupdate : Function.update (fun id : HelperId inst =>
        if id.val < i then Helper.refused else .absent) ⟨i, hlt⟩ .refused =
          fun id => if id.val < i + 1 then .refused else .absent := by
      funext id
      by_cases hid : id = ⟨i, hlt⟩
      · rw [hid, Function.update_self, if_pos (Nat.lt_succ_self i)]
      · have hne : id.val ≠ i := fun h => hid (Fin.ext h)
        rw [Function.update_of_ne hid]
        by_cases hle : id.val < i
        · rw [if_pos hle, if_pos (Nat.lt_succ_of_lt hle)]
        · rw [if_neg hle, if_neg (by omega)]
    unfold State.step
    dsimp only
    rw [dif_pos hlt]
    unfold State.spawn
    rw [if_neg Bool.false_ne_true]
    exact congrArg (fun helper => some { State.start inst with leader := .spawn (i + 1), helper })
      hupdate

theorem leader_to {s : State inst} (t : State inst) (h : Reachable false s)
    (hstep : s.step false .leader true = some t) : Reachable false t := h.step .leader true hstep

theorem reachable_first (hpos : 0 < totalSlices inst) :
    ∃ log, Reachable false (State.alone inst 0 0 log) := by
  have hspawned := @reachable_refused inst (helpers inst).toNat le_rfl
  have hcharge := leader_to { State.start inst with
      leader := .charge, helper := fun _ => .refused } hspawned (by
    have hall : (fun id : HelperId inst =>
        if id.val < (helpers inst).toNat then Helper.refused else .absent) = fun _ => .refused := by
      funext id
      exact if_pos id.isLt
    unfold State.step
    dsimp only
    rw [dif_neg (lt_irrefl _), hall]
    rfl)
  refine ⟨[], hcharge.step .leader true ?_⟩
  have henter : Leader.enter inst 0 = .drain 0 := if_pos hpos
  have hlost : (0 : UInt32) + (helpers inst - 0) = helpers inst := by
    rw [UInt32.sub_zero, UInt32.zero_add]
  change some (State.withLeader _ (Leader.enter inst 0, { (State.start inst).sync with
    lost := 0 + (helpers inst - 0) }, [])) = _
  rw [henter, hlost]
  rfl

theorem reachable_lane {k : ℕ} {lane : UInt32} {log : List (Event inst)} (hlt : lane < inst.lanes)
    (h : Reachable false (State.alone inst k lane log)) :
    ∃ log, Reachable false (State.alone inst k (lane + 1) log) := by
  have hnot : ¬ inst.lanes ≤ lane := UInt32.not_le.mpr hlt
  have hclaim := leader_to { State.alone inst k (lane + 1) log with
      leader := .fill k lane, log := .claimed .leader k lane :: log } h (by
    unfold State.step State.alone Leader.next
    dsimp only
    rw [if_neg hnot]
    rfl)
  exact ⟨_, hclaim.step .leader true rfl⟩

theorem reachable_lanes {k : ℕ} {log : List (Event inst)} (n : ℕ) (hn : n ≤ inst.lanes.toNat)
    (h : Reachable false (State.alone inst k 0 log)) :
    ∃ log, Reachable false (State.alone inst k (UInt32.ofNat n) log) := by
  induction n with
  | zero => exact ⟨log, h⟩
  | succ n ih =>
    obtain ⟨log', hn'⟩ := ih (by omega)
    have hsmall : (UInt32.ofNat n).toNat = n :=
      UInt32.toNat_ofNat_of_lt' ((Nat.lt_of_succ_le hn).trans inst.lanes.toNat_lt)
    have hlt : UInt32.ofNat n < inst.lanes := by
      rw [UInt32.lt_iff_toNat_lt, hsmall]
      omega
    have hsucc : UInt32.ofNat n + 1 = UInt32.ofNat (n + 1) := (UInt32.ofNat_add n 1).symm
    rw [← hsucc]
    exact reachable_lane hlt hn'

theorem reachable_publish {k : ℕ} {log : List (Event inst)}
    (h : Reachable false (State.alone inst k 0 log)) :
    ∃ log, Reachable false { State.alone inst k 0 log with leader := .publish k } := by
  obtain ⟨log, h⟩ := reachable_lanes inst.lanes.toNat le_rfl h
  rw [UInt32.ofNat_toNat] at h
  have hshort : helpers inst - 0 = helpers inst := UInt32.sub_zero _
  have hdrained := leader_to { State.alone inst k (inst.lanes + 1) log with
      leader := .pollArrived k } h (by
    unfold State.step State.alone Leader.next
    dsimp only
    rw [if_pos (UInt32.le_refl _)]
    rfl)
  have hpolled := leader_to { State.alone inst k (inst.lanes + 1) log with
      leader := .pollLost k 0 } hdrained rfl
  have hreleased := leader_to { State.alone inst k (inst.lanes + 1) log with
      leader := .checkLost k } hpolled (by
    unfold State.step State.alone Leader.next
    dsimp only
    rw [UInt32.zero_add, if_pos (UInt32.le_refl _)]
    rfl)
  have hchecked := leader_to { State.alone inst k (inst.lanes + 1) log with
      leader := .resetLane k } hreleased (by
    unfold State.step State.alone Leader.next
    dsimp only
    rw [hshort, if_neg (UInt32.lt_irrefl _), if_neg (fun h => Bool.false_ne_true h.2)]
    rfl)
  have hreset := leader_to { State.alone inst k 0 log with
      leader := .resetArrived k } hchecked rfl
  exact ⟨log, hreset.step .leader true rfl⟩

theorem reachable_alone (k : ℕ) (hk : k < totalSlices inst) :
    ∃ log, Reachable false (State.alone inst k 0 log) := by
  induction k with
  | zero => exact reachable_first hk
  | succ k ih =>
    obtain ⟨log, h⟩ := ih (by omega)
    obtain ⟨log', hpub⟩ := reachable_publish h
    refine ⟨log', hpub.step .leader true ?_⟩
    have henter : Leader.enter inst (k + 1) = .drain (k + 1) := if_pos hk
    change some (State.withLeader _ (Leader.enter inst (k + 1), _, [])) = _
    rw [henter]
    rfl

theorem overflow_of_slices (hmany : 2 ^ 32 ≤ totalSlices inst) :
    ∃ s : State inst, Reachable false s ∧ ¬ NoOverflow s := by
  obtain ⟨log, h⟩ := @reachable_alone inst 0xFFFFFFFF (by omega)
  obtain ⟨log', hpub⟩ := reachable_publish h
  refine ⟨_, hpub, fun hno => ?_⟩
  have hgen := hno.leaderGeneration 0xFFFFFFFF rfl
  exact absurd hgen (by decide)

end Alone

/-- The pooled fill of validated parameters stays within `u32` in every run exactly
when the passes are below 2^30 or the pool is not used at all. -/
theorem noOverflow_iff {w : PointerWidth} (algorithm : Algorithm) (version : Version)
    (p : Params w) :
    (usesPool (Instance.new algorithm version p) = true →
      ∀ (traced : Bool) (s : State (Instance.new algorithm version p)),
        Reachable traced s → NoOverflow s) ↔
      (p.passes.toNat < 2 ^ 30 ∨ usesPool (Instance.new algorithm version p) = false) := by
  have hlanes : (Instance.new algorithm version p).lanes.toNat ≤ 0xFFFFFF := p.costs.lanes_le
  have htotal : totalSlices (Instance.new algorithm version p) = 4 * p.passes.toNat := rfl
  constructor
  · intro hsafe
    by_contra hnot
    obtain ⟨hmany, hpool⟩ := not_or.mp hnot
    obtain ⟨s, hs, hover⟩ := @overflow_of_slices (Instance.new algorithm version p)
      (by rw [htotal]; omega)
    exact hover (hsafe (Bool.eq_true_of_not_eq_false hpool) false s hs)
  · rintro (hfew | hoff) hpool traced s hs
    · exact noOverflow_of_slices hlanes (by rw [htotal]; omega) (hs.roster hlanes) (hs.barrier hlanes)
        (hs.lanes hlanes)
    · rw [hpool] at hoff
      cases hoff

def manyPasses : Params .bits64 where
  mCost := 16
  tCost := 0x40000000
  lanes := 2
  threads := 2
  outputLen := 4
  valid := by decide

theorem noOverflow_fails :
    usesPool (Instance.new .argon2id .v0x13 manyPasses) = true ∧
      ∃ s : State (Instance.new .argon2id .v0x13 manyPasses), Reachable false s ∧ ¬ NoOverflow s :=
  ⟨by decide, overflow_of_slices (by decide)⟩

end Argon2Rust.Pool
