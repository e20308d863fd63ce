import Argon2Rust.Independence
import Argon2Rust.PoolFills

set_option autoImplicit false

namespace Argon2Rust.Pool
open Parameters IndexAlpha Tally

def Helper.finished : Helper → Bool
  | .absent | .refused | .dead _ | .done => true
  | _ => false

def Helper.parked : Helper → Bool
  | .pollGeneration _ | .pollStop _ => true
  | _ => false

def Leader.finishes : Leader → Bool
  | .finished _ => true
  | _ => false

def Leader.parked : Leader → Bool
  | .pollArrived _ | .pollLost _ _ => true
  | _ => false

section Phases
variable {pc : Leader}

theorem Leader.finishes_halted (h : pc.finishes = true) : pc.halted = true := by
  cases pc <;> first | rfl | cases h

theorem Leader.parked_stays (h : pc.parked = true) : pc.leaving = false := by
  cases pc <;> first | rfl | cases h

theorem Leader.parked_phase (h : pc.parked = true) :
    pc.working = true ∧ pc.charged = true ∧ pc.isPublish = false := by
  cases pc <;> first | exact ⟨rfl, rfl, rfl⟩ | cases h

end Phases

def Leader.left (k : ℕ) (pc : Leader) : Bool :=
  decide (k < pc.slices) || (pc.slices == k && pc.drained)

def Helper.left (k : ℕ) : Helper → Bool
  | .absent | .refused | .done => false
  | .drain j | .fill j _ | .bail j | .dead j => decide (k < j)
  | .arrive j | .pollGeneration j | .pollStop j | .checkStop j => decide (k ≤ j)

def Helper.draining (k : ℕ) : Helper → Bool
  | .drain j | .fill j _ => j == k
  | _ => false

def Leader.draining (k : ℕ) : Leader → Bool
  | .drain j | .fill j _ => j == k
  | _ => false

/-- One step of one worker while nobody else moves. -/
def State.advance {inst : Instance} (traced : Bool) (worker : Worker inst) (s : State inst) :
    State inst :=
  (s.step traced worker true).getD s

section Workers
variable {inst : Instance} (s : State inst)

def State.finished : Worker inst → Bool
  | .leader => s.leader.finishes
  | .helper id => (s.helper id).finished

def State.left (k : ℕ) : Worker inst → Bool
  | .leader => s.leader.left k
  | .helper id => (s.helper id).left k

def State.draining (k : ℕ) : Worker inst → Bool
  | .leader => s.leader.draining k
  | .helper id => (s.helper id).draining k

def State.parked : Worker inst → Bool
  | .leader => s.leader.parked
  | .helper id => (s.helper id).parked

/-- The worker is inside `park_until` and its condition is false as things stand. -/
def State.PollFails : Worker inst → Prop
  | .leader => s.leader.parked = true ∧ s.sync.arrived + s.sync.lost < helpers inst
  | .helper id => ∃ k, (s.helper id = .pollGeneration k ∨ s.helper id = .pollStop k) ∧
      s.sync.generation ≠ UInt32.ofNat (k + 1) ∧ s.sync.stop = false

/-- What holds of every state of the pool. A worker has left slice `k` as soon as it waits at
the barrier of slice `k`, so in particular before anybody passes it. -/
structure BarrierSafe (traced : Bool) : Prop where
  claimed_once : ∀ k lane, s.claims k lane ≤ 1
  claimed_all : ∀ k worker, s.left k worker = true → ∀ lane < inst.lanes, s.claims k lane = 1
  filled_before : ∀ worker k lane, Event.claimed worker (k + 1) lane ∈ s.log →
    ∀ lane' < inst.lanes, s.Filled k lane'
  traced_in_order : ∃ m ≤ inst.passes.toNat, s.tracedPasses = List.range m
  traced_after : ∀ pass ∈ s.tracedPasses, ∀ slice < 4, ∀ lane < inst.lanes,
    s.Filled (4 * pass + slice) lane
  traced_alone : ∀ k, s.leader = .trace k → ∀ id j lane, s.helper id ≠ .fill j lane
  unwound_last : ∀ id k, Event.unwound (.helper id) k ∈ s.log →
    (∀ worker j lane, Event.claimed worker j lane ∈ s.log → j ≤ k) ∧
      ∀ worker j, s.draining j worker = true → j ≤ k
  moves : ∀ worker, s.finished worker = false → ∃ worker', s.finished worker' = false ∧
    ¬ s.PollFails worker' ∧
      ∃ m ≤ 3, ((State.advance traced worker')^[m] s).parked worker' = false
  not_overtaken : ∀ id k, s.helper id = .pollGeneration k ∨ s.helper id = .pollStop k →
    s.sync.stop = false → ∃ g, (g = k ∨ g = k + 1) ∧ s.leader.slices = g ∧
      s.sync.generation = UInt32.ofNat g

end Workers

section Progress
variable {inst : Instance} (traced : Bool)

variable {s : State inst}

theorem advance_helper (id : HelperId inst) (r : Helper × FillSync × List (Event inst))
    (h : Helper.next inst id true s.sync (s.helper id) = some r) :
    s.advance traced (.helper id) = s.withHelper id r := by
  change ((Helper.next inst id true s.sync (s.helper id)).map (s.withHelper id)).getD s = _
  rw [h]
  rfl

theorem advance_leader (r : Leader × FillSync × List (Event inst)) (hl : s.leader.parked = true)
    (h : Leader.next inst traced true s.spawned s.sync s.leader = some r) :
    s.advance traced .leader = s.withLeader r := by
  have hstep : s.step traced .leader true =
      (Leader.next inst traced true s.spawned s.sync s.leader).map s.withLeader := by
    unfold State.step
    generalize s.leader = pc at hl
    cases pc with
    | pollArrived k => rfl
    | pollLost k a => rfl
    | _ => cases hl
  unfold State.advance
  rw [hstep, h]
  rfl

theorem withHelper_helper (id : HelperId inst) (r : Helper × FillSync × List (Event inst)) :
    (s.withHelper id r).helper id = r.1 := by
  change Function.update s.helper id r.1 id = r.1
  rw [Function.update_self]

theorem helper_unparks (id : HelperId inst) (hpoll : ¬ s.PollFails (.helper id)) :
    ∃ m ≤ 3, ((State.advance traced (.helper id))^[m] s).parked (.helper id) = false := by
  have hgo : ∀ (x : State inst) k sync, x.advance traced (.helper id) =
      x.withHelper id (.checkStop k, sync, []) →
      (x.advance traced (.helper id)).parked (.helper id) = false := by
    intro x k sync hx
    rw [hx]
    exact congrArg Helper.parked (withHelper_helper id _)
  have hgen : ∀ (x : State inst) k, x.helper id = .pollGeneration k →
      x.sync.generation = UInt32.ofNat (k + 1) →
      (x.advance traced (.helper id)).parked (.helper id) = false := by
    intro x k hx hg
    refine hgo x k x.sync (advance_helper traced id _ ?_)
    rw [hx]
    exact if_pos hg
  have hstop : ∀ (x : State inst) k, x.helper id = .pollStop k → x.sync.stop = true →
      (x.advance traced (.helper id)).parked (.helper id) = false := by
    intro x k hx hs
    refine hgo x k x.sync (advance_helper traced id _ ?_)
    rw [hx]
    exact if_pos hs
  cases hpc : s.helper id with
  | pollGeneration k =>
    by_cases hg : s.sync.generation = UInt32.ofNat (k + 1)
    · exact ⟨1, by decide, hgen s k hpc hg⟩
    · have hs : s.sync.stop = true := by
        cases h : s.sync.stop with
        | false => exact absurd ⟨k, Or.inl hpc, hg, h⟩ hpoll
        | true => rfl
      have hone : s.advance traced (.helper id) = s.withHelper id (.pollStop k, s.sync, []) := by
        refine advance_helper traced id _ ?_
        rw [hpc]
        exact if_neg hg
      refine ⟨2, by decide, ?_⟩
      change ((s.advance traced (.helper id)).advance traced (.helper id)).parked _ = false
      rw [hone]
      exact hstop _ k (withHelper_helper id _) hs
  | pollStop k =>
    cases hs : s.sync.stop with
    | true => exact ⟨1, by decide, hstop s k hpc hs⟩
    | false =>
      have hg : s.sync.generation = UInt32.ofNat (k + 1) := by
        by_contra h
        exact hpoll ⟨k, Or.inr hpc, h, hs⟩
      have hone : s.advance traced (.helper id) = s.withHelper id (.pollGeneration k, s.sync, []) := by
        refine advance_helper traced id _ ?_
        rw [hpc]
        exact if_neg (by rw [hs]; exact nofun)
      refine ⟨2, by decide, ?_⟩
      change ((s.advance traced (.helper id)).advance traced (.helper id)).parked _ = false
      rw [hone]
      exact hgen _ k (withHelper_helper id _) hg
  | _ => exact ⟨0, by decide, congrArg Helper.parked hpc⟩

theorem leader_unparks (hpoll : ¬ s.PollFails .leader) :
    ∃ m ≤ 3, ((State.advance traced .leader)^[m] s).parked .leader = false := by
  have hlost : ∀ (x : State inst) k a, x.leader = .pollLost k a → helpers inst ≤ a + x.sync.lost →
      (x.advance traced .leader).parked .leader = false := by
    intro x k a hx ha
    have hone : x.advance traced .leader = x.withLeader (.checkLost k, x.sync, []) := by
      refine advance_leader traced _ (by rw [hx]; rfl) ?_
      rw [hx]
      exact if_pos ha
    rw [hone]
    rfl
  have harrived : ∀ (x : State inst) k, x.leader = .pollArrived k →
      helpers inst ≤ x.sync.arrived + x.sync.lost →
      ((x.advance traced .leader).advance traced .leader).parked .leader = false := by
    intro x k hx ha
    have hone : x.advance traced .leader =
        x.withLeader (.pollLost k x.sync.arrived, x.sync, []) := by
      refine advance_leader traced _ (by rw [hx]; rfl) ?_
      rw [hx]
      rfl
    rw [hone]
    exact hlost _ k x.sync.arrived rfl ha
  have hsum : s.leader.parked = true → helpers inst ≤ s.sync.arrived + s.sync.lost := by
    intro hp
    by_contra h
    exact hpoll ⟨hp, UInt32.not_le.mp h⟩
  cases hpc : s.leader with
  | pollArrived k => exact ⟨2, by decide, harrived s k hpc (hsum (by rw [hpc]; rfl))⟩
  | pollLost k a =>
    by_cases ha : helpers inst ≤ a + s.sync.lost
    · exact ⟨1, by decide, hlost s k a hpc ha⟩
    · have hone : s.advance traced .leader = s.withLeader (.pollArrived k, s.sync, []) := by
        refine advance_leader traced _ (by rw [hpc]; rfl) ?_
        rw [hpc]
        exact if_neg ha
      refine ⟨3, by decide, ?_⟩
      change (((s.advance traced .leader).advance traced .leader).advance traced .leader).parked _ =
        false
      rw [hone]
      exact harrived _ k rfl (hsum (by rw [hpc]; rfl))
  | _ => exact ⟨0, by decide, congrArg Leader.parked hpc⟩

end Progress

section Safety
variable {inst : Instance} {s : State inst}

theorem Lanes.claims_le_one (l : Lanes s) (k : ℕ) (lane : UInt32) : s.claims k lane ≤ 1 := by
  rw [State.claims, l.claims k lane]
  split
  · exact le_rfl
  · exact Nat.zero_le _

theorem Lanes.slices_of_claimed (l : Lanes s) {worker : Worker inst} {k : ℕ} {lane : UInt32}
    (h : Event.claimed worker k lane ∈ s.log) : k ≤ s.leader.slices := by
  have hpos : 0 < s.log.countP (Event.claims k lane) :=
    List.countP_pos_iff.mpr ⟨_, h, by rw [Event.claims, beq_self_eq_true, beq_self_eq_true]; rfl⟩
  rw [l.claims k lane] at hpos
  split at hpos
  · omega
  · exact absurd hpos (Nat.lt_irrefl 0)

theorem Helper.left_placed {K k : ℕ} {stop : Bool} {pc : Helper} (h : pc.left k = true)
    (hp : Placed inst K stop pc) : k < K ∨ (k = K ∧ pc.drained K = true) := by
  have hwait : ∀ j, k ≤ j → j = K ∨ j + 1 = K → k < K ∨ (k = K ∧ (j == K) = true) := by
    intro j hkj hj
    by_cases hk : k < K
    · exact Or.inl hk
    · have hjK : j = K := by omega
      exact Or.inr ⟨by omega, beq_iff_eq.mpr hjK⟩
  have hwork : ∀ j, decide (k < j) = true → j = K → k < K ∨ (k = K ∧ pc.drained K = true) := by
    rintro j hkj rfl
    exact Or.inl (of_decide_eq_true hkj)
  cases pc with
  | absent => cases h
  | refused => cases h
  | done => cases h
  | drain j => exact hwork j h hp
  | fill j lane => exact hwork j h hp
  | bail j => exact hwork j h hp
  | dead j => exact hwork j h hp
  | arrive j => exact hwait j (of_decide_eq_true h) (Or.inl hp)
  | pollGeneration j => exact hwait j (of_decide_eq_true h) hp
  | pollStop j => exact hwait j (of_decide_eq_true h) hp
  | checkStop j => exact hwait j (of_decide_eq_true h) (hp.elim Or.inr fun hK => Or.inl hK.1)

theorem Lanes.claims_of_left (l : Lanes s) (b : Barrier s) {k : ℕ} {worker : Worker inst}
    (h : s.left k worker = true) (lane : UInt32) (hlane : lane < inst.lanes) :
    s.claims k lane = 1 := by
  rw [UInt32.lt_iff_toNat_lt] at hlane
  have hk : k < s.leader.slices ∨ (k = s.leader.slices ∧ inst.lanes.toNat ≤ s.frontier) := by
    cases worker with
    | leader =>
      have h : (decide (k < s.leader.slices) || (s.leader.slices == k && s.leader.drained)) = true := h
      rw [Bool.or_eq_true, Bool.and_eq_true, decide_eq_true_eq, beq_iff_eq] at h
      rcases h with h | ⟨h, hd⟩
      · exact Or.inl h
      · exact Or.inr ⟨h.symm, l.leader hd⟩
    | helper id =>
      have h : (s.helper id).left k = true := h
      rcases Helper.left_placed h (b.placed id) with h | ⟨h, hd⟩
      · exact Or.inl h
      · exact Or.inr ⟨h, l.helper id hd⟩
  rw [State.claims, l.claims k lane, if_pos]
  refine ⟨hlane, ?_⟩
  rcases hk with hk | ⟨hk, hle⟩
  · exact Or.inl hk
  · exact Or.inr ⟨hk, hlane.trans_le hle⟩

theorem State.slices_of_draining (b : Barrier s) {worker : Worker inst} {k : ℕ}
    (h : s.draining k worker = true) : k = s.leader.slices := by
  cases worker with
  | leader =>
    have h : s.leader.draining k = true := h
    generalize s.leader = pc at h
    cases pc with
    | drain j => exact (beq_iff_eq.mp h).symm
    | fill j lane => exact (beq_iff_eq.mp h).symm
    | _ => cases h
  | helper id =>
    have h : (s.helper id).draining k = true := h
    have hplaced := b.placed id
    generalize s.helper id = pc at h hplaced
    cases pc with
    | drain j => exact (beq_iff_eq.mp h).symm.trans hplaced
    | fill j lane => exact (beq_iff_eq.mp h).symm.trans hplaced
    | _ => cases h

/-- A helper unwinds in the slice the leader never gets past. -/
theorem Fills.slices_of_unwound {traced : Bool} (f : Fills traced s) (b : Barrier s)
    {id : HelperId inst} {k : ℕ} (h : Event.unwound (.helper id) k ∈ s.log) :
    k = s.leader.slices := by
  have hplaced := b.placed id
  rcases f.unwound id k h with hpc | hpc <;> rw [hpc] at hplaced <;> exact hplaced

/-- If every helper is refused, dead or parked after the slice, the leader's wait is over. -/
theorem leader_released (hlanes : inst.lanes.toNat ≤ 0xFFFFFF) (r : Roster s) (b : Barrier s)
    (hp : s.leader.parked = true) (hall : ∀ id, (s.helper id).isRefused = true ∨
      (s.helper id).isDead = true ∨ (s.helper id).parkedAt s.leader.slices = true) :
    ¬ s.PollFails .leader := by
  rintro ⟨-, hlt⟩
  obtain ⟨hworking, hcharged, hpublish⟩ := Leader.parked_phase hp
  have harrived := b.arrived (b.stop_false (Leader.parked_stays hp))
  have hlost := r.lost
  rw [hpublish, if_neg Bool.false_ne_true] at harrived
  rw [if_pos hcharged] at hlost
  have hcover := covered [Helper.isRefused, Helper.isDead, Helper.parkedAt s.leader.slices] s.helper (by
    intro id
    rcases hall id with h | h | h
    · exact ⟨_, List.mem_cons_self, h⟩
    · exact ⟨_, List.mem_cons_of_mem _ List.mem_cons_self, h⟩
    · exact ⟨_, List.mem_cons_of_mem _ (List.mem_cons_of_mem _ List.mem_cons_self), h⟩)
  simp only [List.map_cons, List.map_nil, List.sum_cons, List.sum_nil] at hcover
  have hn := @helpers_le inst
  have h1 := tally_le Helper.isRefused s.helper
  have h2 := tally_le Helper.isDead s.helper
  have h3 := tally_le (Helper.parkedAt s.leader.slices) s.helper
  rw [UInt32.lt_iff_toNat_lt, UInt32.toNat_add] at hlt
  omega

/-- Anyone who keeps the leader waiting can move. -/
theorem helper_free (r : Roster s) (b : Barrier s) (hp : s.leader.parked = true) (id : HelperId inst)
    (hid : ¬ ((s.helper id).isRefused = true ∨ (s.helper id).isDead = true ∨
      (s.helper id).parkedAt s.leader.slices = true)) :
    (s.helper id).finished = false ∧ ¬ s.PollFails (.helper id) := by
  obtain ⟨hworking, hcharged, -⟩ := Leader.parked_phase hp
  have hstop := b.stop_false (Leader.parked_stays hp)
  have hgen := b.generation hstop
  have hplaced := b.placed id
  have hreleased : ∀ k, k = s.leader.slices ∨ k + 1 = s.leader.slices → k ≠ s.leader.slices →
      s.sync.generation = UInt32.ofNat (k + 1) := by
    rintro k (h | h) hne
    · exact absurd h hne
    · rw [h]
      exact hgen
  cases hpc : s.helper id with
  | absent =>
    obtain ⟨i, hi, -⟩ := r.absent id hpc
    rw [hi] at hcharged
    cases hcharged
  | refused => exact absurd (Or.inl (by rw [hpc]; rfl)) hid
  | dead k => exact absurd (Or.inr (Or.inl (by rw [hpc]; rfl))) hid
  | done =>
    rw [hpc] at hplaced
    rcases hplaced with h | h
    · rw [hstop] at h
      cases h
    · have := b.working hworking
      omega
  | pollGeneration k =>
    rw [hpc] at hplaced hid
    have hne : k ≠ s.leader.slices := fun h => hid (Or.inr (Or.inr (beq_iff_eq.mpr h)))
    refine ⟨rfl, ?_⟩
    rintro ⟨j, hj | hj, hne', -⟩ <;> rw [hpc] at hj <;> cases hj
    exact hne' (hreleased k hplaced hne)
  | pollStop k =>
    rw [hpc] at hplaced hid
    have hne : k ≠ s.leader.slices := fun h => hid (Or.inr (Or.inr (beq_iff_eq.mpr h)))
    refine ⟨rfl, ?_⟩
    rintro ⟨j, hj | hj, hne', -⟩ <;> rw [hpc] at hj <;> cases hj
    exact hne' (hreleased k hplaced hne)
  | _ =>
    refine ⟨rfl, ?_⟩
    rintro ⟨j, hj | hj, -⟩ <;> rw [hpc] at hj <;> cases hj

/-- As long as somebody has not finished, somebody who has not finished can move. -/
theorem somebody_moves (hlanes : inst.lanes.toNat ≤ 0xFFFFFF) (traced : Bool) (r : Roster s)
    (b : Barrier s) (worker : Worker inst) (hworker : s.finished worker = false) :
    ∃ worker', s.finished worker' = false ∧ ¬ s.PollFails worker' ∧
      ∃ m ≤ 3, ((State.advance traced worker')^[m] s).parked worker' = false := by
  have hhelper : ∀ id, (s.helper id).finished = false → ¬ s.PollFails (.helper id) →
      ∃ worker', s.finished worker' = false ∧ ¬ s.PollFails worker' ∧
        ∃ m ≤ 3, ((State.advance traced worker')^[m] s).parked worker' = false :=
    fun id hid hpoll => ⟨.helper id, hid, hpoll, helper_unparks traced id hpoll⟩
  have hleader : s.leader.finishes = false → ¬ s.PollFails .leader →
      ∃ worker', s.finished worker' = false ∧ ¬ s.PollFails worker' ∧
        ∃ m ≤ 3, ((State.advance traced worker')^[m] s).parked worker' = false :=
    fun hl hpoll => ⟨.leader, hl, hpoll, leader_unparks traced hpoll⟩
  cases hfin : s.leader.finishes with
  | true =>
    have hhalted := Leader.finishes_halted hfin
    cases worker with
    | leader => exact absurd (hfin.symm.trans hworker) nofun
    | helper id =>
      refine hhelper id hworker ?_
      rintro ⟨k, -, -, hstop⟩
      exact absurd ((b.halted hhalted).symm.trans hstop) nofun
  | false =>
    by_cases hp : s.leader.parked = true
    · by_cases hall : ∀ id, (s.helper id).isRefused = true ∨ (s.helper id).isDead = true ∨
          (s.helper id).parkedAt s.leader.slices = true
      · exact hleader hfin (leader_released hlanes r b hp hall)
      · rw [not_forall] at hall
        obtain ⟨id, hid⟩ := hall
        obtain ⟨hidfin, hidpoll⟩ := helper_free r b hp id hid
        exact hhelper id hidfin hidpoll
    · exact hleader hfin fun h => hp h.1

theorem Barrier.not_filling (b : Barrier s) (hclosed : s.leader.closed = true) (id : HelperId inst)
    (j : ℕ) (lane : UInt32) : s.helper id ≠ .fill j lane := by
  intro h
  have hs := b.settled hclosed id
  rw [h] at hs
  rcases hs with hs | hs <;> cases hs

theorem Barrier.not_overtaken (b : Barrier s) (id : HelperId inst) (k : ℕ)
    (h : s.helper id = .pollGeneration k ∨ s.helper id = .pollStop k) (hstop : s.sync.stop = false) :
    ∃ g, (g = k ∨ g = k + 1) ∧ s.leader.slices = g ∧ s.sync.generation = UInt32.ofNat g := by
  have hplaced : k = s.leader.slices ∨ k + 1 = s.leader.slices := by
    have hp := b.placed id
    rcases h with h | h <;> rw [h] at hp <;> exact hp
  refine ⟨s.leader.slices, ?_, rfl, b.generation hstop⟩
  rcases hplaced with hk | hk
  · exact Or.inl hk.symm
  · exact Or.inr hk.symm

theorem Reachable.barrierSafe (hlanes : inst.lanes.toNat ≤ 0xFFFFFF) {traced : Bool}
    (h : Reachable traced s) : BarrierSafe s traced := by
  have r := h.roster hlanes
  have b := h.barrier hlanes
  have l := h.lanes hlanes
  have f := h.fills hlanes
  obtain ⟨m, hpasses, hm, -, hfilled⟩ := f.passes
  refine ⟨l.claims_le_one, fun _ _ => l.claims_of_left b, ?_, ?_, ?_, ?_, ?_,
    somebody_moves hlanes traced r b, b.not_overtaken⟩
  · intro worker k lane hclaimed lane' hlane'
    exact f.previous k lane' (l.slices_of_claimed hclaimed) (UInt32.lt_iff_toNat_lt.mp hlane')
  · unfold totalSlices at hm
    exact ⟨m, by omega, hpasses⟩
  · intro pass hpass slice hslice lane hlane
    rw [hpasses, List.mem_range] at hpass
    exact hfilled _ lane (by omega) (UInt32.lt_iff_toNat_lt.mp hlane)
  · intro k hk
    exact b.not_filling (by rw [hk]; rfl)
  · intro id k hunwound
    rw [f.slices_of_unwound b hunwound]
    exact ⟨fun _ _ _ => l.slices_of_claimed, fun _ _ hd => (State.slices_of_draining b hd).le⟩

end Safety

section Runs
variable {inst : Instance}

def State.run (traced : Bool) (schedule : List (Worker inst × Bool)) (s : State inst) :
    Option (State inst) :=
  schedule.foldlM (fun s choice => s.step traced choice.1 choice.2) s

theorem Reachable.run {traced : Bool} {s s' : State inst} (h : Reachable traced s)
    (schedule : List (Worker inst × Bool)) (hrun : s.run traced schedule = some s') :
    Reachable traced s' := by
  induction schedule generalizing s with
  | nil =>
    cases hrun
    exact h
  | cons choice schedule ih =>
    obtain ⟨x, hx, hrest⟩ := Option.bind_eq_some_iff.mp hrun
    exact ih (h.step choice.1 choice.2 hx) hrest

end Runs

/-- Barrier safety of the pooled fill of validated parameters, in every reachable state. -/
theorem reachable_barrierSafe {w : PointerWidth} (algorithm : Algorithm) (version : Version)
    (p : Params w) (traced : Bool) (s : State (Instance.new algorithm version p))
    (h : Reachable traced s) : BarrierSafe s traced :=
  h.barrierSafe p.costs.lanes_le

abbrev twoWorkers : Instance := Instance.new .argon2id .v0x13 Independence.twoLanes

def lostSchedule : List (Worker twoWorkers × Bool) :=
  [(.leader, true), (.leader, true), (.leader, true), (.leader, true), (.helper ⟨0, by decide⟩, true),
    (.helper ⟨0, by decide⟩, false), (.leader, true), (.leader, true), (.leader, true),
    (.leader, true), (.helper ⟨0, by decide⟩, true), (.leader, true), (.leader, true),
    (.leader, true), (.leader, true), (.leader, true), (.leader, true), (.leader, true)]

theorem reachable_barrierSafe_lost :
    ∃ s, (State.start twoWorkers).run true lostSchedule = some s ∧ s.leader = .finished 0 ∧
      Event.unwound (.helper ⟨0, by decide⟩) 0 ∈ s.log ∧ BarrierSafe s true := by
  have hrun : ((State.start twoWorkers).run true lostSchedule).map (fun s =>
      decide (s.leader = .finished 0 ∧ Event.unwound (.helper ⟨0, by decide⟩) 0 ∈ s.log)) =
        some true := by
    decide
  obtain ⟨s, hs, hd⟩ := Option.map_eq_some_iff.mp hrun
  obtain ⟨hl, hu⟩ := of_decide_eq_true hd
  exact ⟨s, hs, hl, hu, reachable_barrierSafe .argon2id .v0x13 Independence.twoLanes true s
    (Reachable.start.run lostSchedule hs)⟩

end Argon2Rust.Pool
