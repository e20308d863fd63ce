import Argon2Rust.Pool

set_option autoImplicit false

namespace Argon2Rust.Pool
open Parameters IndexAlpha Tally

def Helper.present : Helper → Bool
  | .absent | .refused => false
  | _ => true

def Helper.isRefused : Helper → Bool
  | .refused => true
  | _ => false

def Helper.isDead : Helper → Bool
  | .dead _ => true
  | _ => false

def Leader.charged : Leader → Bool
  | .spawn _ | .charge => false
  | _ => true

structure Roster {inst : Instance} (s : State inst) : Prop where
  unspawned : ∀ i id, s.leader = .spawn i → i ≤ id.val → s.helper id = .absent
  absent : ∀ id, s.helper id = .absent → ∃ i, s.leader = .spawn i ∧ i ≤ id.val
  spawned : s.spawned.toNat = tally Helper.present s.helper
  lost : s.sync.lost.toNat =
    (if s.leader.charged then tally Helper.isRefused s.helper else 0) +
      tally Helper.isDead s.helper

section Enter
variable (inst : Instance) (k : ℕ)

theorem Helper.enter_cases : (k < totalSlices inst ∧ Helper.enter inst k = .drain k) ∨
    (totalSlices inst ≤ k ∧ Helper.enter inst k = .done) := by
  unfold Helper.enter
  by_cases h : k < totalSlices inst
  · exact Or.inl ⟨h, if_pos h⟩
  · exact Or.inr ⟨not_lt.mp h, if_neg h⟩

theorem Leader.enter_cases : (k < totalSlices inst ∧ Leader.enter inst k = .drain k) ∨
    (totalSlices inst ≤ k ∧ Leader.enter inst k = .dropStop k) := by
  unfold Leader.enter
  by_cases h : k < totalSlices inst
  · exact Or.inl ⟨h, if_pos h⟩
  · exact Or.inr ⟨not_lt.mp h, if_neg h⟩

/-- What holds at the top of the loop and at its end holds of a helper that enters it. -/
theorem Helper.enter_ind (P : Helper → Prop) (hdrain : P (.drain k)) (hdone : P .done) :
    P (Helper.enter inst k) := by
  rcases Helper.enter_cases inst k with ⟨-, h⟩ | ⟨-, h⟩
  · exact h ▸ hdrain
  · exact h ▸ hdone

theorem Leader.enter_ind (P : Leader → Prop) (hdrain : P (.drain k)) (hdrop : P (.dropStop k)) :
    P (Leader.enter inst k) := by
  rcases Leader.enter_cases inst k with ⟨-, h⟩ | ⟨-, h⟩
  · exact h ▸ hdrain
  · exact h ▸ hdrop

@[simp] theorem Helper.enter_present : (Helper.enter inst k).present = true :=
  Helper.enter_ind inst k (fun pc => pc.present = true) rfl rfl

@[simp] theorem Helper.enter_isRefused : (Helper.enter inst k).isRefused = false :=
  Helper.enter_ind inst k (fun pc => pc.isRefused = false) rfl rfl

@[simp] theorem Helper.enter_isDead : (Helper.enter inst k).isDead = false :=
  Helper.enter_ind inst k (fun pc => pc.isDead = false) rfl rfl

@[simp] theorem Leader.enter_charged : (Leader.enter inst k).charged = true :=
  Leader.enter_ind inst k (fun pc => pc.charged = true) rfl rfl

theorem Leader.enter_ne_spawn (i : ℕ) : Leader.enter inst k ≠ .spawn i :=
  Leader.enter_ind inst k (fun pc => pc ≠ .spawn i) nofun nofun

end Enter

section Moves
variable {inst : Instance} {id : HelperId inst} {sync sync' : FillSync} {evs : List (Event inst)}

/-- A helper that takes a step stays on the roster, and is counted lost only by `bail`. -/
theorem HelperMove.census {pc pc' : Helper} (m : HelperMove inst id sync pc pc' sync' evs) :
    pc.present = true ∧ pc'.present = true ∧ pc.isRefused = false ∧ pc'.isRefused = false ∧
      ((pc'.isDead = pc.isDead ∧ sync'.lost = sync.lost) ∨
        (pc.isDead = false ∧ pc'.isDead = true ∧ sync'.lost = sync.lost + 1)) := by
  cases m with
  | bailed k => exact ⟨rfl, rfl, rfl, rfl, Or.inr ⟨rfl, rfl, rfl⟩⟩
  | entered k h =>
    exact ⟨rfl, Helper.enter_present _ _, rfl, Helper.enter_isRefused _ _,
      Or.inl ⟨Helper.enter_isDead _ _, rfl⟩⟩
  | _ => exact ⟨rfl, rfl, rfl, rfl, Or.inl ⟨rfl, rfl⟩⟩

theorem Helper.ne_absent_of_present {pc : Helper} (h : pc.present = true) : pc ≠ .absent := by
  rintro rfl
  cases h

/-- The leader never returns to the spawn loop, and charges the refused threads once. -/
theorem LeaderMove.census {traced : Bool} {spawned : UInt32} {pc pc' : Leader}
    (m : LeaderMove inst traced spawned sync pc pc' sync' evs) :
    (∀ i, pc' ≠ .spawn i) ∧ (∀ i, pc = .spawn i → (helpers inst).toNat ≤ i) ∧
      ((pc'.charged = pc.charged ∧ sync'.lost = sync.lost) ∨
        (pc = .charge ∧ pc'.charged = true ∧
          sync'.lost = sync.lost + (helpers inst - spawned))) := by
  cases m with
  | spawnedAll i h =>
    refine ⟨nofun, ?_, Or.inl ⟨rfl, rfl⟩⟩
    intro j hj
    cases hj
    exact h
  | charged =>
    exact ⟨Leader.enter_ne_spawn inst 0, nofun, Or.inr ⟨rfl, Leader.enter_charged _ _, rfl⟩⟩
  | published k =>
    exact ⟨Leader.enter_ne_spawn inst (k + 1), nofun, Or.inl ⟨Leader.enter_charged _ _, rfl⟩⟩
  | _ => exact ⟨nofun, nofun, Or.inl ⟨rfl, rfl⟩⟩

end Moves

section Counts
variable {inst : Instance} {s : State inst}

theorem helpers_le : (helpers inst).toNat ≤ inst.lanes.toNat := by
  have hw : (workers inst).toNat ≤ inst.lanes.toNat := by
    unfold workers
    change (if inst.threads ≤ inst.lanes then inst.threads else inst.lanes).toNat ≤ _
    by_cases h : inst.threads ≤ inst.lanes
    · rw [if_pos h]
      exact UInt32.le_iff_toNat_le.mp h
    · rw [if_neg h]
  unfold helpers
  by_cases h0 : workers inst = 0
  · rw [if_pos h0]
    exact Nat.zero_le _
  · have hpos : (1 : UInt32) ≤ workers inst := by
      rw [UInt32.le_iff_toNat_le]
      refine Nat.one_le_iff_ne_zero.mpr fun hz => h0 ?_
      exact UInt32.toNat_inj.mp hz
    rw [if_neg h0, UInt32.toNat_sub_of_le _ _ hpos]
    exact (Nat.sub_le _ _).trans hw

theorem Roster.present_add_refused (r : Roster s) (hs : ∀ i, s.leader ≠ .spawn i) :
    tally Helper.present s.helper + tally Helper.isRefused s.helper = (helpers inst).toNat := by
  have hpoint : ∀ id, ((s.helper id).present.toNat + (s.helper id).isRefused.toNat) = 1 := by
    intro id
    cases hpc : s.helper id with
    | absent =>
      obtain ⟨i, hi, -⟩ := r.absent id hpc
      exact absurd hi (hs i)
    | _ => rfl
  unfold tally
  rw [← Finset.sum_add_distrib, Finset.sum_congr rfl fun id _ => hpoint id, Finset.sum_const,
    Finset.card_univ, Fintype.card_fin, smul_eq_mul, mul_one]

/-- The shortfall the leader subtracts is the number of refused threads. -/
theorem Roster.shortfall (r : Roster s) (hs : ∀ i, s.leader ≠ .spawn i) :
    (helpers inst - s.spawned).toNat = tally Helper.isRefused s.helper := by
  have hsum := r.present_add_refused hs
  have hle : s.spawned ≤ helpers inst := by
    rw [UInt32.le_iff_toNat_le, r.spawned]
    omega
  rw [UInt32.toNat_sub_of_le _ _ hle, r.spawned]
  omega

end Counts

section Steps
variable {inst : Instance} (hlanes : inst.lanes.toNat ≤ 0xFFFFFF) {s : State inst}
include hlanes

theorem Roster.spawn (r : Roster s) (id : HelperId inst) (hl : s.leader = .spawn id) (ok : Bool) :
    Roster (s.spawn id ok) := by
  have habs := r.unspawned id id hl le_rfl
  have hlost := r.lost
  have hspawned := r.spawned
  have hn := @helpers_le inst
  have hpresent := tally_le Helper.present s.helper
  have hafter : ∀ pc, pc ≠ Helper.absent → ∀ id' : HelperId inst,
      Function.update s.helper id pc id' = .absent → id.val + 1 ≤ id'.val := by
    intro pc hne id' hid'
    by_cases h : id' = id
    · rw [h, Function.update_self] at hid'
      exact absurd hid' hne
    · rw [Function.update_of_ne h] at hid'
      obtain ⟨i, hi, hle⟩ := r.absent id' hid'
      rw [hl, Leader.spawn.injEq] at hi
      have := Fin.val_ne_of_ne h
      omega
  have hlater : ∀ pc, ∀ id' : HelperId inst, id.val + 1 ≤ id'.val →
      Function.update s.helper id pc id' = .absent := by
    intro pc id' hle
    have h : id' ≠ id := fun h => by rw [h] at hle; omega
    rw [Function.update_of_ne h]
    exact r.unspawned id id' hl (by omega)
  rw [hl] at hlost
  cases ok with
  | true =>
    have hp := tally_update Helper.present s.helper id (Helper.enter inst 0)
    have hd := tally_update_of_eq Helper.isDead s.helper id (Helper.enter inst 0)
      (by rw [habs, Helper.enter_isDead]; rfl)
    rw [habs, Helper.enter_present] at hp
    change _ + 0 = _ + 1 at hp
    refine ⟨?_, ?_, ?_, ?_⟩
    · intro i id' hi hle
      cases hi
      exact hlater _ id' hle
    · intro id' hid'
      exact ⟨_, rfl, hafter _ (Helper.ne_absent_of_present (Helper.enter_present _ _)) id' hid'⟩
    · change (s.spawned + 1).toNat = tally Helper.present (Function.update s.helper id _)
      rw [UInt32.toNat_add]
      change (s.spawned.toNat + 1) % 2 ^ 32 = _
      omega
    · change s.sync.lost.toNat = 0 + tally Helper.isDead (Function.update s.helper id _)
      rw [hd]
      exact hlost
  | false =>
    have hp := tally_update_of_eq Helper.present s.helper id .refused (by rw [habs]; rfl)
    have hd := tally_update_of_eq Helper.isDead s.helper id .refused (by rw [habs]; rfl)
    refine ⟨?_, ?_, ?_, ?_⟩
    · intro i id' hi hle
      cases hi
      exact hlater _ id' hle
    · intro id' hid'
      exact ⟨_, rfl, hafter .refused nofun id' hid'⟩
    · change s.spawned.toNat = tally Helper.present (Function.update s.helper id _)
      rw [hp]
      exact hspawned
    · change s.sync.lost.toNat = 0 + tally Helper.isDead (Function.update s.helper id _)
      rw [hd]
      exact hlost

theorem Roster.leaderMove {traced : Bool} (r : Roster s) {pc : Leader} {sync : FillSync}
    {evs : List (Event inst)} (m : LeaderMove inst traced s.spawned s.sync s.leader pc sync evs) :
    Roster (s.withLeader (pc, sync, evs)) := by
  obtain ⟨hpc, hall, hlost⟩ := m.census
  refine ⟨fun i _ hi => absurd hi (hpc i), ?_, r.spawned, ?_⟩
  · intro id hid
    obtain ⟨i, hi, hle⟩ := r.absent id hid
    have := hall i hi
    have := id.isLt
    omega
  · change sync.lost.toNat =
      (if pc.charged = true then tally Helper.isRefused s.helper else 0) +
        tally Helper.isDead s.helper
    have hr := r.lost
    rcases hlost with ⟨hc, hl⟩ | ⟨hc, hc', hl⟩
    · rw [hc, hl]
      exact hr
    · have hs := r.shortfall fun i => by rw [hc]; exact nofun
      have hn := @helpers_le inst
      have h1 := tally_le Helper.isRefused s.helper
      have h2 := tally_le Helper.isDead s.helper
      rw [hc] at hr
      change s.sync.lost.toNat = 0 + tally Helper.isDead s.helper at hr
      rw [hl, if_pos hc', UInt32.toNat_add, hs]
      omega

theorem Roster.helperMove (r : Roster s) {id : HelperId inst} {pc : Helper} {sync : FillSync}
    {evs : List (Event inst)} (m : HelperMove inst id s.sync (s.helper id) pc sync evs) :
    Roster (s.withHelper id (pc, sync, evs)) := by
  obtain ⟨hpresent, hpresent', hrefused, hrefused', hdead⟩ := m.census
  have hp := tally_update_of_eq Helper.present s.helper id pc (hpresent'.trans hpresent.symm)
  have hr := tally_update_of_eq Helper.isRefused s.helper id pc (hrefused'.trans hrefused.symm)
  have hold := Helper.ne_absent_of_present hpresent
  have hnew := Helper.ne_absent_of_present hpresent'
  refine ⟨?_, ?_, ?_, ?_⟩
  · intro i id' hi hle
    have habs := r.unspawned i id' hi hle
    have hne : id' ≠ id := by
      rintro rfl
      exact hold habs
    exact (Function.update_of_ne hne _ _).trans habs
  · intro id' hid'
    change Function.update s.helper id pc id' = .absent at hid'
    have hne : id' ≠ id := by
      rintro rfl
      rw [Function.update_self] at hid'
      exact hnew hid'
    rw [Function.update_of_ne hne] at hid'
    exact r.absent id' hid'
  · change s.spawned.toNat = tally Helper.present (Function.update s.helper id pc)
    rw [hp]
    exact r.spawned
  · change sync.lost.toNat =
      (if s.leader.charged = true then tally Helper.isRefused (Function.update s.helper id pc)
        else 0) + tally Helper.isDead (Function.update s.helper id pc)
    have hl := r.lost
    have hd := tally_update Helper.isDead s.helper id pc
    have h1 := tally_le Helper.isRefused s.helper
    have h2 := tally_le Helper.isDead s.helper
    have hn := @helpers_le inst
    rw [hr]
    rcases hdead with ⟨heq, hkeep⟩ | ⟨hfalse, htrue, hadd⟩
    · rw [heq] at hd
      rw [hkeep]
      omega
    · rw [hfalse, htrue] at hd
      change _ + 0 = _ + 1 at hd
      rw [hadd, UInt32.toNat_add]
      change (s.sync.lost.toNat + 1) % 2 ^ 32 = _
      have hcharge : (if s.leader.charged = true then tally Helper.isRefused s.helper else 0) ≤
          tally Helper.isRefused s.helper := by
        split
        · exact le_rfl
        · exact Nat.zero_le _
      omega

omit hlanes in
theorem Roster.start : Roster (State.start inst) where
  unspawned := fun _ _ _ _ => rfl
  absent := fun _ _ => ⟨0, rfl, Nat.zero_le _⟩
  spawned := (tally_eq_zero Helper.present _ fun _ => rfl).symm
  lost := by
    rw [tally_eq_zero Helper.isDead _ fun _ => rfl]
    rfl

theorem Reachable.roster {traced : Bool} (h : Reachable traced s) : Roster s := by
  induction h with
  | start => exact Roster.start
  | step worker ok _ hstep ih =>
    rcases step_cases hstep with ⟨id, hl, rfl⟩ | ⟨r, m, rfl⟩ | ⟨id, r, m, rfl⟩
    · exact ih.spawn hlanes id hl ok
    · exact ih.leaderMove hlanes m
    · exact ih.helperMove hlanes m

end Steps

end Argon2Rust.Pool
