import Argon2Rust.PoolSafety

set_option autoImplicit false

namespace Argon2Rust.Pool
open Parameters IndexAlpha Tally

def Leader.filling : Leader → Option (ℕ × UInt32)
  | .fill k lane => some (k, lane)
  | _ => none

def Helper.filling : Helper → Option (ℕ × UInt32)
  | .fill k lane => some (k, lane)
  | _ => none

/-- The slice and the lane of the call of `fill` that a worker is in. -/
def State.filling {inst : Instance} (s : State inst) : Worker inst → Option (ℕ × UInt32)
  | .leader => s.leader.filling
  | .helper id => (s.helper id).filling

def Leader.ending : Leader → Bool
  | .storeStop _ => true
  | pc => pc.leaving

/-- What one step does to the call of `fill` of the worker that takes it. -/
inductive Effect {inst : Instance} (worker : Worker inst) (ok : Bool) :
    Option (ℕ × UInt32) → Option (ℕ × UInt32) → List (Event inst) → Prop
  | claims (k : ℕ) (lane : UInt32) : Effect worker ok none (some (k, lane)) [.claimed worker k lane]
  | returns (k : ℕ) (lane : UInt32) (h : ok = true) :
      Effect worker ok (some (k, lane)) none [.filled worker k lane]
  | unwinds (k : ℕ) (lane : UInt32) (h : ok = false) :
      Effect worker ok (some (k, lane)) none [.unwound worker k]
  | other (evs : List (Event inst))
      (h : ∀ w k lane, .claimed w k lane ∉ evs ∧ .filled w k lane ∉ evs) :
      Effect worker ok none none evs

section Effects
variable {inst : Instance}

theorem Effect.quiet (worker : Worker inst) (ok : Bool) : Effect worker ok none none [] :=
  .other [] fun _ _ _ => ⟨List.not_mem_nil, List.not_mem_nil⟩

theorem Effect.filled {worker w : Worker inst} {ok : Bool} {call call' : Option (ℕ × UInt32)}
    {evs : List (Event inst)} (h : Effect worker ok call call' evs) {k : ℕ} {lane : UInt32}
    (hmem : .filled w k lane ∈ evs) : w = worker ∧ call = some (k, lane) ∧ ok = true := by
  cases h with
  | claims => cases List.mem_singleton.mp hmem
  | returns k' lane' hok =>
    cases List.mem_singleton.mp hmem
    exact ⟨rfl, rfl, hok⟩
  | unwinds => cases List.mem_singleton.mp hmem
  | other _ hquiet => exact absurd hmem (hquiet w k lane).2

theorem Effect.claimed {worker : Worker inst} {ok : Bool} {call : Option (ℕ × UInt32)} {k : ℕ}
    {lane : UInt32} {evs : List (Event inst)} (h : Effect worker ok call (some (k, lane)) evs) :
    evs = [.claimed worker k lane] := by
  cases h
  rfl

@[simp] theorem Helper.enter_filling (k : ℕ) : (Helper.enter inst k).filling = none :=
  Helper.enter_ind inst k (fun pc => pc.filling = none) rfl rfl

@[simp] theorem Leader.enter_filling (k : ℕ) : (Leader.enter inst k).filling = none :=
  Leader.enter_ind inst k (fun pc => pc.filling = none) rfl rfl

variable {sync sync' : FillSync} {evs : List (Event inst)}

theorem HelperMove.effect {id : HelperId inst} {pc pc' : Helper}
    (m : HelperMove inst id sync pc pc' sync' evs) (h : pc.filling = none) (ok : Bool) :
    Effect (.helper id) ok none pc'.filling evs := by
  cases m with
  | claimed k => exact .claims k _
  | filled => cases h
  | unwound => cases h
  | entered k =>
    rw [Helper.enter_filling]
    exact Effect.quiet _ _
  | _ => exact Effect.quiet _ _

theorem Helper.next_effect {id : HelperId inst} {ok : Bool} {pc : Helper}
    {r : Helper × FillSync × List (Event inst)} (h : Helper.next inst id ok sync pc = some r) :
    Effect (.helper id) ok pc.filling r.1.filling r.2.2 := by
  cases pc with
  | fill k lane =>
    cases ok <;> cases h
    · exact .unwinds k lane rfl
    · exact .returns k lane rfl
  | _ => exact (Helper.next_move inst h).effect rfl ok

theorem LeaderMove.effect {traced : Bool} {spawned : UInt32} {pc pc' : Leader}
    (m : LeaderMove inst traced spawned sync pc pc' sync' evs) (h : pc.filling = none) (ok : Bool) :
    Effect .leader ok none pc'.filling evs := by
  cases m with
  | claimed k => exact .claims k _
  | filled => cases h
  | unwound => cases h
  | charged =>
    rw [Leader.enter_filling]
    exact Effect.quiet _ _
  | published k =>
    rw [Leader.enter_filling]
    exact Effect.quiet _ _
  | tracing => exact .other _ fun _ _ _ => ⟨by simp, by simp⟩
  | traceUnwound => exact .other _ fun _ _ _ => ⟨by simp, by simp⟩
  | _ => exact Effect.quiet _ _

theorem Leader.next_effect {traced ok : Bool} {spawned : UInt32} {pc : Leader}
    {r : Leader × FillSync × List (Event inst)}
    (hspawn : ∀ i, pc = .spawn i → (helpers inst).toNat ≤ i)
    (h : Leader.next inst traced ok spawned sync pc = some r) :
    Effect .leader ok pc.filling r.1.filling r.2.2 := by
  cases pc with
  | fill k lane =>
    cases ok <;> cases h
    · exact .unwinds k lane rfl
    · exact .returns k lane rfl
  | _ => exact (Leader.next_move inst hspawn h).effect rfl ok

variable {s s' : State inst}

theorem step_leader {traced ok : Bool} (h : s.step traced .leader ok = some s') :
    (∃ id : HelperId inst, s.leader = .spawn id ∧ s' = s.spawn id ok) ∨
      ∃ r, Leader.next inst traced ok s.spawned s.sync s.leader = some r ∧
        (∀ i, s.leader = .spawn i → (helpers inst).toNat ≤ i) ∧ s' = s.withLeader r := by
  unfold State.step at h
  cases hl : s.leader with
  | spawn i =>
    rw [hl] at h
    dsimp only at h
    by_cases hi : i < (helpers inst).toNat
    · rw [dif_pos hi] at h
      exact Or.inl ⟨⟨i, hi⟩, rfl, (Option.some.inj h).symm⟩
    · rw [dif_neg hi] at h
      obtain ⟨r, hr, rfl⟩ := Option.map_eq_some_iff.mp h
      refine Or.inr ⟨r, hr, ?_, rfl⟩
      intro j hj
      cases hj
      exact not_lt.mp hi
  | _ =>
    rw [hl] at h
    obtain ⟨r, hr, rfl⟩ := Option.map_eq_some_iff.mp h
    exact Or.inr ⟨r, hr, nofun, rfl⟩

theorem step_helper {traced ok : Bool} {id : HelperId inst}
    (h : s.step traced (.helper id) ok = some s') :
    ∃ r, Helper.next inst id ok s.sync (s.helper id) = some r ∧ s' = s.withHelper id r := by
  obtain ⟨r, hr, rfl⟩ := Option.map_eq_some_iff.mp h
  exact ⟨r, hr, rfl⟩

/-- Nobody but the worker that steps begins or ends a call of `fill`. -/
theorem step_effect (roster : Roster s) {traced ok : Bool} {worker : Worker inst}
    (h : s.step traced worker ok = some s') :
    (∀ w, w ≠ worker → s'.filling w = s.filling w) ∧
      ∃ evs, s'.log = evs ++ s.log ∧ Effect worker ok (s.filling worker) (s'.filling worker) evs := by
  cases worker with
  | leader =>
    rcases step_leader h with ⟨id, hl, rfl⟩ | ⟨r, hr, hspawn, rfl⟩
    · have habs := roster.unspawned id id hl le_rfl
      have hother : ∀ pc : Helper, pc.filling = none → ∀ id',
          (Function.update s.helper id pc id').filling = (s.helper id').filling := by
        intro pc hpc id'
        by_cases hid : id' = id
        · rw [hid, Function.update_self, habs, hpc]
          rfl
        · rw [Function.update_of_ne hid]
      have hleader : s.filling .leader = none := congrArg Leader.filling hl
      rw [hleader]
      cases ok with
      | true =>
        refine ⟨?_, [], rfl, Effect.quiet _ _⟩
        rintro (_ | id') hne
        · exact absurd rfl hne
        · exact hother _ (Helper.enter_filling 0) id'
      | false =>
        refine ⟨?_, [], rfl, Effect.quiet _ _⟩
        rintro (_ | id') hne
        · exact absurd rfl hne
        · exact hother .refused rfl id'
    · refine ⟨?_, r.2.2, rfl, Leader.next_effect hspawn hr⟩
      rintro (_ | id') hne
      · exact absurd rfl hne
      · rfl
  | helper id =>
    obtain ⟨r, hr, rfl⟩ := step_helper h
    refine ⟨?_, r.2.2, rfl, ?_⟩
    · rintro (_ | id') hne
      · rfl
      · exact congrArg Helper.filling
          (Function.update_of_ne (fun he => hne (congrArg Worker.helper he)) _ _)
    · have heffect := Helper.next_effect hr
      have hself : (s.withHelper id r).helper id = r.1 := withHelper_helper id r
      change Effect _ _ _ ((s.withHelper id r).helper id).filling _
      rw [hself]
      exact heffect

/-- The leader stays in its slice or publishes the next one; the helpers do not move then. -/
theorem step_slices {traced ok : Bool} {worker : Worker inst}
    (h : s.step traced worker ok = some s') :
    s'.leader.slices = s.leader.slices ∨
      ∃ k, s.leader = .publish k ∧ s'.leader = Leader.enter inst (k + 1) ∧
        s'.helper = s.helper ∧ s'.log = s.log := by
  rcases step_cases h with ⟨id, hl, rfl⟩ | ⟨r, m, rfl⟩ | ⟨id, r, m, rfl⟩
  · refine Or.inl ?_
    rw [hl]
    cases ok <;> rfl
  · rcases m.slices with hK | ⟨k, hpc, hpc', -, hevs⟩
    · exact Or.inl hK
    · refine Or.inr ⟨k, hpc, hpc', rfl, ?_⟩
      change r.2.2 ++ s.log = s.log
      rw [hevs]
      rfl
  · exact Or.inl rfl

end Effects

/-- What the log remembers of calls that are going on and of calls that went wrong. -/
structure Remembered {inst : Instance} (s : State inst) : Prop where
  filling : ∀ worker k lane, s.filling worker = some (k, lane) → .claimed worker k lane ∈ s.log
  filled : ∀ worker k lane, .filled worker k lane ∈ s.log → .claimed worker k lane ∈ s.log
  early : ∀ worker k lane, .claimed worker k lane ∈ s.log → k < totalSlices inst
  draining : ∀ id k, s.helper id = .drain k → k < totalSlices inst
  tracing : ∀ k, s.leader = .trace k → k % 4 = 3
  unwinding : ∀ id, (s.helper id).unwinding = true → ∃ k, .unwound (.helper id) k ∈ s.log
  ending : s.leader.ending = true → totalSlices inst ≤ s.leader.slices ∨
    ∃ worker k, .unwound worker k ∈ s.log

section Remembered
variable {inst : Instance} {s : State inst}

theorem Remembered.start : Remembered (State.start inst) where
  filling := by
    rintro (_ | id) k lane h <;> cases h
  filled := nofun
  early := nofun
  draining := nofun
  tracing := nofun
  unwinding := nofun
  ending := nofun

theorem Leader.enter_ending (k : ℕ) (h : (Leader.enter inst k).ending = true) :
    totalSlices inst ≤ k := by
  rcases Leader.enter_cases inst k with ⟨-, he⟩ | ⟨hk, -⟩
  · rw [he] at h
    cases h
  · exact hk

theorem Helper.enter_draining (k j : ℕ) (h : Helper.enter inst k = .drain j) :
    j < totalSlices inst := by
  rcases Helper.enter_cases inst k with ⟨hk, he⟩ | ⟨-, he⟩
  · rw [he] at h
    cases h
    exact hk
  · rw [he] at h
    cases h

theorem Leader.enter_ne_trace (k j : ℕ) : Leader.enter inst k ≠ .trace j :=
  Leader.enter_ind inst k (fun pc => pc ≠ .trace j) nofun nofun

/-- The first lost helper is one that has unwound. -/
theorem Roster.unwound_of_lost (r : Roster s) (hs : ∀ i, s.leader ≠ .spawn i)
    (hcharged : s.leader.charged = true) (h : helpers inst - s.spawned < s.sync.lost) :
    ∃ id, (s.helper id).unwinding = true := by
  by_contra hnone
  have hdead : tally Helper.isDead s.helper = 0 := by
    refine tally_eq_zero _ _ fun id => ?_
    have hid : ¬ (s.helper id).unwinding = true := fun hu => hnone ⟨id, hu⟩
    cases hpc : s.helper id with
    | dead k =>
      rw [hpc] at hid
      exact absurd rfl hid
    | _ => rfl
  have hlost := r.lost
  have hshort := r.shortfall hs
  rw [UInt32.lt_iff_toNat_lt] at h
  rw [if_pos hcharged] at hlost
  omega

section Moves
variable {sync sync' : FillSync} {evs : List (Event inst)}

theorem HelperMove.claimed_drain {id : HelperId inst} {pc pc' : Helper}
    (m : HelperMove inst id sync pc pc' sync' evs) {w : Worker inst} {k : ℕ} {lane : UInt32}
    (h : .claimed w k lane ∈ evs) : pc = .drain k := by
  cases m with
  | claimed j hl =>
    cases List.mem_singleton.mp h
    rfl
  | filled => cases List.mem_singleton.mp h
  | unwound => cases List.mem_singleton.mp h
  | _ => cases h

theorem LeaderMove.claimed_drain {traced : Bool} {spawned : UInt32} {pc pc' : Leader}
    (m : LeaderMove inst traced spawned sync pc pc' sync' evs) {w : Worker inst} {k : ℕ}
    {lane : UInt32} (h : .claimed w k lane ∈ evs) : pc = .drain k := by
  cases m with
  | claimed j hl =>
    cases List.mem_singleton.mp h
    rfl
  | filled => cases List.mem_singleton.mp h
  | unwound => cases List.mem_singleton.mp h
  | tracing => cases List.mem_singleton.mp h
  | traceUnwound => cases List.mem_singleton.mp h
  | _ => cases h

theorem HelperMove.draining {id : HelperId inst} {pc pc' : Helper}
    (m : HelperMove inst id sync pc pc' sync' evs) {j : ℕ} (h : pc' = .drain j) :
    (∃ lane, pc = .fill j lane) ∨ j < totalSlices inst := by
  cases m with
  | filled k lane =>
    cases h
    exact Or.inl ⟨lane, rfl⟩
  | entered k => exact Or.inr (Helper.enter_draining (k + 1) j h)
  | _ => cases h

theorem HelperMove.unwinds {id : HelperId inst} {pc pc' : Helper}
    (m : HelperMove inst id sync pc pc' sync' evs) (h : pc'.unwinding = true) :
    pc.unwinding = true ∨ ∃ k, .unwound (.helper id) k ∈ evs := by
  cases m with
  | unwound k lane => exact Or.inr ⟨k, List.mem_cons_self⟩
  | bailed k => exact Or.inl rfl
  | entered k =>
    exact absurd ((Helper.enter_ind inst (k + 1) (fun pc => pc.unwinding = false) rfl rfl).symm.trans
      h) nofun
  | _ => cases h

/-- The leader is out of its loop because all slices are done, or because somebody unwound. -/
theorem LeaderMove.ends {traced : Bool} {spawned : UInt32} {pc pc' : Leader}
    (m : LeaderMove inst traced spawned sync pc pc' sync' evs) (h : pc'.ending = true) :
    totalSlices inst ≤ pc'.slices ∨ (pc.ending = true ∧ pc'.slices = pc.slices) ∨
      (∃ k, pc = .checkLost k ∧ helpers inst - spawned < sync.lost) ∨
      ∃ k, .unwound .leader k ∈ evs := by
  cases m with
  | charged =>
    rw [Leader.enter_slices]
    exact Or.inl (Leader.enter_ending 0 h)
  | published k =>
    rw [Leader.enter_slices]
    exact Or.inl (Leader.enter_ending (k + 1) h)
  | unwound k lane => exact Or.inr (Or.inr (Or.inr ⟨k, List.mem_cons_self⟩))
  | traceUnwound k => exact Or.inr (Or.inr (Or.inr ⟨k, List.mem_cons_self⟩))
  | lostOne k hlost => exact Or.inr (Or.inr (Or.inl ⟨k, rfl, hlost⟩))
  | stopped k => exact Or.inr (Or.inl ⟨rfl, rfl⟩)
  | bumped k => exact Or.inr (Or.inl ⟨rfl, rfl⟩)
  | dropStopped k => exact Or.inr (Or.inl ⟨rfl, rfl⟩)
  | dropBumped k => exact Or.inr (Or.inl ⟨rfl, rfl⟩)
  | _ => cases h

theorem LeaderMove.traces {traced : Bool} {spawned : UInt32} {pc pc' : Leader}
    (m : LeaderMove inst traced spawned sync pc pc' sync' evs) {k : ℕ} (h : pc' = .trace k) :
    k % 4 = 3 := by
  cases m with
  | tracing j hlost hk ht =>
    cases h
    exact hk
  | charged => exact absurd h (Leader.enter_ne_trace 0 k)
  | published j => exact absurd h (Leader.enter_ne_trace (j + 1) k)
  | _ => cases h

end Moves

theorem Remembered.spawn (m : Remembered s) (id : HelperId inst) (i : ℕ) (spawned : UInt32)
    {pc : Helper} (hfilling : pc.filling = none) (hunwinding : pc.unwinding = false)
    (hdrain : ∀ j, pc = .drain j → j < totalSlices inst) :
    Remembered ⟨s.sync, spawned, .spawn i, Function.update s.helper id pc, s.log⟩ := by
  have hcase : ∀ id', Function.update s.helper id pc id' = pc ∨
      Function.update s.helper id pc id' = s.helper id' := by
    intro id'
    by_cases hid : id' = id
    · rw [hid, Function.update_self]
      exact Or.inl rfl
    · rw [Function.update_of_ne hid]
      exact Or.inr rfl
  refine ⟨?_, m.filled, m.early, ?_, nofun, ?_, nofun⟩
  · rintro (_ | id') k lane h
    · cases h
    · change (Function.update s.helper id pc id').filling = _ at h
      rcases hcase id' with he | he <;> rw [he] at h
      · exact absurd (hfilling.symm.trans h) nofun
      · exact m.filling (.helper id') k lane h
  · intro id' k h
    change Function.update s.helper id pc id' = _ at h
    rcases hcase id' with he | he <;> rw [he] at h
    · exact hdrain k h
    · exact m.draining id' k h
  · intro id' h
    change (Function.update s.helper id pc id').unwinding = true at h
    rcases hcase id' with he | he <;> rw [he] at h
    · exact absurd (hunwinding.symm.trans h) nofun
    · exact m.unwinding id' h

theorem Remembered.step (m : Remembered s) (r : Roster s) (b : Barrier s) {s' : State inst}
    {traced ok : Bool} {worker : Worker inst} (h : s.step traced worker ok = some s') :
    Remembered s' := by
  obtain ⟨hothers, evs, hlog, heffect⟩ := step_effect r h
  have hfilling : ∀ w k lane, s'.filling w = some (k, lane) → .claimed w k lane ∈ s'.log := by
    intro w k lane hw
    rw [hlog]
    by_cases he : w = worker
    · subst he
      rw [hw] at heffect
      rw [heffect.claimed]
      exact List.mem_cons_self
    · rw [hothers w he] at hw
      exact List.mem_append_right _ (m.filling w k lane hw)
  have hfilled : ∀ w k lane, .filled w k lane ∈ s'.log → .claimed w k lane ∈ s'.log := by
    intro w k lane hw
    rw [hlog] at hw ⊢
    rcases List.mem_append.mp hw with hnew | hold
    · obtain ⟨rfl, hcall, -⟩ := heffect.filled hnew
      exact List.mem_append_right _ (m.filling w k lane hcall)
    · exact List.mem_append_right _ (m.filled w k lane hold)
  rcases step_cases h with ⟨id, hl, rfl⟩ | ⟨x, mv, rfl⟩ | ⟨id, x, mv, rfl⟩
  · cases ok with
    | true =>
      exact m.spawn id _ _ (Helper.enter_filling 0)
        (Helper.enter_ind inst 0 (fun pc => pc.unwinding = false) rfl rfl) (Helper.enter_draining 0)
    | false => exact m.spawn id _ _ rfl rfl nofun
  · refine ⟨hfilling, hfilled, ?_, m.draining, fun k => mv.traces, ?_, ?_⟩
    · intro w k lane hw
      rcases List.mem_append.mp hw with hnew | hold
      · have hdrain := mv.claimed_drain hnew
        have hworking := b.working (by rw [hdrain]; rfl)
        rw [hdrain] at hworking
        exact hworking
      · exact m.early w k lane hold
    · intro id hid
      obtain ⟨k, hk⟩ := m.unwinding id hid
      exact ⟨k, List.mem_append_right _ hk⟩
    · intro hend
      rcases mv.ends hend with hdone | ⟨hold, hK⟩ | ⟨k, hpc, hlost⟩ | ⟨k, hk⟩
      · exact Or.inl hdone
      · rcases m.ending hold with hdone | ⟨w, k, hk⟩
        · exact Or.inl (hdone.trans_eq hK.symm)
        · exact Or.inr ⟨w, k, List.mem_append_right _ hk⟩
      · obtain ⟨id, hid⟩ := r.unwound_of_lost (by rw [hpc]; exact nofun) (by rw [hpc]; rfl) hlost
        obtain ⟨j, hj⟩ := m.unwinding id hid
        exact Or.inr ⟨.helper id, j, List.mem_append_right _ hj⟩
      · exact Or.inr ⟨.leader, k, List.mem_append_left _ hk⟩
  · have hcase : ∀ id', (s.withHelper id x).helper id' = s.helper id' ∨
        (id' = id ∧ (s.withHelper id x).helper id' = x.1) := by
      intro id'
      by_cases hid : id' = id
      · subst hid
        exact Or.inr ⟨rfl, withHelper_helper id' x⟩
      · exact Or.inl (Function.update_of_ne hid _ _)
    refine ⟨hfilling, hfilled, ?_, ?_, m.tracing, ?_, ?_⟩
    · intro w k lane hw
      rcases List.mem_append.mp hw with hnew | hold
      · exact m.draining id k (mv.claimed_drain hnew)
      · exact m.early w k lane hold
    · intro id' k hid
      rcases hcase id' with he | ⟨rfl, he⟩ <;> rw [he] at hid
      · exact m.draining id' k hid
      · rcases mv.draining hid with ⟨lane, hpc⟩ | hk
        · exact m.early _ k lane (m.filling (.helper id') k lane (congrArg Helper.filling hpc))
        · exact hk
    · intro id' hid
      rcases hcase id' with he | ⟨rfl, he⟩ <;> rw [he] at hid
      · obtain ⟨k, hk⟩ := m.unwinding id' hid
        exact ⟨k, List.mem_append_right _ hk⟩
      · rcases mv.unwinds hid with hold | ⟨k, hk⟩
        · obtain ⟨k, hk⟩ := m.unwinding id' hold
          exact ⟨k, List.mem_append_right _ hk⟩
        · exact ⟨k, List.mem_append_left _ hk⟩
    · intro hend
      rcases m.ending hend with hdone | ⟨w, k, hk⟩
      · exact Or.inl hdone
      · exact Or.inr ⟨w, k, List.mem_append_right _ hk⟩

theorem Reachable.remembered (hlanes : inst.lanes.toNat ≤ 0xFFFFFF) {traced : Bool}
    (h : Reachable traced s) : Remembered s := by
  induction h with
  | start => exact Remembered.start
  | step worker ok hreach hstep ih => exact ih.step (hreach.roster hlanes) (hreach.barrier hlanes) hstep

end Remembered

end Argon2Rust.Pool
