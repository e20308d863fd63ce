import Argon2Rust.StripePlan
import Argon2Rust.Tally

set_option autoImplicit false

namespace Argon2Rust.Striping
open Parameters Tiling Tally StripePlan
open Capacity (mulUsize)

/-- A thread: not running, about to bump the counter, holding an index, or out of the loop. -/
inductive Runner where
  | absent
  | fetch
  | claimed (i : ℕ)
  | done
  deriving DecidableEq, Repr

/-- The helpers asked for so far have the ids from 1 on; the calling thread has the id 0. -/
structure State (helpers : ℕ) where
  next : ℕ
  asked : ℕ
  runner : Fin (helpers + 1) → Runner
  calls : List Piece

section Machine
variable (w : PointerWidth) (len per : ℕ) {helpers : ℕ} (spawns : Fin (helpers + 1) → Bool)

def start (helpers : ℕ) : State helpers := ⟨0, 1, fun _ => .absent, []⟩

/-- One step of one thread; the calling thread enters the loop after its last request. -/
inductive Step : State helpers → State helpers → Prop where
  | spawn (s : State helpers) (id : Fin (helpers + 1)) (hid : id.val = s.asked) :
      Step s { s with
        asked := s.asked + 1
        runner := Function.update s.runner id (if spawns id then .fetch else .absent) }
  | enter (s : State helpers) (hasked : s.asked = helpers + 1) (h : s.runner 0 = .absent) :
      Step s { s with runner := Function.update s.runner 0 .fetch }
  | fetch (s : State helpers) (id : Fin (helpers + 1)) (h : s.runner id = .fetch) :
      Step s { s with
        next := (s.next + 1) % 2 ^ w.bits
        runner := Function.update s.runner id (.claimed s.next) }
  | leave (s : State helpers) (id : Fin (helpers + 1)) (i : ℕ) (h : s.runner id = .claimed i)
      (hi : divCeil len per ≤ i) : Step s { s with runner := Function.update s.runner id .done }
  | call (s : State helpers) (id : Fin (helpers + 1)) (i : ℕ) (p : Piece)
      (h : s.runner id = .claimed i) (hi : i < divCeil len per) (hp : stripe w len per i = some p) :
      Step s { s with
        runner := Function.update s.runner id .fetch
        calls := s.calls ++ [p] }

inductive Runs : ℕ → State helpers → Prop where
  | start : Runs 0 (start helpers)
  | step {k : ℕ} {s s' : State helpers} (run : Runs k s) (h : Step w len per spawns s s') :
      Runs (k + 1) s'

def Returned (s : State helpers) : Prop :=
  s.runner 0 = .done ∧ ∀ id, s.runner id = .absent ∨ s.runner id = .done

def team (id : Fin (helpers + 1)) : Bool := decide (id = 0) || spawns id

def members : ℕ := tally (fun present => present) (team spawns)

/-- What the system guarantees of the threads it has started: on 32 bits each takes up
some of the address space that the region lies in. -/
def Addressable : Prop := w = .bits32 → len + members spawns < 2 ^ 32

end Machine

inductive StripeOver (w : PointerWidth) (len : ℕ) (workers : UInt32) (unit : ℕ)
    (spawns : Fin (workerCount workers - 1 + 1) → Bool) : List Piece → Prop where
  | single (per : ℕ) (hper : stripeLength w len workers unit = some per)
      (h : workerCount workers = 1 ∨ len ≤ per) : StripeOver w len workers unit spawns [(0, len)]
  | striped (per : ℕ) (hper : stripeLength w len workers unit = some per)
      (h : ¬ (workerCount workers = 1 ∨ len ≤ per)) (k : ℕ) (s : State (workerCount workers - 1))
      (run : Runs w len per spawns k s) (returned : Returned s) :
      StripeOver w len workers unit spawns s.calls

def holds (i : ℕ) (r : Runner) : Bool := decide (r = .claimed i)

def passed (stripes : ℕ) : Runner → Bool
  | .claimed i => decide (stripes ≤ i)
  | .done => true
  | _ => false

def busy : Runner → Bool
  | .claimed _ => true
  | _ => false

@[simp] theorem holds_absent (i : ℕ) : holds i .absent = false := rfl
@[simp] theorem holds_fetch (i : ℕ) : holds i .fetch = false := rfl
@[simp] theorem holds_done (i : ℕ) : holds i .done = false := rfl
@[simp] theorem holds_claimed (i j : ℕ) : holds i (.claimed j) = decide (j = i) := by
  simp [holds]

theorem update_cases {n : ℕ} (f : Fin n → Runner) (id : Fin n) (r : Runner) {j : Fin n} {x : Runner}
    (h : Function.update f id r j = x) : j = id ∧ r = x ∨ j ≠ id ∧ f j = x := by
  by_cases hj : j = id
  · subst hj
    rw [Function.update_self] at h
    exact Or.inl ⟨rfl, h⟩
  · rw [Function.update_of_ne hj] at h
    exact Or.inr ⟨hj, h⟩

section Invariant
variable {w : PointerWidth} {len per helpers : ℕ} {spawns : Fin (helpers + 1) → Bool}

/-- What every run keeps; `ran` lists the stripes in the order of their calls. -/
structure Inv (len per : ℕ) (spawns : Fin (helpers + 1) → Bool) (ran : List ℕ)
    (s : State helpers) : Prop where
  calls_eq : s.calls = ran.map (piece len per)
  below : ∀ i ∈ ran, i < divCeil len per
  once : ∀ i, i < divCeil len per →
    ran.count i + tally (holds i) s.runner = if i < s.next then 1 else 0
  claimed : ∀ id i, s.runner id = .claimed i → i < s.next
  done : ∀ id, s.runner id = .done → divCeil len per < s.next
  bounded : s.next ≤ divCeil len per + tally (passed (divCeil len per)) s.runner
  member : ∀ id, team spawns id = false → s.runner id = .absent
  fresh : ∀ id : Fin (helpers + 1), s.asked ≤ id.val → s.runner id = .absent
  asked_pos : 1 ≤ s.asked
  asked_le : s.asked ≤ helpers + 1

theorem inv_start : Inv len per spawns [] (start helpers) where
  calls_eq := rfl
  below := by simp
  once i _ := by
    have hzero : tally (holds i) (start helpers).runner = 0 := tally_eq_zero _ _ fun _ => rfl
    rw [hzero]
    rfl
  claimed _ _ h := by cases h
  done _ h := by cases h
  bounded := Nat.zero_le _
  member _ _ := rfl
  fresh _ _ := rfl
  asked_pos := le_rfl
  asked_le := Nat.le_add_left 1 helpers

variable {ran : List ℕ} {s s' : State helpers} {id : Fin (helpers + 1)}

theorem Inv.present (h : Inv len per spawns ran s) (r : Runner) (hid : s.runner id ≠ .absent) :
    (∀ j, team spawns j = false → Function.update s.runner id r j = .absent) ∧
      ∀ j : Fin (helpers + 1), s.asked ≤ j.val → Function.update s.runner id r j = .absent := by
  have hother : ∀ j, s.runner j = .absent → Function.update s.runner id r j = .absent := by
    intro j hj
    have hne : j ≠ id := by
      rintro rfl
      exact hid hj
    rw [Function.update_of_ne hne, hj]
  exact ⟨fun j hj => hother j (h.member j hj), fun j hj => hother j (h.fresh j hj)⟩

theorem Inv.room (h : Inv len per spawns ran s) (hid : s.runner id = .fetch) :
    s.next + 1 ≤ divCeil len per + members spawns := by
  have hpresent : s.runner id ≠ .absent := by
    rw [hid]
    exact nofun
  have hteam := (h.present .done hpresent).1
  have hupdate := tally_update (passed (divCeil len per)) s.runner id .done
  have hmono : tally (passed (divCeil len per)) (Function.update s.runner id .done) ≤
      tally (fun present => present) (team spawns) := by
    refine tally_mono _ _ _ _ fun j hj => ?_
    by_contra hnot
    rw [hteam j (Bool.eq_false_of_not_eq_true hnot)] at hj
    cases hj
  have hbounded := h.bounded
  rw [hid] at hupdate
  simp only [passed, Bool.toNat_false, Bool.toNat_true] at hupdate
  change tally _ _ ≤ members spawns at hmono
  omega

theorem Inv.starts (h : Inv len per spawns ran s) (r : Runner) (hr : r = .fetch ∨ r = .absent)
    (habsent : s.runner id = .absent) (asked : ℕ) (hasked : s.asked ≤ asked)
    (hle : asked ≤ helpers + 1) (hid : id.val < asked) (hteam : r = .fetch → team spawns id = true) :
    Inv len per spawns ran { s with asked, runner := Function.update s.runner id r } := by
  have hholds : ∀ i, holds i r = holds i (s.runner id) := by
    intro i
    rw [habsent]
    rcases hr with rfl | rfl <;> rfl
  have hpassed : passed (divCeil len per) r = passed (divCeil len per) (s.runner id) := by
    rw [habsent]
    rcases hr with rfl | rfl <;> rfl
  refine ⟨h.calls_eq, h.below, ?_, ?_, ?_, ?_, ?_, ?_, h.asked_pos.trans hasked, hle⟩
  · intro i hi
    rw [← h.once i hi, tally_update_of_eq _ _ _ _ (hholds i)]
  · intro j i hj
    obtain ⟨-, rfl⟩ | ⟨-, hj⟩ := update_cases s.runner id r hj
    · rcases hr with hr | hr <;> cases hr
    · exact h.claimed j i hj
  · intro j hj
    obtain ⟨-, rfl⟩ | ⟨-, hj⟩ := update_cases s.runner id r hj
    · rcases hr with hr | hr <;> cases hr
    · exact h.done j hj
  · rw [tally_update_of_eq _ _ _ _ hpassed]
    exact h.bounded
  · intro j hj
    change Function.update s.runner id r j = .absent
    by_cases hj' : j = id
    · subst hj'
      rw [Function.update_self]
      refine hr.resolve_left fun hfetch => ?_
      rw [hteam hfetch] at hj
      cases hj
    · rw [Function.update_of_ne hj', h.member j hj]
  · intro j hj
    have hne : j ≠ id := by
      rintro rfl
      exact absurd hid (Nat.not_lt.mpr hj)
    exact (Function.update_of_ne hne _ _).trans (h.fresh j (hasked.trans hj))

theorem Inv.fetches (h : Inv len per spawns ran s) (hid : s.runner id = .fetch) :
    Inv len per spawns ran { s with
      next := s.next + 1
      runner := Function.update s.runner id (.claimed s.next) } := by
  have hpresent : s.runner id ≠ .absent := by
    rw [hid]
    exact nofun
  obtain ⟨hmember, hfresh⟩ := h.present (.claimed s.next) hpresent
  refine ⟨h.calls_eq, h.below, ?_, ?_, ?_, ?_, hmember, hfresh, h.asked_pos, h.asked_le⟩
  · intro i hi
    have hupdate := tally_update (holds i) s.runner id (.claimed s.next)
    have honce := h.once i hi
    rw [hid, holds_fetch, holds_claimed, Bool.toNat_false] at hupdate
    change ran.count i + tally (holds i) (Function.update s.runner id (.claimed s.next)) =
      if i < s.next + 1 then 1 else 0
    by_cases heq : s.next = i
    · rw [decide_eq_true heq, Bool.toNat_true] at hupdate
      rw [if_neg (by omega)] at honce
      rw [if_pos (by omega)]
      omega
    · rw [decide_eq_false heq, Bool.toNat_false] at hupdate
      by_cases hlt : i < s.next
      · rw [if_pos hlt] at honce
        rw [if_pos (by omega)]
        omega
      · rw [if_neg hlt] at honce
        rw [if_neg (by omega)]
        omega
  · intro j i hj
    change i < s.next + 1
    obtain ⟨-, hj⟩ | ⟨-, hj⟩ := update_cases s.runner id _ hj
    · rw [Runner.claimed.injEq] at hj
      omega
    · exact (h.claimed j i hj).trans (Nat.lt_succ_self _)
  · intro j hj
    change divCeil len per < s.next + 1
    obtain ⟨-, hj⟩ | ⟨-, hj⟩ := update_cases s.runner id _ hj
    · cases hj
    · exact (h.done j hj).trans (Nat.lt_succ_self _)
  · have hupdate := tally_update (passed (divCeil len per)) s.runner id (.claimed s.next)
    have hbounded := h.bounded
    rw [hid] at hupdate
    simp only [passed, Bool.toNat_false] at hupdate
    change s.next + 1 ≤ divCeil len per +
      tally (passed (divCeil len per)) (Function.update s.runner id (.claimed s.next))
    by_cases hlt : divCeil len per ≤ s.next
    · rw [decide_eq_true hlt, Bool.toNat_true] at hupdate
      omega
    · omega

theorem Inv.leaves (h : Inv len per spawns ran s) {i : ℕ} (hid : s.runner id = .claimed i)
    (hi : divCeil len per ≤ i) :
    Inv len per spawns ran { s with runner := Function.update s.runner id .done } := by
  have hpresent : s.runner id ≠ .absent := by
    rw [hid]
    exact nofun
  have hlt := h.claimed id i hid
  obtain ⟨hmember, hfresh⟩ := h.present .done hpresent
  refine ⟨h.calls_eq, h.below, ?_, ?_, ?_, ?_, hmember, hfresh, h.asked_pos, h.asked_le⟩
  · intro j hj
    rw [← h.once j hj, tally_update_of_eq]
    rw [hid, holds_done, holds_claimed, decide_eq_false (by omega)]
  · intro j k hj
    obtain ⟨-, hj⟩ | ⟨-, hj⟩ := update_cases s.runner id _ hj
    · cases hj
    · exact h.claimed j k hj
  · intro j hj
    exact hi.trans_lt hlt
  · rw [tally_update_of_eq]
    · exact h.bounded
    · rw [hid]
      simp only [passed, decide_eq_true hi]

theorem Inv.calls_stripe (h : Inv len per spawns ran s) {i : ℕ} (hid : s.runner id = .claimed i)
    (hi : i < divCeil len per) :
    Inv len per spawns (ran ++ [i]) { s with
      runner := Function.update s.runner id .fetch
      calls := s.calls ++ [piece len per i] } := by
  have hpresent : s.runner id ≠ .absent := by
    rw [hid]
    exact nofun
  obtain ⟨hmember, hfresh⟩ := h.present .fetch hpresent
  refine ⟨?_, ?_, ?_, ?_, ?_, ?_, hmember, hfresh, h.asked_pos, h.asked_le⟩
  · rw [List.map_append, List.map_singleton, ← h.calls_eq]
  · intro j hj
    rcases List.mem_append.mp hj with hj | hj
    · exact h.below j hj
    · rw [List.mem_singleton.mp hj]
      exact hi
  · intro j hj
    have hupdate := tally_update (holds j) s.runner id .fetch
    rw [hid, holds_fetch, holds_claimed, Bool.toNat_false] at hupdate
    rw [← h.once j hj, List.count_append, List.count_singleton]
    change _ + tally (holds j) (Function.update s.runner id .fetch) = _
    by_cases heq : i = j
    · rw [decide_eq_true heq, Bool.toNat_true] at hupdate
      rw [if_pos (beq_iff_eq.mpr heq)]
      omega
    · rw [decide_eq_false heq, Bool.toNat_false] at hupdate
      rw [if_neg (by rw [beq_iff_eq]; exact heq)]
      omega
  · intro j k hj
    obtain ⟨-, hj⟩ | ⟨-, hj⟩ := update_cases s.runner id _ hj
    · cases hj
    · exact h.claimed j k hj
  · intro j hj
    obtain ⟨-, hj⟩ | ⟨-, hj⟩ := update_cases s.runner id _ hj
    · cases hj
    · exact h.done j hj
  · rw [tally_update_of_eq]
    · exact h.bounded
    · rw [hid]
      simp only [passed, decide_eq_false (Nat.not_le.mpr hi)]

/-- What is left to do; every step makes it smaller. -/
def work (len per : ℕ) (spawns : Fin (helpers + 1) → Bool) (s : State helpers) : ℕ :=
  (helpers + 1 - s.asked) + (decide (s.runner 0 = .absent)).toNat +
    2 * (divCeil len per + members spawns - s.next) + tally busy s.runner

theorem absent_update {r : Runner} (hid : s.runner id ≠ .absent) (hr : r ≠ .absent) :
    decide (Function.update s.runner id r 0 = .absent) = decide (s.runner 0 = .absent) := by
  by_cases h0 : 0 = id
  · subst h0
    rw [Function.update_self, decide_eq_false hid, decide_eq_false hr]
  · rw [Function.update_of_ne h0]

section Progress
variable (hper : 0 < per) (hlen : len < 2 ^ w.bits)
  (hfits : divCeil len per + members spawns < 2 ^ w.bits)
include hper hlen hfits

omit hper hlen hfits in
theorem Inv.asks (h : Inv len per spawns ran s) (hid : id.val = s.asked) :
    Inv len per spawns ran { s with
      asked := s.asked + 1
      runner := Function.update s.runner id (if spawns id then .fetch else .absent) } ∧
    work len per spawns { s with
      asked := s.asked + 1
      runner := Function.update s.runner id (if spawns id then .fetch else .absent) } <
      work len per spawns s := by
  have habsent := h.fresh id hid.ge
  have hlt := id.isLt
  have hpos := h.asked_pos
  have hne : (0 : Fin (helpers + 1)) ≠ id := by
    rintro rfl
    rw [← hid] at hpos
    exact Nat.not_succ_le_zero 0 hpos
  have hkind : (if spawns id then Runner.fetch else .absent) = .fetch ∨
      (if spawns id then Runner.fetch else .absent) = .absent := by
    cases spawns id <;> simp
  have hteam : (if spawns id then Runner.fetch else .absent) = .fetch →
      team spawns id = true := by
    intro hfetch
    unfold team
    cases hs : spawns id with
    | true => exact Bool.or_true _
    | false =>
      rw [hs] at hfetch
      cases hfetch
  have hbusy : busy (if spawns id then Runner.fetch else .absent) = busy (s.runner id) := by
    rw [habsent]
    cases spawns id <;> rfl
  refine ⟨h.starts _ hkind habsent (s.asked + 1) (Nat.le_succ _) (by omega) (by omega) hteam, ?_⟩
  simp only [work, Function.update_of_ne hne, tally_update_of_eq _ _ _ _ hbusy]
  omega

/-- One step: the counter does not wrap, the call it makes is the stripe of its
index, and less is left to do. -/
theorem Inv.step (h : Inv len per spawns ran s) (hstep : Step w len per spawns s s') :
    (∃ ran', Inv len per spawns ran' s') ∧ work len per spawns s' < work len per spawns s := by
  cases hstep with
  | spawn id hid =>
    obtain ⟨hinv, hless⟩ := h.asks hid
    exact ⟨⟨ran, hinv⟩, hless⟩
  | enter hasked habsent =>
    have hpos := h.asked_pos
    have hbusy : busy .fetch = busy (s.runner 0) := by
      rw [habsent]
      rfl
    refine ⟨⟨ran, h.starts .fetch (Or.inl rfl) habsent s.asked le_rfl h.asked_le hpos
      fun _ => rfl⟩, ?_⟩
    simp only [work, Function.update_self, habsent, tally_update_of_eq _ _ _ _ hbusy]
    simp
  | fetch id hid =>
    have hroom := h.room hid
    have hpresent : s.runner id ≠ .absent := by
      rw [hid]
      exact nofun
    have hwrap : (s.next + 1) % 2 ^ w.bits = s.next + 1 := Nat.mod_eq_of_lt (by omega)
    have hbusy := tally_update busy s.runner id (.claimed s.next)
    rw [hid] at hbusy
    simp only [busy, Bool.toNat_false, Bool.toNat_true] at hbusy
    rw [hwrap]
    refine ⟨⟨ran, h.fetches hid⟩, ?_⟩
    have hcaller := absent_update hpresent (nofun : Runner.claimed s.next ≠ .absent)
    simp only [work, hcaller]
    omega
  | leave id i hid hi =>
    have hpresent : s.runner id ≠ .absent := by
      rw [hid]
      exact nofun
    have hbusy := tally_update busy s.runner id .done
    rw [hid] at hbusy
    simp only [busy, Bool.toNat_false, Bool.toNat_true] at hbusy
    refine ⟨⟨ran, h.leaves hid hi⟩, ?_⟩
    have hcaller := absent_update hpresent (nofun : Runner.done ≠ .absent)
    simp only [work, hcaller]
    omega
  | call id i p hid hi hp =>
    have hpresent : s.runner id ≠ .absent := by
      rw [hid]
      exact nofun
    rw [stripe_some hper hlen hi, Option.some.injEq] at hp
    have hbusy := tally_update busy s.runner id .fetch
    rw [hid] at hbusy
    simp only [busy, Bool.toNat_false, Bool.toNat_true] at hbusy
    rw [← hp]
    refine ⟨⟨ran ++ [i], h.calls_stripe hid hi⟩, ?_⟩
    have hcaller := absent_update hpresent (nofun : Runner.fetch ≠ .absent)
    simp only [work, hcaller]
    omega

theorem Runs.inv {k : ℕ} (run : Runs w len per spawns k s) :
    (∃ ran, Inv len per spawns ran s) ∧
      k + work len per spawns s ≤ work len per spawns (Striping.start helpers) := by
  induction run with
  | start => exact ⟨⟨[], inv_start⟩, by omega⟩
  | step _ hstep ih =>
    obtain ⟨⟨ran, h⟩, hwork⟩ := ih
    obtain ⟨hinv, hless⟩ := h.step hper hlen hfits hstep
    exact ⟨hinv, by omega⟩

omit hfits in
/-- Until the scope has joined some thread can go on; in particular no claimed stripe overflows. -/
theorem Inv.progress (h : Inv len per spawns ran s) (hnot : ¬ Returned s) :
    ∃ s', Step w len per spawns s s' := by
  by_cases hasked : s.asked = helpers + 1
  · by_cases habsent : s.runner 0 = .absent
    · exact ⟨_, .enter s hasked habsent⟩
    · have hlive : ∃ id, s.runner id ≠ .absent ∧ s.runner id ≠ .done := by
        by_contra hnone
        push Not at hnone
        refine hnot ⟨hnone 0 habsent, fun id => ?_⟩
        by_cases hid : s.runner id = .absent
        · exact Or.inl hid
        · exact Or.inr (hnone id hid)
      obtain ⟨id, hpresent, hlive⟩ := hlive
      cases hid : s.runner id with
      | absent => exact absurd hid hpresent
      | done => exact absurd hid hlive
      | fetch => exact ⟨_, .fetch s id hid⟩
      | claimed i =>
        by_cases hi : i < divCeil len per
        · exact ⟨_, .call s id i _ hid hi (stripe_some hper hlen hi)⟩
        · exact ⟨_, .leave s id i hid (Nat.le_of_not_lt hi)⟩
  · have hle := h.asked_le
    exact ⟨_, .spawn s ⟨s.asked, by omega⟩ rfl⟩

/-- Every run can be continued until the scope has joined, and none goes on forever. -/
theorem runs_return : ∃ k s, Runs w len per spawns k s ∧ Returned s := by
  by_contra hnone
  have hall : ∀ k, ∃ s, Runs w len per spawns k s := by
    intro k
    induction k with
    | zero => exact ⟨_, .start⟩
    | succ k ih =>
      obtain ⟨s, run⟩ := ih
      obtain ⟨⟨ran, hinv⟩, -⟩ := run.inv hper hlen hfits
      obtain ⟨s', hstep⟩ := hinv.progress hper hlen fun returned => hnone ⟨k, s, run, returned⟩
      exact ⟨s', .step run hstep⟩
  obtain ⟨s, run⟩ := hall (work len per spawns (Striping.start helpers) + 1)
  have hbound := (run.inv hper hlen hfits).2
  omega

end Progress

theorem work_start_le (len per : ℕ) (spawns : Fin (helpers + 1) → Bool) :
    work len per spawns (start helpers) ≤
      2 * (divCeil len per + members spawns) + helpers + 1 := by
  have hidle : tally busy (start helpers).runner = 0 := tally_eq_zero _ _ fun _ => rfl
  have hflag := Bool.toNat_le (decide ((start helpers).runner 0 = .absent))
  unfold work
  rw [hidle]
  change (helpers + 1 - 1) + _ + 2 * (_ - 0) + 0 ≤ _
  omega

theorem Inv.nodup (h : Inv len per spawns ran s) : ran.Nodup := by
  rw [List.nodup_iff_count_le_one]
  intro i
  by_cases hi : i ∈ ran
  · have honce := h.once i (h.below i hi)
    split_ifs at honce <;> omega
  · rw [List.count_eq_zero_of_not_mem hi]
    exact Nat.zero_le 1

theorem Inv.perm (h : Inv len per spawns ran s) (hreturned : Returned s) :
    ran.Perm (List.range (divCeil len per)) := by
  refine (List.perm_ext_iff_of_nodup h.nodup List.nodup_range).mpr fun i => ?_
  rw [List.mem_range]
  refine ⟨h.below i, fun hi => ?_⟩
  have hnone : tally (holds i) s.runner = 0 := by
    refine tally_eq_zero _ _ fun id => ?_
    rcases hreturned.2 id with hid | hid
    · rw [hid, holds_absent]
    · rw [hid, holds_done]
  have honce := h.once i hi
  rw [hnone, if_pos (hi.trans (h.done 0 hreturned.1))] at honce
  exact List.count_pos_iff.mp (by omega)

end Invariant

/-- The calls made so far are disjoint stripes of the region, each at a whole unit. -/
structure Safe (len unit workers : ℕ) (calls : List Piece) : Prop where
  disjoint : calls.Pairwise fun p q => p.1 + p.2 ≤ q.1 ∨ q.1 + q.2 ≤ p.1
  within : ∀ p ∈ calls, p.1 + p.2 ≤ len
  aligned : 0 < unit → ∀ p ∈ calls, unit ∣ p.1
  count : calls.length ≤ workers

def Exact (len : ℕ) (calls : List Piece) : Prop :=
  ∀ b, calls.countP (covers b) = if b < len then 1 else 0

section Results
variable {w : PointerWidth} {len per unit workers helpers : ℕ} {spawns : Fin (helpers + 1) → Bool}
  {ran : List ℕ} {s : State helpers}

theorem Inv.safe (h : Inv len per spawns ran s) (hper : 0 < per)
    (hsuff : Suffices w len workers unit per) : Safe len unit workers s.calls := by
  rw [h.calls_eq]
  refine ⟨?_, ?_, ?_, ?_⟩
  · rw [List.pairwise_map]
    exact h.nodup.imp fun hne => piece_disjoint hne
  · intro p hp
    obtain ⟨i, hi, rfl⟩ := List.mem_map.mp hp
    exact piece_end_le hper (h.below i hi)
  · intro hunit p hp
    obtain ⟨i, hi, rfl⟩ := List.mem_map.mp hp
    have hwhole := hsuff.whole
    rw [Nat.max_eq_left hunit] at hwhole
    exact Nat.dvd_mul_left_of_dvd hwhole i
  · have hsub : ran ⊆ List.range (divCeil len per) := fun i hi => List.mem_range.mpr (h.below i hi)
    have hle := (h.nodup.subperm hsub).length_le
    rw [List.length_range] at hle
    rw [List.length_map]
    exact hle.trans (stripes_le hper hsuff.covers)

theorem Inv.exact (h : Inv len per spawns ran s) (hper : 0 < per) (hlen : 0 < len)
    (hreturned : Returned s) : Exact len s.calls := by
  intro b
  rw [h.calls_eq, ((h.perm hreturned).map _).countP_eq, (pieces_tile hper hlen).countP]
  simp only [Nat.zero_le, true_and]

theorem single_safe (hworkers : 0 < workers) : Safe len unit workers [(0, len)] where
  disjoint := List.pairwise_singleton _ _
  within p hp := by
    rw [List.mem_singleton.mp hp, Nat.zero_add]
  aligned _ p hp := by
    rw [List.mem_singleton.mp hp]
    exact Nat.dvd_zero unit
  count := hworkers

theorem single_exact : Exact len [(0, len)] := by
  have htiles := Tiles.single 0 len
  rw [Nat.zero_add] at htiles
  intro b
  rw [htiles.countP]
  simp only [Nat.zero_le, true_and]

end Results

/-- The counter has room for every stripe and one increment more for every thread. -/
theorem counter_fits {w : PointerWidth} {len per : ℕ} {workers : UInt32} (hper : 0 < per)
    (hcovers : len ≤ workerCount workers * per)
    {spawns : Fin (workerCount workers - 1 + 1) → Bool}
    (hspace : Addressable w len spawns) :
    divCeil len per + members spawns < 2 ^ w.bits := by
  have hpos := workerCount_pos workers
  have hteam : members spawns ≤ workerCount workers - 1 + 1 := tally_le _ _
  have hstripes := stripes_le hper hcovers
  have hcount : workerCount workers ≤ 2 ^ 32 := Nat.max_le.mpr ⟨workers.toNat_lt.le, by decide⟩
  cases w with
  | bits32 =>
    have hlen : divCeil len per ≤ len := stripes_le hper (Nat.le_mul_of_pos_right len hper)
    exact (Nat.add_le_add_right hlen _).trans_lt (hspace rfl)
  | bits64 =>
    change _ < 2 ^ 64
    omega

/-- Whatever helpers there are and however the threads take turns, `stripe_over`
returns and has called `f` on disjoint stripes that make up the region. On 32 bits
the threads and the region share the address space. -/
theorem stripeOver_partition (w : PointerWidth) (len unit r : ℕ) (workers : UInt32)
    (spawns : Fin (workerCount workers - 1 + 1) → Bool) (hlen : len < 2 ^ w.bits)
    (hround : nextMultipleOf w len (max unit 1) = some r)
    (hspace : Addressable w len spawns) :
    (∀ calls, StripeOver w len workers unit spawns calls →
      Safe len unit (workerCount workers) calls ∧ Exact len calls) ∧
    (∃ calls, StripeOver w len workers unit spawns calls) ∧
    (∀ per, stripeLength w len workers unit = some per →
      ¬ (workerCount workers = 1 ∨ len ≤ per) → ∀ k s, Runs w len per spawns k s →
        Safe len unit (workerCount workers) s.calls ∧
        (∀ id i, s.runner id = .claimed i → i < divCeil len per →
          mulUsize w i per = some (i * per) ∧
            subUsize len (i * per) = some (len - i * per)) ∧
        (¬ Returned s → ∃ s', Step w len per spawns s s') ∧
        k ≤ 2 * (divCeil len per + members spawns) + workerCount workers + 1) := by
  obtain ⟨per, hper, hsuff⟩ := stripeLength_some workers hlen hround
  have hpos := workerCount_pos workers
  have hmulti : ¬ (workerCount workers = 1 ∨ len ≤ per) → 0 < len ∧ 0 < per := by
    intro h
    rw [not_or, not_le] at h
    have hcovers := hsuff.covers
    refine ⟨by omega, Nat.pos_of_ne_zero ?_⟩
    rintro rfl
    omega
  have hstart := work_start_le len per spawns
  refine ⟨?_, ?_, ?_⟩
  · intro calls hcalls
    cases hcalls with
    | single per' hper' h => exact ⟨single_safe hpos, single_exact⟩
    | striped per' hper' h k s run returned =>
      rw [hper, Option.some.injEq] at hper'
      subst hper'
      obtain ⟨hlen', hper'⟩ := hmulti h
      obtain ⟨⟨ran, hinv⟩, -⟩ := run.inv hper' hlen (counter_fits hper' hsuff.covers hspace)
      exact ⟨hinv.safe hper' hsuff, hinv.exact hper' hlen' returned⟩
  · by_cases h : workerCount workers = 1 ∨ len ≤ per
    · exact ⟨_, .single per hper h⟩
    · obtain ⟨hlen', hper'⟩ := hmulti h
      obtain ⟨k, s, run, returned⟩ :=
        runs_return hper' hlen (counter_fits hper' hsuff.covers hspace)
      exact ⟨_, .striped per hper h k s run returned⟩
  · intro per' hper' h k s run
    rw [hper, Option.some.injEq] at hper'
    subst hper'
    obtain ⟨hlen', hper'⟩ := hmulti h
    obtain ⟨⟨ran, hinv⟩, hwork⟩ := run.inv hper' hlen (counter_fits hper' hsuff.covers hspace)
    refine ⟨hinv.safe hper' hsuff, ?_, hinv.progress hper' hlen, by omega⟩
    intro id i _ hi
    have hoff := (lt_stripes hper' i).mp hi
    exact ⟨if_pos (by omega), if_pos hoff.le⟩

theorem stripeOver_partition_refused :
    (∃ calls, StripeOver .bits64 7 2 1 (fun _ => false) calls) ∧
      ∀ calls, StripeOver .bits64 7 2 1 (fun _ => false) calls → Exact 7 calls := by
  obtain ⟨hall, hreturns, -⟩ := stripeOver_partition .bits64 7 1 7 2 (fun _ => false) (by decide)
    (by decide) nofun
  exact ⟨hreturns, fun calls hcalls => (hall calls hcalls).2⟩

end Argon2Rust.Striping
