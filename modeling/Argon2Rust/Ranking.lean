import Mathlib.Tactic

set_option autoImplicit false

namespace Argon2Rust.Ranking

section Runs
variable {Choice State : Type} (step : Choice → State → Option State)

def run (schedule : List Choice) (s : State) : Option State :=
  schedule.foldlM (fun s choice => step choice s) s

/-- How many steps of a run are work. -/
def work (works : Choice → State → State → Bool) : List Choice → State → ℕ
  | [], _ => 0
  | choice :: schedule, s =>
    match step choice s with
    | none => 0
    | some s' => (works choice s s').toNat + work works schedule s'

theorem run_cons {choice : Choice} {schedule : List Choice} {s s' : State} :
    run step (choice :: schedule) s = some s' ↔
      ∃ t, step choice s = some t ∧ run step schedule t = some s' := by
  unfold run
  rw [List.foldlM_cons]
  exact Option.bind_eq_some_iff

theorem run_append {schedule schedule' : List Choice} {s t u : State}
    (h : run step schedule s = some t) (h' : run step schedule' t = some u) :
    run step (schedule ++ schedule') s = some u := by
  unfold run at h h' ⊢
  rw [List.foldlM_append, h]
  exact h'

end Runs

/-- A rank over the states of an invariant. -/
structure Rank {Choice State : Type} (step : Choice → State → Option State)
    (works : Choice → State → State → Bool) (Inv : State → Prop) where
  rank : State → ℕ
  inv : ∀ {choice s s'}, Inv s → step choice s = some s' → Inv s'
  falls : ∀ {choice s s'}, Inv s → step choice s = some s' →
    rank s' + (works choice s s').toNat ≤ rank s

section Bounds
variable {Choice State : Type} {step : Choice → State → Option State}
  {works : Choice → State → State → Bool} {Inv : State → Prop} (R : Rank step works Inv)
include R

theorem Rank.inv_run {schedule : List Choice} {s s' : State} (hs : Inv s)
    (hrun : run step schedule s = some s') : Inv s' := by
  induction schedule generalizing s with
  | nil =>
    cases hrun
    exact hs
  | cons choice schedule ih =>
    obtain ⟨t, ht, hrest⟩ := (run_cons step).mp hrun
    exact ih (R.inv hs ht) hrest

/-- No run does more work than the rank of its start. -/
theorem Rank.work_le {schedule : List Choice} {s s' : State} (hs : Inv s)
    (hrun : run step schedule s = some s') :
    R.rank s' + work step works schedule s ≤ R.rank s := by
  induction schedule generalizing s with
  | nil =>
    cases hrun
    exact le_rfl
  | cons choice schedule ih =>
    obtain ⟨t, ht, hrest⟩ := (run_cons step).mp hrun
    have hlater := ih (R.inv hs ht) hrest
    have hfirst := R.falls hs ht
    unfold work
    rw [ht]
    dsimp only
    omega

/-- If work is always within reach of what is not final, a final state is. -/
theorem Rank.finishes {Allowed : Choice → Prop} {Final : State → Prop}
    (hreach : ∀ s, Inv s → ¬ Final s → ∃ schedule s', (∀ choice ∈ schedule, Allowed choice) ∧
      run step schedule s = some s' ∧ R.rank s' < R.rank s) {s : State} (hs : Inv s) :
    ∃ schedule s', (∀ choice ∈ schedule, Allowed choice) ∧ run step schedule s = some s' ∧
      Final s' := by
  induction hn : R.rank s using Nat.strong_induction_on generalizing s with
  | _ n ih =>
    by_cases hfinal : Final s
    · exact ⟨[], s, nofun, rfl, hfinal⟩
    · obtain ⟨schedule, t, hallowed, hrun, hlt⟩ := hreach s hs hfinal
      obtain ⟨schedule', u, hallowed', hrun', hu⟩ :=
        ih (R.rank t) (hlt.trans_eq hn) (R.inv_run hs hrun) rfl
      refine ⟨schedule ++ schedule', u, fun choice hc => ?_, run_append step hrun hrun', hu⟩
      rcases List.mem_append.mp hc with hc | hc
      · exact hallowed choice hc
      · exact hallowed' choice hc

end Bounds

end Argon2Rust.Ranking
