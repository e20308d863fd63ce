import Mathlib.Data.Finset.Card
import Mathlib.Data.Fintype.Card
import Mathlib.Logic.Function.Basic
import Mathlib.Order.BoundedOrder.Basic

set_option autoImplicit false

/-!
# A relaxed cell that every thread may fill in

A value that is costly to compute and cheap to keep, behind one atomic cell whose
loads and stores are all relaxed: a thread that finds nothing computes the value
itself and stores it. A relaxed load may return any store that is not older, in
the cell's modification order, than one its thread knows of, so threads can miss
each other's stores for as long as the memory likes.
-/
namespace Argon2Rust.RelaxedCell

/-- How values are kept in the cell. The initial contents stand for no value. -/
structure Encoding (Byte Value : Type) where
  initial : Byte
  encode : Value → Byte
  decode : Byte → Option Value
  decode_initial : decode initial = none
  decode_encode : ∀ v, decode (encode v) = some v

inductive Phase (Value : Type) where
  | idle
  | missed
  | computed (v : Value)

structure State (Thread Time Byte Value : Type) where
  /-- The stores, each with its place in the modification order. -/
  stores : List (Time × Byte)
  /-- The latest store each thread knows of. -/
  view : Thread → Time
  phase : Thread → Phase Value
  computed : List (Thread × Value)
  returned : List (Thread × Value)

section Lookups
variable {Thread Time Byte Value : Type} [DecidableEq Thread] [LinearOrder Time] [OrderBot Time]

def State.start (enc : Encoding Byte Value) : State Thread Time Byte Value :=
  ⟨[(⊥, enc.initial)], fun _ => ⊥, fun _ => .idle, [], []⟩

/-- The accesses of the lookup; a thread may also learn of a store in some other way. -/
inductive Step (enc : Encoding Byte Value) (computes : Value → Prop) :
    State Thread Time Byte Value → State Thread Time Byte Value → Prop
  | hit {s} (i : Thread) {t : Time} {b : Byte} {v : Value} (idle : s.phase i = .idle)
      (hload : (t, b) ∈ s.stores) (hview : s.view i ≤ t) (hb : enc.decode b = some v) :
      Step enc computes s
        { s with view := Function.update s.view i t, returned := (i, v) :: s.returned }
  | miss {s} (i : Thread) {t : Time} {b : Byte} (idle : s.phase i = .idle)
      (hload : (t, b) ∈ s.stores) (hview : s.view i ≤ t) (hb : enc.decode b = none) :
      Step enc computes s
        { s with view := Function.update s.view i t
                 phase := Function.update s.phase i .missed }
  | compute {s} (i : Thread) {v : Value} (missed : s.phase i = .missed) (hv : computes v) :
      Step enc computes s
        { s with phase := Function.update s.phase i (.computed v)
                 computed := (i, v) :: s.computed }
  | store {s} (i : Thread) {t : Time} {v : Value} (hphase : s.phase i = .computed v)
      (hview : s.view i < t) (hfresh : ∀ m ∈ s.stores, m.1 ≠ t) :
      Step enc computes s
        { s with stores := (t, enc.encode v) :: s.stores
                 view := Function.update s.view i t
                 phase := Function.update s.phase i .idle
                 returned := (i, v) :: s.returned }
  | learn {s} (i : Thread) {t : Time} {b : Byte} (hstore : (t, b) ∈ s.stores)
      (hview : s.view i ≤ t) :
      Step enc computes s { s with view := Function.update s.view i t }

inductive Reachable (enc : Encoding Byte Value) (computes : Value → Prop) :
    State Thread Time Byte Value → Prop
  | start : Reachable enc computes (State.start enc)
  | step {s s'} : Reachable enc computes s → Step enc computes s s' → Reachable enc computes s'

/-- The cell holds what threads computed, and a thread that computed has not forgotten it. -/
structure Sound (enc : Encoding Byte Value) (computes : Value → Prop)
    (s : State Thread Time Byte Value) : Prop where
  stores : ∀ t b, (t, b) ∈ s.stores →
    (t = ⊥ ∧ b = enc.initial) ∨ (⊥ < t ∧ ∃ i v, (i, v) ∈ s.computed ∧ b = enc.encode v)
  computes : ∀ i v, (i, v) ∈ s.computed → computes v
  returned : ∀ i v, (i, v) ∈ s.returned → ∃ j, (j, v) ∈ s.computed
  pending : ∀ i v, s.phase i = .computed v → (i, v) ∈ s.computed
  remembers : ∀ i v, (i, v) ∈ s.computed → (∃ u, s.phase i = .computed u) ∨ ⊥ < s.view i
  missed : ∀ i, s.phase i = .missed → ∀ v, (i, v) ∉ s.computed
  once : (s.computed.map Prod.fst).Nodup

variable {enc : Encoding Byte Value} {computes : Value → Prop} {s s' : State Thread Time Byte Value}

omit [DecidableEq Thread] in
theorem Sound.start : Sound enc computes (State.start enc : State Thread Time Byte Value) where
  stores t b h := by
    cases List.mem_singleton.mp h
    exact Or.inl ⟨rfl, rfl⟩
  computes := nofun
  returned := nofun
  pending := nofun
  remembers := nofun
  missed := nofun
  once := List.nodup_nil

omit [DecidableEq Thread] in
theorem Sound.initial (h : Sound enc computes s) {t : Time} {b : Byte} (hmem : (t, b) ∈ s.stores)
    (hb : enc.decode b = none) : t = ⊥ := by
  rcases h.stores t b hmem with ⟨ht, -⟩ | ⟨-, i, v, -, rfl⟩
  · exact ht
  · exact absurd ((enc.decode_encode v).symm.trans hb) nofun

omit [DecidableEq Thread] in
theorem Sound.origin (h : Sound enc computes s) {t : Time} {b : Byte} {v : Value}
    (hmem : (t, b) ∈ s.stores) (hb : enc.decode b = some v) : ⊥ < t ∧ ∃ i, (i, v) ∈ s.computed := by
  rcases h.stores t b hmem with ⟨-, rfl⟩ | ⟨ht, i, u, hu, rfl⟩
  · exact absurd (enc.decode_initial.symm.trans hb) nofun
  · cases (enc.decode_encode u).symm.trans hb
    exact ⟨ht, i, hu⟩

omit [OrderBot Time] in
theorem view_le {i : Thread} {t : Time} (hview : s.view i ≤ t) (j : Thread) :
    s.view j ≤ Function.update s.view i t j := by
  by_cases hj : j = i
  · rw [hj, Function.update_self]
    exact hview
  · rw [Function.update_of_ne hj]

theorem Sound.step (h : Sound enc computes s) (hstep : Step enc computes s s') :
    Sound enc computes s' := by
  cases hstep with
  | @hit i t b v idle hload hview hb =>
    refine ⟨h.stores, h.computes, ?_, h.pending, ?_, h.missed, h.once⟩
    · intro j u hu
      rcases List.mem_cons.mp hu with hnew | hold
      · cases hnew
        exact (h.origin hload hb).2
      · exact h.returned j u hold
    · intro j u hu
      exact (h.remembers j u hu).imp_right fun hlt => hlt.trans_le (view_le hview j)
  | @miss i t b idle hload hview hb =>
    have hbot : t = ⊥ := h.initial hload hb
    have hnone : ∀ v, (i, v) ∉ s.computed := by
      intro v hv
      rcases h.remembers i v hv with ⟨u, hu⟩ | hlt
      · exact absurd (idle.symm.trans hu) nofun
      · exact absurd (hlt.trans_le (hview.trans_eq hbot)) (lt_irrefl _)
    have hother : ∀ j v, (j, v) ∈ s.computed → j ≠ i := by
      rintro j v hv rfl
      exact hnone v hv
    refine ⟨h.stores, h.computes, h.returned, ?_, ?_, ?_, h.once⟩
    · intro j v hj
      change Function.update s.phase i _ j = _ at hj
      by_cases hi : j = i
      · subst hi
        rw [Function.update_self] at hj
        cases hj
      · rw [Function.update_of_ne hi] at hj
        exact h.pending j v hj
    · intro j v hv
      rcases h.remembers j v hv with ⟨u, hu⟩ | hlt
      · exact Or.inl ⟨u, (Function.update_of_ne (hother j v hv) _ _).trans hu⟩
      · exact Or.inr (hlt.trans_le (view_le hview j))
    · intro j hj v hv
      change Function.update s.phase i _ j = _ at hj
      rw [Function.update_of_ne (hother j v hv)] at hj
      exact h.missed j hj v hv
  | @compute i v missed hcomputes =>
    have hfresh : i ∉ s.computed.map Prod.fst := by
      intro hmem
      obtain ⟨⟨j, u⟩, hu, rfl⟩ := List.mem_map.mp hmem
      exact h.missed j missed u hu
    refine ⟨?_, ?_, ?_, ?_, ?_, ?_, List.nodup_cons.mpr ⟨hfresh, h.once⟩⟩
    · intro t b hmem
      exact (h.stores t b hmem).imp_right fun ⟨ht, j, u, hu, hb⟩ =>
        ⟨ht, j, u, List.mem_cons_of_mem _ hu, hb⟩
    · intro j u hu
      rcases List.mem_cons.mp hu with hnew | hold
      · cases hnew
        exact hcomputes
      · exact h.computes j u hold
    · intro j u hu
      exact (h.returned j u hu).imp fun _ hk => List.mem_cons_of_mem _ hk
    · intro j u hj
      change Function.update s.phase i _ j = _ at hj
      by_cases hi : j = i
      · subst hi
        rw [Function.update_self] at hj
        cases hj
        exact List.mem_cons_self
      · rw [Function.update_of_ne hi] at hj
        exact List.mem_cons_of_mem _ (h.pending j u hj)
    · intro j u hu
      by_cases hi : j = i
      · subst hi
        exact Or.inl ⟨v, Function.update_self _ _ _⟩
      · rcases List.mem_cons.mp hu with hnew | hold
        · cases hnew
          exact absurd rfl hi
        · exact (h.remembers j u hold).imp_left fun ⟨w, hw⟩ =>
            ⟨w, (Function.update_of_ne hi _ _).trans hw⟩
    · intro j hj u hu
      change Function.update s.phase i _ j = _ at hj
      by_cases hi : j = i
      · subst hi
        rw [Function.update_self] at hj
        cases hj
      · rw [Function.update_of_ne hi] at hj
        rcases List.mem_cons.mp hu with hnew | hold
        · cases hnew
          exact hi rfl
        · exact h.missed j hj u hold
  | @store i t v hphase hview hfresh =>
    have hmine := h.pending i v hphase
    have hpos : ⊥ < t := bot_le.trans_lt hview
    refine ⟨?_, h.computes, ?_, ?_, ?_, ?_, h.once⟩
    · intro t' b hmem
      rcases List.mem_cons.mp hmem with hnew | hold
      · cases hnew
        exact Or.inr ⟨hpos, i, v, hmine, rfl⟩
      · exact h.stores t' b hold
    · intro j u hu
      rcases List.mem_cons.mp hu with hnew | hold
      · cases hnew
        exact ⟨i, hmine⟩
      · exact h.returned j u hold
    · intro j u hj
      change Function.update s.phase i _ j = _ at hj
      by_cases hi : j = i
      · subst hi
        rw [Function.update_self] at hj
        cases hj
      · rw [Function.update_of_ne hi] at hj
        exact h.pending j u hj
    · intro j u hu
      by_cases hi : j = i
      · subst hi
        refine Or.inr ?_
        change ⊥ < Function.update s.view j t j
        rw [Function.update_self]
        exact hpos
      · rcases h.remembers j u hu with ⟨w, hw⟩ | hlt
        · exact Or.inl ⟨w, (Function.update_of_ne hi _ _).trans hw⟩
        · exact Or.inr (hlt.trans_le (view_le hview.le j))
    · intro j hj u hu
      change Function.update s.phase i _ j = _ at hj
      by_cases hi : j = i
      · subst hi
        rw [Function.update_self] at hj
        cases hj
      · rw [Function.update_of_ne hi] at hj
        exact h.missed j hj u hu
  | @learn i t b hstore hview =>
    exact ⟨h.stores, h.computes, h.returned, h.pending,
      fun j u hu => (h.remembers j u hu).imp_right fun hlt => hlt.trans_le (view_le hview j),
      h.missed, h.once⟩

theorem Reachable.sound (h : Reachable enc computes s) : Sound enc computes s := by
  induction h with
  | start => exact Sound.start
  | step _ hstep ih => exact ih.step hstep

/-- However stale the loads are, a lookup returns a value that some thread computed. -/
theorem Reachable.returned (h : Reachable enc computes s) {i : Thread} {v : Value}
    (hv : (i, v) ∈ s.returned) : computes v := by
  obtain ⟨j, hj⟩ := h.sound.returned i v hv
  exact h.sound.computes j v hj

/-- No thread computes twice, so there are at most as many computations as threads. -/
theorem Reachable.computations [Fintype Thread] (h : Reachable enc computes s) :
    (s.computed.map Prod.fst).Nodup ∧ s.computed.length ≤ Fintype.card Thread := by
  have honce := h.sound.once
  refine ⟨honce, ?_⟩
  rw [← List.length_map (f := Prod.fst)]
  exact honce.length_le_card

variable (enc computes) in
theorem reachable_first (i : Thread) {v : Value} (hv : computes v) {t : Time} (ht : ⊥ < t) :
    ∃ s : State Thread Time Byte Value, Reachable enc computes s ∧ (i, v) ∈ s.returned := by
  have hstart : Reachable enc computes (State.start enc : State Thread Time Byte Value) := .start
  have hmiss := hstart.step (.miss i rfl List.mem_cons_self le_rfl enc.decode_initial)
  have hcompute := hmiss.step (.compute i (Function.update_self _ _ _) hv)
  refine ⟨_, hcompute.step (.store i (t := t) (v := v) (Function.update_self _ _ _) ?_ ?_),
    List.mem_cons_self⟩
  · change Function.update (fun _ : Thread => (⊥ : Time)) i ⊥ i < t
    rw [Function.update_self]
    exact ht
  · intro m hm
    cases List.mem_singleton.mp hm
    exact ht.ne

end Lookups

end Argon2Rust.RelaxedCell
