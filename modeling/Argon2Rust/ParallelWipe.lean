import Argon2Rust.Striping

set_option autoImplicit false

/-!
# Wiping on several threads

`stripe_over` with `secure_wipe_raw` for every stripe. The bytes of a stripe are
written in any order and between the steps of the other threads. Only zeros are
written, each byte by one thread, and when the scope has joined the region is
zero and the rest of the memory is as it was.
-/
namespace Argon2Rust.ParallelWipe
open Parameters Tiling Tally StripePlan

abbrev Bytes := ℕ → UInt8

def zeroAt (memory : Bytes) (b : ℕ) : Bytes := Function.update memory b 0

def stripeBytes (p : Piece) : Finset ℕ := Finset.Ico p.1 (p.1 + p.2)

/-- The threads of `stripe_over`, what each call of `secure_wipe_raw` has still to write, and
the memory they share. -/
structure Wiping (helpers : ℕ) where
  pool : Striping.State helpers
  pending : Fin (helpers + 1) → Option (Finset ℕ)
  memory : Bytes

section Machine
variable (w : PointerWidth) (len per : ℕ) {helpers : ℕ} (spawns : Fin (helpers + 1) → Bool)

def Wiping.start (before : Bytes) : Wiping helpers :=
  ⟨Striping.start helpers, fun _ => none, before⟩

inductive Wiping.Step : Wiping helpers → Wiping helpers → Prop where
  | loop (s : Wiping helpers) (pool : Striping.State helpers)
      (h : Striping.Step w len per spawns s.pool pool) (hcalls : pool.calls = s.pool.calls) :
      Wiping.Step s { s with pool }
  | call (s : Wiping helpers) (id : Fin (helpers + 1)) (i : ℕ) (p : Piece)
      (h : s.pool.runner id = .claimed i) (hi : i < divCeil len per)
      (hp : stripe w len per i = some p) (hidle : s.pending id = none) :
      Wiping.Step s { s with pending := Function.update s.pending id (some (stripeBytes p)) }
  | store (s : Wiping helpers) (id : Fin (helpers + 1)) (rest : Finset ℕ) (b : ℕ)
      (h : s.pending id = some rest) (hb : b ∈ rest) :
      Wiping.Step s { s with
        pending := Function.update s.pending id (some (rest.erase b))
        memory := zeroAt s.memory b }
  | finish (s : Wiping helpers) (id : Fin (helpers + 1)) (i : ℕ) (p : Piece)
      (h : s.pool.runner id = .claimed i) (hi : i < divCeil len per)
      (hp : stripe w len per i = some p) (hdone : s.pending id = some ∅) :
      Wiping.Step s { s with
        pool := { s.pool with
          runner := Function.update s.pool.runner id .fetch
          calls := s.pool.calls ++ [p] }
        pending := Function.update s.pending id none }

inductive Wiping.Runs (before : Bytes) : ℕ → Wiping helpers → Prop where
  | start : Wiping.Runs before 0 (Wiping.start before)
  | step {k : ℕ} {s s' : Wiping helpers} (run : Wiping.Runs before k s)
      (h : Wiping.Step w len per spawns s s') : Wiping.Runs before (k + 1) s'

end Machine

section Invariant
variable {w : PointerWidth} {len per helpers : ℕ} {spawns : Fin (helpers + 1) → Bool}

/-- The stripes that are done, and the parts that are done of those in a thread's hands,
are zero. -/
structure Kept (len per : ℕ) (before : Bytes) (s : Wiping helpers) : Prop where
  calling : ∀ id rest, s.pending id = some rest → ∃ i, s.pool.runner id = .claimed i ∧
    i < divCeil len per ∧ rest ⊆ stripeBytes (piece len per i) ∧
    ∀ b ∈ stripeBytes (piece len per i), b ∉ rest → s.memory b = 0
  wiped : ∀ p ∈ s.pool.calls, ∀ b ∈ stripeBytes p, s.memory b = 0
  behind : ∀ b, len ≤ b → s.memory b = before b

theorem kept_start (before : Bytes) :
    Kept len per before (Wiping.start before : Wiping helpers) where
  calling _ _ h := by cases h
  wiped _ h := by cases h
  behind _ _ := rfl

theorem zeroAt_of_zero {memory : Bytes} {b : ℕ} (h : memory b = 0) (b' : ℕ) :
    zeroAt memory b' b = 0 := by
  unfold zeroAt
  by_cases hb : b = b'
  · rw [hb, Function.update_self]
  · rw [Function.update_of_ne hb, h]

theorem pending_cases {pending : Fin (helpers + 1) → Option (Finset ℕ)} {id j : Fin (helpers + 1)}
    {x : Option (Finset ℕ)} {rest : Finset ℕ} (h : Function.update pending id x j = some rest) :
    j = id ∧ x = some rest ∨ j ≠ id ∧ pending j = some rest := by
  by_cases hj : j = id
  · subst hj
    rw [Function.update_self] at h
    exact Or.inl ⟨rfl, h⟩
  · rw [Function.update_of_ne hj] at h
    exact Or.inr ⟨hj, h⟩

theorem loop_runner {s s' : Striping.State helpers} {ran : List ℕ}
    (inv : Striping.Inv len per spawns ran s) (h : Striping.Step w len per spawns s s')
    (hcalls : s'.calls = s.calls) {id : Fin (helpers + 1)} {i : ℕ}
    (hid : s.runner id = .claimed i) (hi : i < divCeil len per) : s'.runner id = .claimed i := by
  have hkeep : ∀ (j : Fin (helpers + 1)) (r : Striping.Runner), s.runner j ≠ .claimed i →
      Function.update s.runner j r id = .claimed i := by
    intro j r hj
    have hne : id ≠ j := by
      rintro rfl
      exact hj hid
    rw [Function.update_of_ne hne, hid]
  cases h with
  | spawn j hj =>
    refine hkeep j _ ?_
    rw [inv.fresh j hj.ge]
    exact nofun
  | enter hasked habsent =>
    refine hkeep 0 _ ?_
    rw [habsent]
    exact nofun
  | fetch j hj =>
    refine hkeep j _ ?_
    rw [hj]
    exact nofun
  | leave j i' hj hi' =>
    refine hkeep j _ ?_
    rw [hj]
    intro heq
    rw [Striping.Runner.claimed.injEq] at heq
    omega
  | call j i' p hj hi' hp =>
    have hlength := congrArg List.length hcalls
    rw [List.length_append, List.length_singleton] at hlength
    omega

section Steps
variable (hper : 0 < per) (hlen : len < 2 ^ w.bits) {ran : List ℕ} {before : Bytes}
  {s s' : Wiping helpers}
include hper hlen

theorem Kept.step (h : Kept len per before s) (inv : Striping.Inv len per spawns ran s.pool)
    (hstep : Wiping.Step w len per spawns s s') : Kept len per before s' := by
  cases hstep with
  | loop pool hloop hcalls =>
    refine ⟨?_, ?_, h.behind⟩
    · intro id rest hrest
      obtain ⟨i, hid, hi, hsub, hzero⟩ := h.calling id rest hrest
      exact ⟨i, loop_runner inv hloop hcalls hid hi, hi, hsub, hzero⟩
    · intro p hp
      change p ∈ pool.calls at hp
      rw [hcalls] at hp
      exact h.wiped p hp
  | call id i p hid hi hp hidle =>
    rw [stripe_some hper hlen hi, Option.some.injEq] at hp
    refine ⟨?_, h.wiped, h.behind⟩
    intro j rest hrest
    obtain ⟨rfl, heq⟩ | ⟨-, hother⟩ := pending_cases hrest
    · rw [← Option.some.inj heq, ← hp]
      exact ⟨i, hid, hi, Finset.Subset.refl _, fun b hb hnot => absurd hb hnot⟩
    · exact h.calling j rest hother
  | store id rest b hid hb =>
    refine ⟨?_, fun p hp c hc => zeroAt_of_zero (h.wiped p hp c hc) b, ?_⟩
    · intro j rest' hrest
      obtain ⟨rfl, heq⟩ | ⟨-, hother⟩ := pending_cases hrest
      · obtain ⟨i, hj, hi, hsub, hzero⟩ := h.calling j rest hid
        obtain rfl := Option.some.inj heq
        refine ⟨i, hj, hi, (Finset.erase_subset b rest).trans hsub, ?_⟩
        intro c hc hnot
        by_cases hcb : c = b
        · rw [hcb]
          exact Function.update_self b 0 s.memory
        · refine zeroAt_of_zero (hzero c hc fun hmem => ?_) b
          exact hnot (Finset.mem_erase.mpr ⟨hcb, hmem⟩)
      · obtain ⟨i, hj, hi, hsub, hzero⟩ := h.calling j rest' hother
        exact ⟨i, hj, hi, hsub, fun c hc hnot => zeroAt_of_zero (hzero c hc hnot) b⟩
    · intro c hc
      obtain ⟨i, -, hi, hsub, -⟩ := h.calling id rest hid
      have hend := piece_end_le hper hi
      have hin := (Finset.mem_Ico.mp (hsub hb)).2
      have hne : c ≠ b := by omega
      exact (Function.update_of_ne hne 0 s.memory).trans (h.behind c hc)
  | finish id i p hid hi hp hdone =>
    rw [stripe_some hper hlen hi, Option.some.injEq] at hp
    refine ⟨?_, ?_, h.behind⟩
    · intro j rest hrest
      obtain ⟨-, heq⟩ | ⟨hne, hother⟩ := pending_cases hrest
      · cases heq
      · obtain ⟨i', hj, hi', hrun⟩ := h.calling j rest hother
        exact ⟨i', (Function.update_of_ne hne _ _).trans hj, hi', hrun⟩
    · intro q hq b hb
      rcases List.mem_append.mp hq with hq | hq
      · exact h.wiped q hq b hb
      · obtain ⟨i', hi', -, -, hzero⟩ := h.calling id ∅ hdone
        rw [hid, Striping.Runner.claimed.injEq] at hi'
        rw [List.mem_singleton.mp hq, ← hp, hi'] at hb
        exact hzero b hb (Finset.notMem_empty b)

end Steps

def todo (len : ℕ) : Option (Finset ℕ) → ℕ
  | none => len + 1
  | some rest => rest.card

/-- What is left to do; every step makes it smaller. -/
def toil (len per : ℕ) (spawns : Fin (helpers + 1) → Bool) (s : Wiping helpers) : ℕ :=
  (len + 2) * Striping.work len per spawns s.pool + ∑ id, todo len (s.pending id)

theorem sum_todo_update (pending : Fin (helpers + 1) → Option (Finset ℕ)) (id : Fin (helpers + 1))
    (x : Option (Finset ℕ)) :
    ∑ j, todo len (Function.update pending id x j) + todo len (pending id) =
      ∑ j, todo len (pending j) + todo len x := by
  have hrest : ∑ j ∈ Finset.univ.erase id, todo len (Function.update pending id x j) =
      ∑ j ∈ Finset.univ.erase id, todo len (pending j) := by
    refine Finset.sum_congr rfl fun j hj => ?_
    rw [Function.update_of_ne (Finset.ne_of_mem_erase hj)]
  rw [← Finset.add_sum_erase _ _ (Finset.mem_univ id), hrest, Function.update_self,
    ← Finset.add_sum_erase _ (fun j => todo len (pending j)) (Finset.mem_univ id)]
  omega

theorem toil_lt {m n x y : ℕ} (h : m < n) (hxy : x ≤ y + len + 1) :
    (len + 2) * m + x < (len + 2) * n + y := by
  have hle := Nat.mul_le_mul_left (len + 2) (Nat.succ_le_of_lt h)
  rw [Nat.mul_succ] at hle
  omega

section Progress
variable (hper : 0 < per) (hlen : len < 2 ^ w.bits)
  (hfits : divCeil len per + Striping.members spawns < 2 ^ w.bits) {before : Bytes}
  {s s' : Wiping helpers}
include hper hlen hfits

theorem toil_step {ran : List ℕ} (inv : Striping.Inv len per spawns ran s.pool)
    (hstep : Wiping.Step w len per spawns s s') :
    (∃ ran', Striping.Inv len per spawns ran' s'.pool) ∧
      toil len per spawns s' < toil len per spawns s := by
  cases hstep with
  | loop pool hloop =>
    obtain ⟨hinv, hless⟩ := inv.step hper hlen hfits hloop
    refine ⟨hinv, toil_lt hless ?_⟩
    change ∑ id, todo len (s.pending id) ≤ _
    omega
  | call id i p hid hi hp hidle =>
    rw [stripe_some hper hlen hi, Option.some.injEq] at hp
    have hsum := @sum_todo_update len helpers s.pending id (some (stripeBytes p))
    have hend := piece_end_le hper hi
    rw [hp] at hend
    have hcard : (stripeBytes p).card = p.2 := by
      unfold stripeBytes
      rw [Nat.card_Ico, Nat.add_sub_cancel_left]
    rw [hidle, todo, todo, hcard] at hsum
    refine ⟨⟨ran, inv⟩, Nat.add_lt_add_left ?_ _⟩
    dsimp only
    omega
  | store id rest b hid hb =>
    have hsum := @sum_todo_update len helpers s.pending id (some (rest.erase b))
    have hcard := Finset.card_erase_lt_of_mem hb
    rw [hid, todo, todo] at hsum
    refine ⟨⟨ran, inv⟩, Nat.add_lt_add_left ?_ _⟩
    dsimp only
    omega
  | finish id i p hid hi hp hdone =>
    obtain ⟨hinv, hless⟩ := inv.step hper hlen hfits (.call s.pool id i p hid hi hp)
    have hsum := @sum_todo_update len helpers s.pending id none
    rw [hdone, todo, todo, Finset.card_empty] at hsum
    exact ⟨hinv, toil_lt hless (by dsimp only; omega)⟩

theorem Wiping.Runs.inv {k : ℕ} (run : Wiping.Runs w len per spawns before k s) :
    (∃ ran, Striping.Inv len per spawns ran s.pool) ∧ Kept len per before s ∧
      k + toil len per spawns s ≤ toil len per spawns (Wiping.start before : Wiping helpers) := by
  induction run with
  | start => exact ⟨⟨[], Striping.inv_start⟩, kept_start before, by omega⟩
  | step _ hstep ih =>
    obtain ⟨⟨ran, hinv⟩, hkept, htoil⟩ := ih
    obtain ⟨hinv', hless⟩ := toil_step hper hlen hfits hinv hstep
    exact ⟨hinv', hkept.step hper hlen hinv hstep, by omega⟩

omit hfits in
theorem wiping_progress {ran : List ℕ} (inv : Striping.Inv len per spawns ran s.pool)
    (hnot : ¬ Striping.Returned s.pool) : ∃ s', Wiping.Step w len per spawns s s' := by
  obtain ⟨pool, hstep⟩ := inv.progress hper hlen hnot
  by_cases hcalls : pool.calls = s.pool.calls
  · exact ⟨_, .loop s pool hstep hcalls⟩
  · cases hstep with
    | call id i p hid hi hp =>
      cases hpending : s.pending id with
      | none => exact ⟨_, .call s id i p hid hi hp hpending⟩
      | some rest =>
        rcases rest.eq_empty_or_nonempty with rfl | ⟨b, hb⟩
        · exact ⟨_, .finish s id i p hid hi hp hpending⟩
        · exact ⟨_, .store s id rest b hpending hb⟩
    | _ => exact absurd rfl hcalls

theorem wiping_returns (before : Bytes) :
    ∃ k s, Wiping.Runs w len per spawns before k s ∧ Striping.Returned s.pool := by
  by_contra hnone
  have hall : ∀ k, ∃ s, Wiping.Runs w len per spawns before k s := by
    intro k
    induction k with
    | zero => exact ⟨_, .start⟩
    | succ k ih =>
      obtain ⟨s, run⟩ := ih
      obtain ⟨⟨ran, hinv⟩, -⟩ := run.inv hper hlen hfits
      obtain ⟨s', hstep⟩ := wiping_progress hper hlen hinv fun returned =>
        hnone ⟨k, s, run, returned⟩
      exact ⟨s', .step run hstep⟩
  obtain ⟨s, run⟩ := hall (toil len per spawns (Wiping.start before : Wiping helpers) + 1)
  have hbound := (run.inv hper hlen hfits).2.2
  omega

end Progress

section Races
variable {ran : List ℕ} {before : Bytes} {s : Wiping helpers}

theorem holder_unique {pool : Striping.State helpers} (inv : Striping.Inv len per spawns ran pool)
    {id id' : Fin (helpers + 1)} {i : ℕ} (hid : pool.runner id = .claimed i)
    (hid' : pool.runner id' = .claimed i) (hi : i < divCeil len per) : id = id' := by
  by_contra hne
  have honce := inv.once i hi
  have hholds := tally_update (Striping.holds i) pool.runner id .absent
  rw [hid, Striping.holds_claimed, Striping.holds_absent, decide_eq_true rfl, Bool.toNat_true,
    Bool.toNat_false] at hholds
  have hnone := of_tally_eq_zero (Striping.holds i) (Function.update pool.runner id .absent)
    (by split_ifs at honce <;> omega) id'
  rw [Function.update_of_ne (Ne.symm hne), hid', Striping.holds_claimed, decide_eq_true rfl] at hnone
  cases hnone

theorem pending_disjoint (inv : Striping.Inv len per spawns ran s.pool) (h : Kept len per before s)
    {id id' : Fin (helpers + 1)} (hne : id ≠ id') {rest rest' : Finset ℕ}
    (hrest : s.pending id = some rest) (hrest' : s.pending id' = some rest') :
    Disjoint rest rest' := by
  obtain ⟨i, hid, hi, hsub, -⟩ := h.calling id rest hrest
  obtain ⟨i', hid', -, hsub', -⟩ := h.calling id' rest' hrest'
  have hstripes : i ≠ i' := by
    rintro rfl
    exact hne (holder_unique inv hid hid' hi)
  rw [Finset.disjoint_left]
  intro b hb hb'
  have hin := Finset.mem_Ico.mp (hsub hb)
  have hin' := Finset.mem_Ico.mp (hsub' hb')
  rcases @piece_disjoint len per i i' hstripes with h | h <;> omega

theorem pending_lt (hper : 0 < per) (h : Kept len per before s) {id : Fin (helpers + 1)}
    {rest : Finset ℕ} (hrest : s.pending id = some rest) {b : ℕ} (hb : b ∈ rest) : b < len := by
  obtain ⟨i, -, hi, hsub, -⟩ := h.calling id rest hrest
  have hend := piece_end_le hper hi
  have hin := (Finset.mem_Ico.mp (hsub hb)).2
  omega

/-- Once the scope has joined, the region is zero and nothing else has changed. -/
theorem Kept.returned (h : Kept len per before s) (inv : Striping.Inv len per spawns ran s.pool)
    (hper : 0 < per) (hlen : 0 < len) (returned : Striping.Returned s.pool) :
    s.memory = fun b => if b < len then 0 else before b := by
  funext b
  by_cases hb : b < len
  · have hexact := inv.exact hper hlen returned b
    rw [if_pos hb] at hexact
    have hpos : 0 < s.pool.calls.countP (covers b) := by omega
    obtain ⟨p, hp, hcovers⟩ := List.countP_pos_iff.mp hpos
    rw [if_pos hb]
    exact h.wiped p hp b (Finset.mem_Ico.mpr (of_decide_eq_true hcovers))
  · rw [if_neg hb]
    exact h.behind b (Nat.le_of_not_lt hb)

end Races

end Invariant

def wipeInOrder (order : List ℕ) (memory : Bytes) : Bytes := order.foldl zeroAt memory

theorem wipeInOrder_eq (order : List ℕ) (memory : Bytes) (b : ℕ) :
    wipeInOrder order memory b = if b ∈ order then 0 else memory b := by
  induction order generalizing memory with
  | nil => rfl
  | cons b' order ih =>
    change wipeInOrder order (zeroAt memory b') b = _
    rw [ih]
    by_cases hb : b ∈ order
    · rw [if_pos hb, if_pos (List.mem_cons_of_mem b' hb)]
    · rw [if_neg hb]
      unfold zeroAt
      by_cases heq : b = b'
      · rw [heq, Function.update_self, if_pos List.mem_cons_self]
      · rw [Function.update_of_ne heq, if_neg]
        rw [List.mem_cons, not_or]
        exact ⟨heq, hb⟩

/-- What a wipe finds: whether the crate has its `parallel` feature, the workers of the arena, and
which threads the system starts. -/
structure Threads where
  parallel : Bool
  workers : UInt32
  spawns : ℕ → Bool

def Threads.team (t : Threads) (workers : UInt32) : Fin (workerCount workers - 1 + 1) → Bool :=
  fun id => t.spawns id.val

inductive Wiped (w : PointerWidth) (t : Threads) (len : ℕ) (workers : UInt32) (unit : ℕ)
    (before : Bytes) : Bytes → Prop where
  | alone (order : List ℕ) (horder : order.Perm (List.range len))
      (h : t.parallel = true → ∃ per, stripeLength w len workers unit = some per ∧
        (workerCount workers = 1 ∨ len ≤ per)) :
      Wiped w t len workers unit before (wipeInOrder order before)
  | striped (parallel : t.parallel = true) (per : ℕ)
      (hper : stripeLength w len workers unit = some per)
      (h : ¬ (workerCount workers = 1 ∨ len ≤ per)) (k : ℕ)
      (s : Wiping (workerCount workers - 1))
      (run : Wiping.Runs w len per (t.team workers) before k s)
      (returned : Striping.Returned s.pool) : Wiped w t len workers unit before s.memory

section Regions
variable {w : PointerWidth} {t : Threads} {len unit r : ℕ} {workers : UInt32}

theorem striped_pos {per : ℕ} (hsuff : Suffices w len (workerCount workers) unit per)
    (h : ¬ (workerCount workers = 1 ∨ len ≤ per)) : 0 < len ∧ 0 < per := by
  have hcovers := hsuff.covers
  rw [not_or, not_le] at h
  refine ⟨by omega, Nat.pos_of_ne_zero ?_⟩
  rintro rfl
  omega

/-- Every finished wipe has zeroed the region and nothing else, and there is one. -/
theorem wiped_iff (hlen : len < 2 ^ w.bits) (hround : nextMultipleOf w len (max unit 1) = some r)
    (hspace : Striping.Addressable w len (t.team workers)) (before after : Bytes) :
    Wiped w t len workers unit before after ↔
      after = fun b => if b < len then 0 else before b := by
  obtain ⟨per, hper, hsuff⟩ := stripeLength_some workers hlen hround
  constructor
  · intro hwiped
    cases hwiped with
    | alone order horder h =>
      funext b
      rw [wipeInOrder_eq]
      simp only [horder.mem_iff, List.mem_range]
    | striped parallel per' hper' h k s run returned =>
      rw [hper, Option.some.injEq] at hper'
      subst hper'
      obtain ⟨hlen', hpos⟩ := striped_pos hsuff h
      have hfits := Striping.counter_fits hpos hsuff.covers hspace
      obtain ⟨⟨ran, inv⟩, hkept, -⟩ := run.inv hpos hlen hfits
      exact hkept.returned inv hpos hlen' returned
  · rintro rfl
    by_cases h : t.parallel = true ∧ ¬ (workerCount workers = 1 ∨ len ≤ per)
    · obtain ⟨parallel, h⟩ := h
      obtain ⟨hlen', hpos⟩ := striped_pos hsuff h
      have hfits := Striping.counter_fits hpos hsuff.covers hspace
      obtain ⟨k, s, run, returned⟩ := wiping_returns hpos hlen hfits before
      obtain ⟨⟨ran, inv⟩, hkept, -⟩ := run.inv hpos hlen hfits
      rw [← hkept.returned inv hpos hlen' returned]
      exact .striped parallel per hper h k s run returned
    · have halone : Wiped w t len workers unit before (wipeInOrder (List.range len) before) :=
        .alone (List.range len) (List.Perm.refl _)
          fun parallel => ⟨per, hper, by_contra fun hnot => h ⟨parallel, hnot⟩⟩
      have heq : wipeInOrder (List.range len) before = fun b => if b < len then 0 else before b := by
        funext b
        rw [wipeInOrder_eq]
        simp only [List.mem_range]
      rw [← heq]
      exact halone

end Regions

end Argon2Rust.ParallelWipe
