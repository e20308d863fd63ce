import Argon2Rust.RegisterBlock

set_option autoImplicit false

namespace Argon2Rust.FusedBlock
open Bytes Compression Simd LaneRounds RoundCells RegisterBlock

/-- The state, `block_XY`, and the destination block. -/
@[ext] structure Working (n m : ℕ) where
  state : Registers n m
  blockXy : Registers n m
  next : Registers n m

section Groups
variable {n m G : ℕ}

def scatterAll (slots : Fin G → Octet (Fin m)) (values : Fin G → Octet (Register n))
    (s : Registers n m) : Registers n m :=
  Fin.foldl G (fun s j => scatter (slots j).get (values j).get s) s

def combine (f : Register n → Register n → Register n) (o o' : Octet (Register n)) :
    Octet (Register n) := Octet.ofSlots fun k => f (o.get k) (o'.get k)

def readAll (s : Registers n m) (slots : Fin G → Octet (Fin m)) (j : Fin G) : Octet (Register n) :=
  Octet.ofSlots (gather (slots j).get s)

variable (rounds : (Fin G → Octet (Register n)) → Fin G → Octet (Register n)) (carry : Bool)
  (slots : Fin G → Octet (Fin m))

/-- Column rounds with the prologue: `prev` is read only when the state is not carried. -/
def colGroup (prev ref : Registers n m) (withXor : Bool) (x : Working n m) : Working n m :=
  let loaded := fun j =>
    combine xorSi (readAll (if carry then x.state else prev) slots j) (readAll ref slots j)
  { x with
    blockXy := scatterAll slots
      (fun j => if withXor then combine xorSi (loaded j) (readAll x.next slots j) else loaded j)
      x.blockXy
    state := scatterAll slots (rounds loaded) x.state }

/-- Row rounds with the epilogue: the state is written back only when it is carried. -/
def rowGroup (x : Working n m) : Working n m :=
  let out := fun j =>
    combine xorSi (rounds (readAll x.state slots) j) (readAll x.blockXy slots j)
  { x with
    state := if carry then scatterAll slots out x.state else x.state
    next := scatterAll slots out x.next }

end Groups

/-- The rounds `G * i` to `G * i + G - 1` of a pass. -/
def member {G M : ℕ} (hGM : G * M = 8) (i : Fin M) (j : Fin G) : Fin 8 :=
  ⟨G * i.val + j.val, by
    have hi : G * (i.val + 1) ≤ G * M := Nat.mul_le_mul_left G i.isLt
    rw [Nat.mul_succ] at hi
    omega⟩

/-- How a pass is cut into groups, and what a group makes of the registers of its rounds. -/
structure Shape (n : ℕ) where
  rounds : ℕ
  groups : ℕ
  eight : rounds * groups = 8
  together : (Fin rounds → Octet (Register n)) → Fin rounds → Octet (Register n)
  carry : Bool

section Definitions
variable {n m : ℕ} (shape : Shape n) (columnSlots rowSlots : Fin 8 → Octet (Fin m))

/-- `fill_block`, with `uninit` for what `block_XY` holds before it is written. -/
def fillBlock (uninit state : Registers n m) (prevBlock refBlock nextBlock : Block)
    (withXor : Bool) : Registers n m × Block :=
  let x : Working n m := ⟨state, uninit, load nextBlock⟩
  let x := Fin.foldl shape.groups (fun x i => colGroup shape.together shape.carry
    (fun j => columnSlots (member shape.eight i j)) (load prevBlock) (load refBlock) withXor x) x
  let x := Fin.foldl shape.groups (fun x i => rowGroup shape.together shape.carry
    (fun j => rowSlots (member shape.eight i j)) x) x
  (x.state, store x.next)

end Definitions

/-- The eight rounds of a pass on `m` registers: every register is in one of them. -/
structure Tiles {m : ℕ} (slots : Fin 8 → Octet (Fin m)) : Prop where
  inj : ∀ i j k l, (slots i).get k = (slots j).get l → i = j ∧ k = l
  surj : ∀ r, ∃ i k, (slots i).get k = r

section Members
variable {G M : ℕ} (hGM : G * M = 8)

theorem member_inj (i i' : Fin M) (j j' : Fin G) (h : member hGM i j = member hGM i' j') :
    i = i' ∧ j = j' := by
  have hv : G * i.val + j.val = G * i'.val + j'.val := congrArg Fin.val h
  have hi : i.val = i'.val := by
    have hd := congrArg (· / G) hv
    simpa only [Nat.mul_add_div j.pos, Nat.div_eq_of_lt j.isLt, Nat.div_eq_of_lt j'.isLt,
      Nat.add_zero] using hd
  rw [hi] at hv
  exact ⟨Fin.ext hi, Fin.ext (Nat.add_left_cancel hv)⟩

theorem exists_member (q : Fin 8) : ∃ i j, member hGM i j = q := by
  have hG : 0 < G := Nat.pos_of_ne_zero fun h => by rw [h, Nat.zero_mul] at hGM; omega
  have hdiv : q.val / G < M := by
    rw [Nat.div_lt_iff_lt_mul hG, Nat.mul_comm, hGM]
    exact q.isLt
  exact ⟨⟨q.val / G, hdiv⟩, ⟨q.val % G, Nat.mod_lt _ hG⟩, Fin.ext (Nat.div_add_mod q.val G)⟩

end Members

section Scattered
variable {n m G : ℕ} {slots : Fin G → Octet (Fin m)}

theorem scatterAll_get
    (hinj : ∀ i j k l, (slots i).get k = (slots j).get l → i = j ∧ k = l)
    (values : Fin G → Octet (Register n)) (s : Registers n m) (j : Fin G) (k : Fin 8) :
    (scatterAll slots values s)[(slots j).get k] = (values j).get k :=
  foldl_groups (fun y r => y[r]) (fun j _ => (values j).get) (fun i j k l h => (hinj i j k l h).1)
    (fun y i k => scatter_get (fun _ _ h => (hinj i i _ _ h).2) _ y k)
    (fun y i r hr => scatter_frame _ _ y r hr) s j k

theorem scatterAll_frame (values : Fin G → Octet (Register n)) (s : Registers n m) (r : Fin m)
    (hr : ∀ j k, (slots j).get k ≠ r) : (scatterAll slots values s).get r = s.get r := by
  refine foldl_invariant _ (fun _ (y : Registers n m) => y.get r = s.get r) s rfl ?_
  intro j y hy
  exact (scatter_frame _ _ y r (hr j)).trans hy

theorem combine_readAll (s t : Registers n m) (slots : Fin G → Octet (Fin m)) (j : Fin G) :
    combine xorSi (readAll s slots j) (readAll t slots j) = readAll (xorRegisters s t) slots j := by
  unfold combine readAll
  rw [Octet.get_ofSlots, Octet.get_ofSlots]
  congr 1
  funext k
  exact (Vector.getElem_zipWith _).symm

theorem get_readAll (s : Registers n m) (slots : Fin G → Octet (Fin m)) (j : Fin G) (k : Fin 8) :
    (readAll s slots j).get k = s[(slots j).get k] := by
  unfold readAll
  rw [Octet.get_ofSlots]
  rfl

end Scattered

section Passes
variable {n m : ℕ} {shape : Shape n} {round : Octet (Register n) → Octet (Register n)}
  {slots : Fin 8 → Octet (Fin m)} (ht : Tiles slots)

def groupSlot (shape : Shape n) (slots : Fin 8 → Octet (Fin m)) (i : Fin shape.groups)
    (c : Fin shape.rounds × Fin 8) : Fin m := (slots (member shape.eight i c.1)).get c.2

include ht

theorem groupSlot_disjoint (i i' : Fin shape.groups) (c c' : Fin shape.rounds × Fin 8)
    (h : groupSlot shape slots i c = groupSlot shape slots i' c') : i = i' :=
  (member_inj shape.eight i i' c.1 c'.1 (ht.inj _ _ _ _ h).1).1

theorem exists_groupSlot (r : Fin m) : ∃ i c, groupSlot shape slots i c = r := by
  obtain ⟨q, k, rfl⟩ := ht.surj r
  obtain ⟨i, j, rfl⟩ := exists_member shape.eight q
  exact ⟨i, (j, k), rfl⟩

theorem scatter_group (i : Fin shape.groups) (values : Fin shape.rounds → Octet (Register n))
    (s : Registers n m) (c : Fin shape.rounds × Fin 8) :
    (scatterAll (fun j => slots (member shape.eight i j)) values s)[groupSlot shape slots i c] =
      (values c.1).get c.2 := by
  refine scatterAll_get (fun j j' k l h => ?_) values s c.1 c.2
  obtain ⟨hq, hk⟩ := ht.inj _ _ _ _ h
  exact ⟨(member_inj shape.eight i i j j' hq).2, hk⟩

theorem pass_group (src : Registers n m) (i : Fin shape.groups) (c : Fin shape.rounds × Fin 8) :
    (Fin.foldl 8 (fun s q => roundOn round (slots q) s) src)[groupSlot shape slots i c] =
      (round (readAll src (fun j => slots (member shape.eight i j)) c.1)).get c.2 :=
  foldl_scatter ht.inj (fun u => (round (Octet.ofSlots u)).get) src (member shape.eight i c.1) c.2

theorem registers_ext {s t : Registers n m}
    (h : ∀ i c, s[groupSlot shape slots i c] = t[groupSlot shape slots i c]) : s = t := by
  apply Vector.ext
  intro k hk
  obtain ⟨i, c, hr⟩ := @exists_groupSlot n m shape slots ht ⟨k, hk⟩
  have hget := h i c
  simp only [hr] at hget
  exact hget

omit ht in
theorem readAll_group {s t : Registers n m} (i : Fin shape.groups)
    (h : ∀ c, s[groupSlot shape slots i c] = t[groupSlot shape slots i c]) (j : Fin shape.rounds) :
    readAll s (fun j => slots (member shape.eight i j)) j =
      readAll t (fun j => slots (member shape.eight i j)) j := by
  unfold readAll
  congr 1
  funext k
  exact h (j, k)

theorem scatter_other {i i' : Fin shape.groups} (hi : i ≠ i')
    (values : Fin shape.rounds → Octet (Register n)) (s : Registers n m)
    (c : Fin shape.rounds × Fin 8) :
    (scatterAll (fun j => slots (member shape.eight i j)) values s)[groupSlot shape slots i' c] =
      s[groupSlot shape slots i' c] :=
  scatterAll_frame values s _ fun j k h => hi (groupSlot_disjoint ht i i' (j, k) c h)

variable (hround : ∀ os j, shape.together os j = round (os j))
include hround

theorem colGroups_eq (prev ref : Registers n m) (withXor : Bool) (x : Working n m) :
    let src := xorRegisters (if shape.carry then x.state else prev) ref
    Fin.foldl shape.groups (fun x i => colGroup shape.together shape.carry
        (fun j => slots (member shape.eight i j)) prev ref withXor x) x =
      ⟨Fin.foldl 8 (fun s q => roundOn round (slots q) s) src,
        if withXor then xorRegisters src x.next else src, x.next⟩ := by
  intro src
  have hall := foldl_invariant
    (fun x i => colGroup shape.together shape.carry
      (fun j => slots (member shape.eight i j)) prev ref withXor x)
    (fun t (y : Working n m) => y.next = x.next ∧
      (∀ i c, i.val < t →
        y.state[groupSlot shape slots i c] =
            (Fin.foldl 8 (fun s q => roundOn round (slots q) s) src)[groupSlot shape slots i c] ∧
          y.blockXy[groupSlot shape slots i c] =
            (if withXor then xorRegisters src x.next else src)[groupSlot shape slots i c]) ∧
      ∀ i c, t ≤ i.val → y.state[groupSlot shape slots i c] = x.state[groupSlot shape slots i c])
    x ⟨rfl, fun _ _ h => absurd h (Nat.not_lt_zero _), fun _ _ _ => rfl⟩ ?_
  · obtain ⟨hnext, hdone, -⟩ := hall
    refine Working.ext ?_ ?_ hnext
    · exact registers_ext ht fun i c => (hdone i c i.isLt).1
    · exact registers_ext ht fun i c => (hdone i c i.isLt).2
  rintro i y ⟨hnext, hdone, htodo⟩
  have hloaded : (fun j => combine xorSi
      (readAll (if shape.carry then y.state else prev) (fun j => slots (member shape.eight i j)) j)
      (readAll ref (fun j => slots (member shape.eight i j)) j)) =
        readAll src (fun j => slots (member shape.eight i j)) := by
    funext j
    rw [← combine_readAll]
    congr 1
    cases shape.carry with
    | false => rfl
    | true => exact readAll_group i (fun c => htodo i c le_rfl) j
  refine ⟨hnext, fun i' c hlt => ?_, fun i' c hle => ?_⟩
  · unfold colGroup
    dsimp only
    rw [hloaded]
    by_cases h : i = i'
    · subst h
      have hmember := congrFun hloaded c.1
      rw [scatter_group ht, scatter_group ht, pass_group ht, hround, hnext, hmember]
      refine ⟨rfl, ?_⟩
      cases withXor with
      | false =>
        rw [if_neg Bool.false_ne_true, if_neg Bool.false_ne_true]
        exact get_readAll src _ c.1 c.2
      | true =>
        rw [if_pos rfl, if_pos rfl, combine_readAll]
        exact get_readAll _ _ c.1 c.2
    · have hne : i.val ≠ i'.val := fun hc => h (Fin.ext hc)
      rw [scatter_other ht h, scatter_other ht h]
      exact hdone i' c (by omega)
  · have h : i ≠ i' := fun hc => by
      rw [hc] at hle
      omega
    unfold colGroup
    dsimp only
    rw [scatter_other ht h]
    exact htodo i' c (by omega)

theorem rowGroups_eq (x : Working n m) :
    let out := xorRegisters (Fin.foldl 8 (fun s q => roundOn round (slots q) s) x.state) x.blockXy
    Fin.foldl shape.groups (fun x i => rowGroup shape.together shape.carry
        (fun j => slots (member shape.eight i j)) x) x =
      ⟨if shape.carry then out else x.state, x.blockXy, out⟩ := by
  intro out
  have hall := foldl_invariant
    (fun x i => rowGroup shape.together shape.carry (fun j => slots (member shape.eight i j)) x)
    (fun t (y : Working n m) => y.blockXy = x.blockXy ∧
      (∀ i c, i.val < t →
        y.state[groupSlot shape slots i c] =
            (if shape.carry then out else x.state)[groupSlot shape slots i c] ∧
          y.next[groupSlot shape slots i c] = out[groupSlot shape slots i c]) ∧
      ∀ i c, t ≤ i.val → y.state[groupSlot shape slots i c] = x.state[groupSlot shape slots i c])
    x ⟨rfl, fun _ _ h => absurd h (Nat.not_lt_zero _), fun _ _ _ => rfl⟩ ?_
  · obtain ⟨hxy, hdone, -⟩ := hall
    refine Working.ext ?_ hxy ?_
    · exact registers_ext ht fun i c => (hdone i c i.isLt).1
    · exact registers_ext ht fun i c => (hdone i c i.isLt).2
  rintro i y ⟨hxy, hdone, htodo⟩
  have hloaded : readAll y.state (fun j => slots (member shape.eight i j)) =
      readAll x.state (fun j => slots (member shape.eight i j)) := by
    funext j
    exact readAll_group i (fun c => htodo i c le_rfl) j
  have hout (c : Fin shape.rounds × Fin 8) :
      (combine xorSi
        (shape.together (readAll y.state (fun j => slots (member shape.eight i j))) c.1)
        (readAll y.blockXy (fun j => slots (member shape.eight i j)) c.1)).get c.2 =
          out[groupSlot shape slots i c] := by
    have hxor : out[groupSlot shape slots i c] =
        xorSi (Fin.foldl 8 (fun s q => roundOn round (slots q) s) x.state)[groupSlot shape slots i c]
          x.blockXy[groupSlot shape slots i c] := Vector.getElem_zipWith _
    rw [hloaded, hround, hxy, hxor, pass_group ht]
    unfold combine
    rw [Octet.get_ofSlots, get_readAll]
    rfl
  refine ⟨hxy, fun i' c hlt => ?_, fun i' c hle => ?_⟩
  · unfold rowGroup
    dsimp only
    by_cases h : i = i'
    · subst h
      rw [scatter_group ht, hout]
      refine ⟨?_, rfl⟩
      cases hc : shape.carry with
      | false => exact htodo i c le_rfl
      | true =>
        rw [if_pos rfl, if_pos rfl, scatter_group ht, hout]
    · have hne : i.val ≠ i'.val := fun hc => h (Fin.ext hc)
      obtain ⟨hstate, hnext⟩ := hdone i' c (by omega)
      rw [scatter_other ht h, ← hstate]
      refine ⟨?_, hnext⟩
      cases shape.carry with
      | false => rfl
      | true => exact scatter_other ht h _ _ c
  · have h : i ≠ i' := fun hc => by
      rw [hc] at hle
      omega
    unfold rowGroup
    dsimp only
    rw [← htodo i' c (by omega)]
    cases shape.carry with
    | false => rfl
    | true => exact scatter_other ht h _ _ c

end Passes

section Blocks
variable {n m : ℕ} {shape : Shape n} {columnSlots rowSlots : Fin 8 → Octet (Fin m)}
  {round : Octet (Register n) → Octet (Register n)}

def passes (round : Octet (Register n) → Octet (Register n))
    (columnSlots rowSlots : Fin 8 → Octet (Fin m)) : Passes n m where
  columns := fun s => Fin.foldl 8 (fun s q => roundOn round (columnSlots q) s) s
  rows := fun s => Fin.foldl 8 (fun s q => roundOn round (rowSlots q) s) s

variable (hcolumns : Tiles columnSlots) (hrows : Tiles rowSlots)
  (hround : ∀ os j, shape.together os j = round (os j))
include hcolumns hrows hround

/-- The fused block is the unfused one from the state, or from the block in memory. -/
theorem fillBlock_eq (uninit state : Registers n m) (prevBlock refBlock nextBlock : Block)
    (withXor : Bool) :
    let r := RegisterBlock.fillBlock (passes round columnSlots rowSlots)
      (if shape.carry then state else load prevBlock) refBlock nextBlock withXor
    (fillBlock shape columnSlots rowSlots uninit state prevBlock refBlock nextBlock withXor).2 =
        r.2 ∧
      (shape.carry = true →
        (fillBlock shape columnSlots rowSlots uninit state prevBlock refBlock nextBlock withXor).1 =
          r.1) := by
  unfold fillBlock
  dsimp only
  rw [colGroups_eq hcolumns hround, rowGroups_eq hrows hround]
  exact ⟨rfl, fun hcarry => if_pos hcarry⟩

end Blocks

end Argon2Rust.FusedBlock
