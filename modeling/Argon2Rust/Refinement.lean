import Argon2Rust.Addressing
import Argon2Rust.Fill
import Argon2Rust.Recurrence

set_option autoImplicit false

namespace Argon2Rust.Refinement
open Bytes Parameters Compression IndexAlpha Segment ReferenceWindow Addressing Fill Recurrence
  Rfc9106

theorem asU32_toNat (algorithm : Algorithm) : algorithm.asU32.toNat = typeNumber algorithm := by
  cases algorithm <;> rfl

section Windows
variable (S : Setting)

theorem finished_zero (s : ℕ) :
    (Setting.finished 0 s).flatMap (fun g => S.segmentColumns g S.segment) =
      List.range (s * S.segment) := by
  unfold Setting.finished
  rw [if_pos rfl]
  induction s with
  | zero =>
    rw [Nat.zero_mul]
    rfl
  | succ s ih =>
    rw [List.range_succ, List.flatMap_append, ih, Nat.succ_mul, List.range_add]
    change _ ++ (S.segmentColumns s S.segment ++ []) = _
    rw [List.append_nil]
    rfl

theorem finished_pos (r s : ℕ) (hr : r ≠ 0) (hs : s < 4) :
    (Setting.finished r s).flatMap (fun g => S.segmentColumns g S.segment) =
      (List.range (3 * S.segment)).map fun k => ((s + 1) * S.segment + k) % (4 * S.segment) := by
  have hsplit : 3 * S.segment = S.segment + (S.segment + S.segment) := by omega
  have hpiece : ∀ g, g < 3 → ∀ k ∈ List.range S.segment,
      (s + 1 + g) % 4 * S.segment + k =
        ((s + 1) * S.segment + (g * S.segment + k)) % (4 * S.segment) := by
    intro g hg k hk
    have hlt := List.mem_range.mp hk
    have hmul : (s + 1) * S.segment + (g * S.segment + k) = (s + 1 + g) * S.segment + k := by ring
    rw [hmul]
    rcases Nat.lt_or_ge (s + 1 + g) 4 with h | h
    · have hb : (s + 1 + g + 1) * S.segment ≤ 4 * S.segment := Nat.mul_le_mul_right _ (by omega)
      rw [Nat.succ_mul] at hb
      rw [Nat.mod_eq_of_lt h, Nat.mod_eq_of_lt (by omega)]
    · obtain ⟨e, he⟩ := Nat.exists_eq_add_of_le h
      have hb : (e + 1) * S.segment ≤ 4 * S.segment := Nat.mul_le_mul_right _ (by omega)
      have hm : (4 + e) * S.segment + k = 4 * S.segment + (e * S.segment + k) := by ring
      rw [Nat.succ_mul] at hb
      rw [he, hm, Nat.add_mod_left, Nat.add_mod_left, Nat.mod_eq_of_lt (by omega),
        Nat.mod_eq_of_lt (by omega)]
  unfold Setting.finished
  rw [if_neg hr, hsplit, List.range_add, List.range_add, List.map_append, List.map_append,
    List.map_append, List.map_map, List.map_map, List.map_map]
  change S.segmentColumns _ _ ++ (S.segmentColumns _ _ ++ (S.segmentColumns _ _ ++ [])) = _
  rw [List.append_nil]
  unfold Setting.segmentColumns
  refine congrArg₂ _ ?_ (congrArg₂ _ ?_ ?_)
  · refine List.map_congr_left fun k hk => ?_
    have := hpiece 0 (by omega) k hk
    rw [Nat.zero_mul, Nat.zero_add] at this
    exact this
  · refine List.map_congr_left fun k hk => ?_
    have := hpiece 1 (by omega) k hk
    rw [Nat.one_mul] at this
    exact this
  · refine List.map_congr_left fun k hk => ?_
    have := hpiece 2 (by omega) k hk
    rw [this]
    change _ = ((s + 1) * S.segment + (S.segment + (S.segment + k))) % _
    congr 1
    ring

theorem dropLast_map_range {α : Type} (f : ℕ → α) (n : ℕ) :
    ((List.range n).map f).dropLast = (List.range (n - 1)).map f := by
  cases n with
  | zero => rfl
  | succ n => rw [List.range_succ, List.map_append, List.map_singleton, List.dropLast_concat,
      Nat.add_sub_cancel]

/-- The columns of the finished segments, counted from the start position. -/
theorem finished_eq (r s : ℕ) (hs : s < 4) :
    (Setting.finished r s).flatMap (fun g => S.segmentColumns g S.segment) =
      (List.range (if r = 0 then s * S.segment else 3 * S.segment)).map fun k =>
        (start S.segment r s + k) % (4 * S.segment) := by
  unfold start
  by_cases hr : r = 0
  · subst hr
    have hle : s * S.segment ≤ 4 * S.segment := Nat.mul_le_mul_right _ (by omega)
    rw [finished_zero, if_pos rfl, if_pos (Or.inl rfl)]
    symm
    refine (List.map_congr_left fun k hk => ?_).trans (List.map_id _)
    have hlt := List.mem_range.mp hk
    rw [Nat.zero_add, Nat.mod_eq_of_lt (by omega), id_eq]
  · rw [finished_pos S r s hr hs, if_neg hr]
    refine List.map_congr_left fun k _ => ?_
    by_cases h3 : s = 3
    · rw [if_pos (Or.inr h3), h3, Nat.zero_add]
      exact Nat.add_mod_left _ _
    · rw [if_neg (by omega)]

theorem window_eq (r s idx : ℕ) (same : Bool) (hs : s < 4) (hidx : idx < S.segment) :
    S.window r (s * S.segment + idx) same =
      (List.range (area S.segment r s idx same)).map fun k =>
        (start S.segment r s + k) % (4 * S.segment) := by
  have hdiv : (s * S.segment + idx) / S.segment = s := (columnOfOffset s idx _ hidx).1
  have hmod : (s * S.segment + idx) % S.segment = idx := (columnOfOffset s idx _ hidx).2
  unfold Setting.window area
  rw [hdiv, hmod]
  dsimp only
  rw [finished_eq S r s hs]
  cases same with
  | true =>
    have hcur : S.segmentColumns s idx = (List.range idx).map fun k =>
        (start S.segment r s + ((if r = 0 then s * S.segment else 3 * S.segment) + k)) %
          (4 * S.segment) := by
      refine List.map_congr_left fun k hk => ?_
      have hlt := List.mem_range.mp hk
      have hle : (s + 1) * S.segment ≤ 4 * S.segment := Nat.mul_le_mul_right _ (by omega)
      rw [Nat.succ_mul] at hle
      unfold start
      by_cases hr : r = 0
      · rw [if_pos (Or.inl hr), if_pos hr, Nat.zero_add, Nat.mod_eq_of_lt (by omega)]
      · rw [if_neg hr]
        by_cases h3 : s = 3
        · rw [if_pos (Or.inr h3), h3, Nat.zero_add, Nat.mod_eq_of_lt (by omega)]
        · have hm : (s + 1) * S.segment + (3 * S.segment + k) =
              4 * S.segment + (s * S.segment + k) := by ring
          rw [if_neg (by omega), hm, Nat.add_mod_left, Nat.mod_eq_of_lt (by omega)]
    rw [if_pos rfl, hcur, if_pos rfl, if_pos (Or.inl rfl)]
    have happ := @List.map_append _ _ (fun k => (start S.segment r s + k) % (4 * S.segment))
      (List.range (if r = 0 then s * S.segment else 3 * S.segment))
      ((List.range idx).map ((if r = 0 then s * S.segment else 3 * S.segment) + ·))
    rw [List.map_map, ← List.range_add, Function.comp_def] at happ
    rw [← happ, dropLast_map_range]
  | false =>
    rw [if_neg Bool.false_ne_true, if_neg Bool.false_ne_true, Nat.add_zero]
    by_cases h0 : idx = 0
    · rw [if_pos h0, if_pos (Or.inr h0), dropLast_map_range]
    · have hn : ¬ (false = true ∨ idx = 0) := by
        rintro (h | h)
        · cases h
        · exact h0 h
      rw [if_neg h0, if_neg hn, Nat.sub_zero]

/-- The specification's `z` is the column that `index_alpha` computes. -/
theorem refColumn_eq (r s idx : ℕ) (same : Bool) (J : UInt64) (hs : s < 4) (hidx : idx < S.segment)
    (hpos : 0 < area S.segment r s idx same) :
    S.refColumn r (s * S.segment + idx) same J =
      column S.segment r s idx (J.toNat % 2 ^ 32) same := by
  have hlt := relative_lt (area S.segment r s idx same) (J.toNat % 2 ^ 32) hpos
  unfold Setting.refColumn column
  dsimp only
  rw [window_eq S r s idx same hs hidx, List.length_map, List.length_range]
  change List.getD _ (relative (area S.segment r s idx same) (J.toNat % 2 ^ 32)) 0 = _
  rw [List.getD_eq_getElem?_getD, List.getElem?_map, List.getElem?_range hlt]
  rfl

end Windows

structure Matches (S : Setting) (inst : Instance) : Prop where
  lanes_eq : S.lanes = inst.lanes.toNat
  segment_eq : S.segment = inst.segmentLength.toNat
  passes_eq : S.passes = inst.passes.toNat
  algorithm_eq : S.algorithm = inst.algorithm
  version_eq : S.version = inst.version

def cell (inst : Instance) (arena : Arena) (l z : ℕ) : Block :=
  arena.getD (l * inst.laneLength.toNat + z) Block.zero

/-- Lane `l` has its first `f l` columns of pass `r` done, and the other columns of pass `r - 1`. -/
structure Holds (S : Setting) (inst : Instance) (r : ℕ) (f : ℕ → ℕ) (arena : Arena) : Prop where
  size_eq : arena.size = inst.memoryBlocks.toNat
  current : ∀ l < inst.lanes.toNat, ∀ z < inst.laneLength.toNat, z < f l →
    cell inst arena l z = S.matrix r l z
  previous : ∀ l < inst.lanes.toNat, ∀ z < inst.laneLength.toNat, f l ≤ z → r ≠ 0 →
    cell inst arena l z = S.matrix (r - 1) l z

theorem block_eq_cell (inst : Instance) (arena : Arena) (o : UInt32) (l z : ℕ)
    (h : o.toNat = l * inst.laneLength.toNat + z) : arena.block o = cell inst arena l z := by
  unfold Arena.block cell
  rw [h]

theorem toUInt64_eq_ofNat (x : UInt32) : x.toUInt64 = UInt64.ofNat x.toNat := by
  have h := x.toNat_lt
  rw [← UInt64.toNat_inj, UInt32.toNat_toUInt64, UInt64.toNat_ofNat_of_lt' (h.trans (by decide))]

section Step
variable {S : Setting} {inst : Instance} {pos : Position} (wf : WellFormed inst)
  (hm : Matches S inst) (hs : InSlice inst pos)
include wf hm

theorem columns_eq : S.columns = inst.laneLength.toNat := by
  rw [wf.lane_eq, ← hm.segment_eq]
  rfl

theorem memory_eq : S.memory = inst.memoryBlocks.toNat := by
  rw [wf.blocks_eq, ← hm.lanes_eq, ← columns_eq wf hm]
  rfl

omit wf in
theorem independent_eq : dataIndependentAddressing inst pos =
    S.independent pos.pass.toNat pos.slice.toNat := by
  have hp := zero_iff_toNat pos.pass
  have hsl : pos.slice < syncPoints / 2 ↔ pos.slice.toNat < 2 := UInt32.lt_iff_toNat_lt
  unfold dataIndependentAddressing Setting.independent
  rw [hm.algorithm_eq]
  simp only [hp, hsl]

theorem counterBlock_eq (k : ℕ) : counterBlock inst pos k =
    S.addressInput pos.pass.toNat pos.lane.toNat pos.slice.toNat k := by
  unfold counterBlock addressInputBlock Setting.addressInput
  rw [memory_eq wf hm, hm.passes_eq, hm.algorithm_eq, ← asU32_toNat]
  simp only [toUInt64_eq_ofNat]
  ext i hi
  simp only [Vector.getElem_set, Vector.getElem_ofFn, Block.zero, Vector.getElem_replicate]
  rcases i with _ | _ | _ | _ | _ | _ | _ | i <;> simp

theorem addresses_eq (k : ℕ) : addresses inst pos k =
    S.addressBlock pos.pass.toNat pos.lane.toNat pos.slice.toNat k := by
  unfold addresses Setting.addressBlock
  rw [counterBlock_eq wf hm]

theorem draw_eq {idx : ℕ} {s : SegmentState} (hidx : idx < inst.segmentLength.toNat)
    (hi : (s.cursor.rotate inst).i.toNat = idx)
    (ha : dataIndependentAddressing inst pos = true → AddressesOk inst pos idx s) (arena : Arena) :
    (draw inst pos s arena).1 =
      S.pseudoRandom pos.pass.toNat pos.lane.toNat (pos.slice.toNat * S.segment + idx)
        (arena.block (s.cursor.rotate inst).prevOffset) := by
  obtain ⟨hdiv, hmod⟩ := columnOfOffset pos.slice.toNat idx S.segment (by rw [hm.segment_eq]; exact hidx)
  unfold Setting.pseudoRandom
  simp only [hdiv, hmod]
  by_cases hd : dataIndependentAddressing inst pos = true
  · have hslot : ((s.cursor.rotate inst).i % 128).toNat = idx % 128 := by
      rw [UInt32.toNat_mod, hi]
      rfl
    rw [draw_independent hd (ha hd) hi, if_pos (independent_eq hm ▸ hd), addresses_eq wf hm]
    unfold slotWord
    simp only [hslot]
  · rw [if_neg (independent_eq hm ▸ hd)]
    unfold draw
    dsimp only
    rw [if_neg hd]
    rfl

omit wf in
theorem refLane_eq (j : ℕ) (hj : j / S.segment = pos.slice.toNat) (J : UInt64) :
    (refLane inst pos J).toNat = S.refLane pos.pass.toNat pos.lane.toNat j J := by
  have hp := zero_iff_toNat pos.pass
  have hsl := zero_iff_toNat pos.slice
  unfold refLane Setting.refLane
  rw [hj, hm.lanes_eq]
  simp only [hp, hsl]
  split_ifs with h
  · rfl
  · have hlt := inst.lanes.toNat_lt
    have hle : J.toNat / 2 ^ 32 % inst.lanes.toNat < 2 ^ 32 := by
      rcases Nat.eq_zero_or_pos inst.lanes.toNat with h0 | hpos
      · have := J.toNat_lt
        rw [h0, Nat.mod_zero]
        omega
      · exact (Nat.mod_lt _ hpos).trans hlt
    rw [UInt64.toNat_toUInt32, UInt64.toNat_mod, shiftRight32_toNat, UInt32.toNat_toUInt64,
      Nat.mod_eq_of_lt hle]

omit wf in
theorem withXor_eq : withXor inst pos.pass =
    decide (pos.pass.toNat ≠ 0 ∧ S.version ≠ .v0x10) := by
  have hp := zero_iff_toNat pos.pass
  unfold withXor
  rw [← hm.version_eq, Bool.decide_and, Bool.and_comm]
  simp only [ne_eq, hp]

include hs

theorem prevBlock_eq {f : ℕ → ℕ} {arena : Arena} (hold : Holds S inst pos.pass.toNat f arena)
    {j z : ℕ} (hf : f pos.lane.toNat = j) (hz : z < inst.laneLength.toNat)
    (hfirst : pos.pass.toNat = 0 → j ≠ 0)
    (hzc : (1 ≤ j ∧ z + 1 = j) ∨ (j = 0 ∧ z + 1 = inst.laneLength.toNat)) :
    cell inst arena pos.lane.toNat z =
      if j = 0 then S.matrix (pos.pass.toNat - 1) pos.lane.toNat (S.columns - 1)
      else S.matrix pos.pass.toNat pos.lane.toNat (j - 1) := by
  rcases hzc with ⟨h1, hzj⟩ | ⟨h0, hzL⟩
  · have hzj' : z = j - 1 := by omega
    rw [if_neg (by omega), hold.current _ hs.lane_lt z hz (by omega), hzj']
  · have hzL' : z = S.columns - 1 := by
      rw [columns_eq wf hm]
      omega
    rw [if_pos h0, hold.previous _ hs.lane_lt z hz (by omega) (fun hr => hfirst hr h0), hzL']

omit hm in
/-- What the reference block holds: this pass's block before column `j`, else the last pass's. -/
theorem refBlock_eq {f : ℕ → ℕ} {arena : Arena} (hold : Holds S inst pos.pass.toNat f arena)
    {idx : ℕ} (hidx : idx < inst.segmentLength.toNat) (hstart : (startingIndex pos).toNat ≤ idx)
    (hf : f pos.lane.toNat = pos.slice.toNat * inst.segmentLength.toNat + idx)
    (hother : ∀ l, l ≠ pos.lane.toNat → pos.slice.toNat * inst.segmentLength.toNat ≤ f l ∧
      f l ≤ (pos.slice.toNat + 1) * inst.segmentLength.toNat) (J : UInt64) :
    cell inst arena (refLane inst pos J).toNat (refColumn inst pos idx J) =
      if refColumn inst pos idx J < pos.slice.toNat * inst.segmentLength.toNat + idx then
        S.matrix pos.pass.toNat (refLane inst pos J).toNat (refColumn inst pos idx J)
      else if pos.pass.toNat = 0 then Block.zero
      else S.matrix (pos.pass.toNat - 1) (refLane inst pos J).toNat (refColumn inst pos idx J) := by
  have hp := zero_iff_toNat pos.pass
  have hwin := refColumn_window wf hs idx hidx hstart J
  have hcol := @refColumn_lt inst pos wf idx J
  have hlane := refLane_lt wf hs J
  have hslen : (pos.slice.toNat + 1) * inst.segmentLength.toNat =
      pos.slice.toNat * inst.segmentLength.toNat + inst.segmentLength.toNat := Nat.succ_mul _ _
  by_cases hl : refLane inst pos J = pos.lane
  · have hfl : f (refLane inst pos J).toNat =
        pos.slice.toNat * inst.segmentLength.toNat + idx := by rw [hl, hf]
    by_cases hz : refColumn inst pos idx J < pos.slice.toNat * inst.segmentLength.toNat + idx
    · rw [if_pos hz, hold.current _ hlane _ hcol (by omega)]
    · rcases hwin.1 hl with hw | ⟨hr, -⟩
      · omega
      · have hr' : pos.pass.toNat ≠ 0 := fun h => hr (hp.mpr h)
        rw [if_neg hz, if_neg hr', hold.previous _ hlane _ hcol (by omega) hr']
  · have hfl := hother (refLane inst pos J).toNat (fun h => hl (UInt32.toNat_inj.mp h))
    rcases hwin.2 hl with hw | ⟨hr, hw⟩
    · rw [if_pos (by omega), hold.current _ hlane _ hcol (by omega)]
    · have hr' : pos.pass.toNat ≠ 0 := fun h => hr (hp.mpr h)
      rw [if_neg (by omega), if_neg hr', hold.previous _ hlane _ hcol (by omega) hr']

theorem newBlock_eq {n : ℕ} (hn : n < segmentBlocks inst pos) {s : SegmentState}
    (hc : s.cursor = Cursor.at inst pos n)
    (ha : dataIndependentAddressing inst pos = true →
      AddressesOk inst pos ((startingIndex pos).toNat + n) s)
    {f : ℕ → ℕ} {arena : Arena} (hold : Holds S inst pos.pass.toNat f arena)
    (hf : f pos.lane.toNat =
      pos.slice.toNat * inst.segmentLength.toNat + ((startingIndex pos).toNat + n))
    (hother : ∀ l, l ≠ pos.lane.toNat → pos.slice.toNat * inst.segmentLength.toNat ≤ f l ∧
      f l ≤ (pos.slice.toNat + 1) * inst.segmentLength.toNat) :
    newBlock inst pos s arena = S.matrix pos.pass.toNat pos.lane.toNat
      (pos.slice.toNat * inst.segmentLength.toNat + ((startingIndex pos).toNat + n)) := by
  have hp := zero_iff_toNat pos.pass
  have hsl := zero_iff_toNat pos.slice
  have hseg := wf.segment_ge
  have hstart := startingIndex_toNat pos
  have hidx : (startingIndex pos).toNat + n < inst.segmentLength.toNat := by
    unfold segmentBlocks at hn
    omega
  have hi := ((cursorOk_at wf hs n (by omega)).rotate wf hs hidx).1
  rw [← hc] at hi
  have hdraw := draw_eq wf hm hidx hi ha arena
  rw [← access_prevOffset inst pos s arena, hm.segment_eq] at hdraw
  have hacc := access_eq_accessAt inst pos s arena n hc
  generalize (draw inst pos s arena).1 = J at hdraw hacc
  obtain ⟨z, hz, hprev, hcurr, hzc, hub, hle⟩ := accessAt_columns wf hs n hn J
  have href := accessAt_ref wf hs n hn J
  rw [← hacc] at hprev hcurr href
  have hrefBlock := refBlock_eq wf hs hold hidx (Nat.le_add_right _ _) hf hother J
  have hpos := area_pos wf (inRange_index hs (s.cursor.rotate inst).i (by omega) (by omega))
    (refLane inst pos J = pos.lane) (refLane_first inst pos J)
  change 0 < area _ _ _ (s.cursor.rotate inst).i.toNat _ at hpos
  rw [hi, ← hm.segment_eq] at hpos
  have hspecCol := refColumn_eq S pos.pass.toNat pos.slice.toNat ((startingIndex pos).toNat + n)
    (refLane inst pos J = pos.lane) J hs.slice_lt (by rw [hm.segment_eq]; exact hidx) hpos
  rw [hm.segment_eq] at hspecCol
  change _ = refColumn inst pos ((startingIndex pos).toNat + n) J at hspecCol
  have hdiv : (pos.slice.toNat * inst.segmentLength.toNat + ((startingIndex pos).toNat + n)) /
      S.segment = pos.slice.toNat := by
    rw [hm.segment_eq]
    exact (columnOfOffset _ _ _ hidx).1
  have hrefLane := refLane_eq hm _ hdiv J
  have hge : pos.pass.toNat = 0 → 2 ≤ pos.slice.toNat * inst.segmentLength.toNat +
      ((startingIndex pos).toNat + n) := by
    intro hr
    rcases Nat.eq_zero_or_pos pos.slice.toNat with h0 | hpos
    · rw [if_pos ⟨hp.mpr hr, hsl.mpr h0⟩] at hstart
      omega
    · have := Nat.le_mul_of_pos_left inst.segmentLength.toNat hpos
      omega
  have hprevBlock := prevBlock_eq wf hm hs hold hf hz (fun hr => by have := hge hr; omega) hzc
  have hcurrBlock : pos.pass.toNat ≠ 0 → arena.block (access inst pos s arena).currOffset =
      S.matrix (pos.pass.toNat - 1) pos.lane.toNat
        (pos.slice.toNat * inst.segmentLength.toNat + ((startingIndex pos).toNat + n)) := by
    intro hr
    rw [block_eq_cell inst arena _ _ _ hcurr, hold.previous _ hs.lane_lt _ (by omega) hf.le hr]
  rw [block_eq_cell inst arena _ _ _ hprev, hprevBlock] at hdraw
  have hdec : decide ((refLane inst pos J).toNat = pos.lane.toNat) =
      decide (refLane inst pos J = pos.lane) := by simp only [UInt32.toNat_inj]
  unfold newBlock
  rw [Setting.matrix, if_neg (fun h => by have := hge h.1; omega)]
  dsimp only
  rw [← hdraw, ← hrefLane, hdec, hspecCol, block_eq_cell inst arena _ _ _ hprev, hprevBlock,
    block_eq_cell inst arena _ _ _ href, hrefBlock]
  by_cases hx : pos.pass.toNat ≠ 0 ∧ S.version ≠ .v0x10
  · rw [if_pos hx, withXor_eq hm, decide_eq_true hx, fillBlock_withXor, hcurrBlock hx.1]
  · rw [if_neg hx, withXor_eq hm, decide_eq_false hx, fillBlock_overwrite]

end Step

theorem Holds.congr {S : Setting} {inst : Instance} {r : ℕ} {f g : ℕ → ℕ} {arena : Arena}
    (h : Holds S inst r f arena) (hfg : ∀ l < inst.lanes.toNat, f l = g l) :
    Holds S inst r g arena where
  size_eq := h.size_eq
  current := fun l hl z hz hlt => h.current l hl z hz (by rw [hfg l hl]; exact hlt)
  previous := fun l hl z hz hle => h.previous l hl z hz (by rw [hfg l hl]; exact hle)

theorem cell_store {inst : Instance} (arena : Arena) (o : UInt32) (b : Block) (l₀ j l z : ℕ)
    (ho : o.toNat = l₀ * inst.laneLength.toNat + j) (hlt : o.toNat < arena.size)
    (hj : j < inst.laneLength.toNat) (hz : z < inst.laneLength.toNat) :
    cell inst (arena.store o b) l z = if l = l₀ ∧ z = j then b else cell inst arena l z := by
  unfold cell Arena.store
  rw [Array.getD_eq_getD_getElem?, Array.getD_eq_getD_getElem?]
  by_cases h : l = l₀ ∧ z = j
  · rw [if_pos h, h.1, h.2, ← ho, Array.getElem?_setIfInBounds_self_of_lt hlt]
    rfl
  · rw [if_neg h, Array.getElem?_setIfInBounds_ne]
    intro heq
    have hcol := column_inj _ _ _ _ _ hj hz (ho.symm.trans heq)
    exact h ⟨hcol.1.symm, hcol.2.symm⟩

theorem Holds.store {S : Setting} {inst : Instance} {r : ℕ} {f : ℕ → ℕ} {arena : Arena}
    (h : Holds S inst r f arena) {o : UInt32} {l₀ : ℕ}
    (ho : o.toNat = l₀ * inst.laneLength.toNat + f l₀) (hlt : o.toNat < inst.memoryBlocks.toNat)
    (hf : f l₀ < inst.laneLength.toNat) :
    Holds S inst r (Function.update f l₀ (f l₀ + 1)) (arena.store o (S.matrix r l₀ (f l₀))) := by
  have hcell := fun l z => @cell_store inst arena o (S.matrix r l₀ (f l₀)) l₀ (f l₀) l z ho
    (by rw [h.size_eq]; exact hlt) hf
  refine ⟨?_, ?_, ?_⟩
  · unfold Arena.store
    rw [Array.size_setIfInBounds]
    exact h.size_eq
  · intro l hl z hz hzf
    rw [hcell l z hz]
    by_cases heq : l = l₀ ∧ z = f l₀
    · rw [if_pos heq, heq.1, heq.2]
    · rw [if_neg heq]
      refine h.current l hl z hz ?_
      by_cases hl₀ : l = l₀
      · rw [hl₀, Function.update_self] at hzf
        rw [hl₀]
        have hne : z ≠ f l₀ := fun hzeq => heq ⟨hl₀, hzeq⟩
        omega
      · rw [Function.update_of_ne hl₀] at hzf
        exact hzf
  · intro l hl z hz hzf hr
    rw [hcell l z hz]
    by_cases hl₀ : l = l₀
    · rw [hl₀, Function.update_self] at hzf
      rw [if_neg (by omega)]
      exact h.previous l hl z hz (by rw [hl₀]; omega) hr
    · rw [Function.update_of_ne hl₀] at hzf
      rw [if_neg (fun heq => hl₀ heq.1)]
      exact h.previous l hl z hz hzf hr

section Run
variable {S : Setting} {inst : Instance} (wf : WellFormed inst) (hm : Matches S inst)
include wf hm

/-- `n` iterations of a segment complete its first `n` blocks. -/
theorem iterate_holds {pos : Position} (hs : InSlice inst pos) {f : ℕ → ℕ} {arena : Arena}
    (hold : Holds S inst pos.pass.toNat f arena)
    (hf : f pos.lane.toNat =
      pos.slice.toNat * inst.segmentLength.toNat + (startingIndex pos).toNat)
    (hother : ∀ l, l ≠ pos.lane.toNat → pos.slice.toNat * inst.segmentLength.toNat ≤ f l ∧
      f l ≤ (pos.slice.toNat + 1) * inst.segmentLength.toNat)
    (n : ℕ) (hn : n ≤ segmentBlocks inst pos) :
    Holds S inst pos.pass.toNat
      (Function.update f pos.lane.toNat (f pos.lane.toNat + n))
      ((blockStep inst pos)^[n] (segmentStart inst pos, arena)).2 := by
  induction n with
  | zero =>
    rw [Nat.add_zero, Function.update_eq_self]
    exact hold
  | succ n ih =>
    have hc := iterate_cursor inst pos arena n (by omega) wf hs
    have hguard := (active_iff wf hs (by omega) hc).mpr (by omega)
    have ha := fun hd => addressesOk_iterate wf hs hd arena n (by omega)
    have ih' := ih (by omega)
    rw [Function.iterate_succ_apply']
    generalize (blockStep inst pos)^[n] (segmentStart inst pos, arena) = x at hc hguard ha ih' ⊢
    obtain ⟨s, arena'⟩ := x
    have hself : Function.update f pos.lane.toNat (f pos.lane.toNat + n) pos.lane.toNat =
        pos.slice.toNat * inst.segmentLength.toNat + ((startingIndex pos).toNat + n) := by
      rw [Function.update_self, hf, Nat.add_assoc]
    have hoth : ∀ l, l ≠ pos.lane.toNat →
        pos.slice.toNat * inst.segmentLength.toNat ≤
          Function.update f pos.lane.toNat (f pos.lane.toNat + n) l ∧
        Function.update f pos.lane.toNat (f pos.lane.toNat + n) l ≤
          (pos.slice.toNat + 1) * inst.segmentLength.toNat := by
      intro l hl
      rw [Function.update_of_ne hl]
      exact hother l hl
    have hnew := newBlock_eq wf hm hs (by omega) hc ha ih' hself hoth
    have hcurr := accessAt_curr wf hs n (by omega) (draw inst pos s arena').1
    have hbound := (accessAt_bounds wf hs n (by omega) (draw inst pos s arena').1).1
    obtain ⟨z, -, -, -, -, hub, hle⟩ :=
      accessAt_columns wf hs n (by omega) (draw inst pos s arena').1
    rw [← access_eq_accessAt inst pos s arena' n hc] at hcurr hbound
    unfold blockOffset at hcurr
    rw [Nat.add_assoc, ← hself] at hcurr
    have hstore := ih'.store hcurr hbound (by rw [hself]; omega)
    rw [blockStep_active _ _ _ _ hguard, hnew, ← hself]
    rw [Function.update_idem, Function.update_self, Nat.add_assoc] at hstore
    rw [Function.update_self]
    exact hstore

/-- The column at which a segment of pass `r` and slice `s` starts writing. -/
def startColumn (inst : Instance) (r s : ℕ) : ℕ :=
  s * inst.segmentLength.toNat + if r = 0 ∧ s = 0 then 2 else 0

omit hm in
theorem startColumn_le (r s : ℕ) :
    s * inst.segmentLength.toNat ≤ startColumn inst r s ∧
      startColumn inst r s ≤ (s + 1) * inst.segmentLength.toNat := by
  have hseg := wf.segment_ge
  have hsucc : (s + 1) * inst.segmentLength.toNat =
      s * inst.segmentLength.toNat + inst.segmentLength.toNat := Nat.succ_mul _ _
  unfold startColumn
  split_ifs <;> omega

theorem fillSegment_holds {pos : Position} (hs : InSlice inst pos) {f : ℕ → ℕ} {arena : Arena}
    (hold : Holds S inst pos.pass.toNat f arena)
    (hf : f pos.lane.toNat = startColumn inst pos.pass.toNat pos.slice.toNat)
    (hother : ∀ l, l ≠ pos.lane.toNat → pos.slice.toNat * inst.segmentLength.toNat ≤ f l ∧
      f l ≤ (pos.slice.toNat + 1) * inst.segmentLength.toNat) :
    Holds S inst pos.pass.toNat
      (Function.update f pos.lane.toNat ((pos.slice.toNat + 1) * inst.segmentLength.toNat))
      (fillSegment inst pos arena) := by
  have hp := zero_iff_toNat pos.pass
  have hsl := zero_iff_toNat pos.slice
  have hle := @startingIndex_le inst pos wf
  have hf' : f pos.lane.toNat =
      pos.slice.toNat * inst.segmentLength.toNat + (startingIndex pos).toNat := by
    rw [hf, startingIndex_toNat]
    unfold startColumn
    simp only [hp, hsl]
  have hrun := iterate_holds wf hm hs hold hf' hother (segmentBlocks inst pos) le_rfl
  have hend : f pos.lane.toNat + segmentBlocks inst pos =
      (pos.slice.toNat + 1) * inst.segmentLength.toNat := by
    rw [hf', Nat.succ_mul]
    unfold segmentBlocks
    omega
  rw [hend] at hrun
  rw [fillSegment_eq wf hs]
  exact hrun

theorem fillLanes_holds {pass slice : UInt32} (hslice : slice.toNat < 4) {arena : Arena}
    (hold : Holds S inst pass.toNat (fun _ => startColumn inst pass.toNat slice.toNat) arena)
    (m : ℕ) (hmle : m ≤ inst.lanes.toNat) :
    Holds S inst pass.toNat
      (fun l => if l < m then (slice.toNat + 1) * inst.segmentLength.toNat
        else startColumn inst pass.toNat slice.toNat)
      ((List.range m).foldl
        (fun arena lane => fillSegment inst (lanePosition pass slice lane) arena) arena) := by
  induction m with
  | zero => exact hold
  | succ m ih =>
    have hs := @lanePosition_inSlice inst pass slice hslice m (by omega)
    have hlane := @lanePosition_lane inst pass slice m (by omega)
    have hbounds := startColumn_le wf pass.toNat slice.toNat
    have hsucc : (slice.toNat + 1) * inst.segmentLength.toNat =
        slice.toNat * inst.segmentLength.toNat + inst.segmentLength.toNat := Nat.succ_mul _ _
    have hstep := fillSegment_holds wf hm hs (ih (by omega))
      (by rw [hlane, if_neg (Nat.lt_irrefl m)]; rfl)
      (by
        intro l _
        change slice.toNat * _ ≤ _ ∧ _ ≤ (slice.toNat + 1) * _
        split_ifs <;> omega)
    rw [List.range_succ, List.foldl_append]
    refine hstep.congr fun l _ => ?_
    rw [hlane]
    rcases lt_trichotomy l m with h | h | h
    · rw [Function.update_of_ne (by omega), if_pos h, if_pos (by omega)]
    · rw [h, Function.update_self, if_pos (by omega)]
      rfl
    · rw [Function.update_of_ne (by omega), if_neg (by omega), if_neg (by omega)]

theorem fillSlices_holds {pass : UInt32} {arena : Arena}
    (hold : Holds S inst pass.toNat (fun _ => startColumn inst pass.toNat 0) arena)
    (m : ℕ) (hmle : m ≤ 4) :
    Holds S inst pass.toNat (fun _ => startColumn inst pass.toNat m)
      ((List.range m).foldl
        (fun arena slice => fillSliceSt inst pass (UInt32.ofNat slice) arena) arena) := by
  induction m with
  | zero => exact hold
  | succ m ih =>
    have hslice : (UInt32.ofNat m).toNat = m :=
      UInt32.toNat_ofNat_of_lt' (Nat.lt_of_lt_of_le hmle (by decide))
    have hstep := @fillLanes_holds S inst wf hm pass (UInt32.ofNat m) (by omega) _
      (by rw [hslice]; exact ih (by omega)) inst.lanes.toNat le_rfl
    rw [List.range_succ, List.foldl_append]
    refine hstep.congr fun l hl => ?_
    unfold startColumn
    rw [if_pos hl, hslice, if_neg (by omega)]
    rfl

theorem fillPass_holds {pass : UInt32} {arena : Arena}
    (hold : Holds S inst pass.toNat (fun _ => startColumn inst pass.toNat 0) arena) :
    Holds S inst pass.toNat (fun _ => inst.laneLength.toNat) (fillPass inst pass arena) := by
  have h := fillSlices_holds wf hm hold 4 le_rfl
  refine h.congr fun l _ => ?_
  rw [wf.lane_eq]
  unfold startColumn
  rw [if_neg (by omega), Nat.add_zero]

omit wf hm in
theorem Holds.next {r : ℕ} {arena : Arena}
    (h : Holds S inst r (fun _ => inst.laneLength.toNat) arena) :
    Holds S inst (r + 1) (fun _ => startColumn inst (r + 1) 0) arena where
  size_eq := h.size_eq
  current := by
    intro l hl z hz hlt
    unfold startColumn at hlt
    rw [if_neg (by omega)] at hlt
    omega
  previous := fun l hl z hz _ _ => h.current l hl z hz hz

theorem fillPasses_holds {arena : Arena}
    (hold : Holds S inst 0 (fun _ => startColumn inst 0 0) arena) (m : ℕ)
    (hmle : m ≤ inst.passes.toNat) (h1 : 1 ≤ m) :
    Holds S inst (m - 1) (fun _ => inst.laneLength.toNat)
      ((List.range m).foldl (fun arena pass => fillPass inst (UInt32.ofNat pass) arena) arena) := by
  have hp := inst.passes.toNat_lt
  induction m with
  | zero => omega
  | succ m ih =>
    have hpass : (UInt32.ofNat m).toNat = m := UInt32.toNat_ofNat_of_lt' (by
      exact (Nat.lt_of_succ_le hmle).trans hp)
    rw [List.range_succ, List.foldl_append, Nat.add_sub_cancel]
    change Holds S inst m _ (fillPass inst (UInt32.ofNat m) _)
    have hstart : Holds S inst m (fun _ => startColumn inst m 0)
        ((List.range m).foldl (fun arena pass => fillPass inst (UInt32.ofNat pass) arena)
          arena) := by
      rcases Nat.eq_zero_or_pos m with h0 | hpos
      · subst h0
        exact hold
      · have h := (ih (by omega) hpos).next
        rw [Nat.sub_add_cancel hpos] at h
        exact h
    have h := @fillPass_holds S inst wf hm (UInt32.ofNat m) _ (by rw [hpass]; exact hstart)
    rw [hpass] at h
    exact h

end Run

end Argon2Rust.Refinement
