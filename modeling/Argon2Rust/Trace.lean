import Argon2Rust.TagCorrectness

set_option autoImplicit false

namespace Argon2Rust.Trace
open Parameters Compression IndexAlpha Segment ReferenceWindow Addressing Blake2 Fill Hash
  Recurrence Refinement TagCorrectness

def passPositions (inst : Instance) (pass : UInt32) : List Position :=
  (List.range syncPoints.toNat).flatMap fun slice =>
    (List.range inst.lanes.toNat).map fun lane => lanePosition pass (UInt32.ofNat slice) lane

def positions (inst : Instance) : List Position :=
  (List.range inst.passes.toNat).flatMap fun pass => passPositions inst (UInt32.ofNat pass)

def fillTrace (inst : Instance) : List Position → Arena → List (Position × List Access)
  | [], _ => []
  | pos :: rest, arena =>
    (pos, segmentTrace inst pos arena) :: fillTrace inst rest (fillSegment inst pos arena)

/-- The trace of a whole hash: what the fill accesses after the first blocks are made. -/
def hashTrace {w : PointerWidth} (compress : CompressFn) (arena : Arena) (algorithm : Algorithm)
    (version : Version) (p : Params w) (x : Inputs) :
    Except Error (List (Position × List Access)) := do
  let blockhash ← initialHash algorithm version p x compress
  let arena ← fillFirstBlocks w compress blockhash arena p.lanes p.laneLength
  let inst := Instance.new algorithm version p
  .ok (fillTrace inst (positions inst) arena)

theorem fillPasses_eq_foldl (inst : Instance) (arena : Arena) :
    fillPasses inst arena =
      (positions inst).foldl (fun arena pos => fillSegment inst pos arena) arena := by
  unfold positions passPositions
  rw [List.foldl_flatMap]
  refine List.foldl_ext _ _ _ fun a pass _ => ?_
  rw [List.foldl_flatMap]
  refine List.foldl_ext _ _ _ fun b slice _ => ?_
  rw [List.foldl_map]
  rfl

theorem mem_positions {inst : Instance} {pos : Position} (h : pos ∈ positions inst) :
    InSlice inst pos := by
  obtain ⟨pass, -, hpass⟩ := List.mem_flatMap.mp h
  obtain ⟨slice, hslice, hlanes⟩ := List.mem_flatMap.mp hpass
  obtain ⟨lane, hlane, rfl⟩ := List.mem_map.mp hlanes
  have hlt := List.mem_range.mp hslice
  refine lanePosition_inSlice ?_ lane (List.mem_range.mp hlane)
  rw [UInt32.toNat_ofNat_of_lt' (hlt.trans (by decide))]
  exact hlt

/-- The accesses at data-independent positions are the same from any two arenas. -/
theorem fillTrace_filter_eq {inst : Instance} (wf : WellFormed inst) (ps : List Position)
    (hps : ∀ pos ∈ ps, InSlice inst pos) (arena arena' : Arena) :
    (fillTrace inst ps arena).filter (fun e => dataIndependentAddressing inst e.1) =
      (fillTrace inst ps arena').filter (fun e => dataIndependentAddressing inst e.1) := by
  induction ps generalizing arena arena' with
  | nil => rfl
  | cons pos ps ih =>
    have ih' := ih (fun pos' h => hps pos' (List.mem_cons_of_mem pos h))
      (fillSegment inst pos arena) (fillSegment inst pos arena')
    unfold fillTrace
    rw [List.filter_cons, List.filter_cons]
    dsimp only
    by_cases hd : dataIndependentAddressing inst pos = true
    · have hs := hps pos List.mem_cons_self
      rw [if_pos hd, if_pos hd, ih', segmentTrace_independent wf hs hd,
        segmentTrace_independent wf hs hd]
    · rw [if_neg hd, if_neg hd, ih']

section Written

/-- Every read of a list of (reads, write) events is of an element written before. -/
def ReadsWritten (written : Set ℕ) : List (List ℕ × ℕ) → Prop
  | [] => True
  | e :: rest => (∀ o ∈ e.1, o ∈ written) ∧ ReadsWritten (insert e.2 written) rest

def writtenAfter (written : Set ℕ) (events : List (List ℕ × ℕ)) : Set ℕ :=
  fun o => o ∈ written ∨ o ∈ events.map Prod.snd

theorem ReadsWritten.append {written : Set ℕ} {xs ys : List (List ℕ × ℕ)}
    (hx : ReadsWritten written xs) (hy : ReadsWritten (writtenAfter written xs) ys) :
    ReadsWritten written (xs ++ ys) := by
  induction xs generalizing written with
  | nil =>
    have hw : writtenAfter written [] = written :=
      Set.ext fun o => or_iff_left (List.not_mem_nil)
    rw [hw] at hy
    exact hy
  | cons e xs ih =>
    refine ⟨hx.1, ih hx.2 ?_⟩
    have hw : writtenAfter (insert e.2 written) xs = writtenAfter written (e :: xs) := by
      refine Set.ext fun o => ?_
      change (o = e.2 ∨ o ∈ written) ∨ o ∈ xs.map Prod.snd ↔
        o ∈ written ∨ o ∈ e.2 :: xs.map Prod.snd
      rw [List.mem_cons]
      tauto
    rw [hw]
    exact hy

theorem writtenAfter_append (written : Set ℕ) (xs ys : List (List ℕ × ℕ)) :
    writtenAfter written (xs ++ ys) = writtenAfter (writtenAfter written xs) ys := by
  refine Set.ext fun o => ?_
  change o ∈ written ∨ o ∈ (xs ++ ys).map Prod.snd ↔
    (o ∈ written ∨ o ∈ xs.map Prod.snd) ∨ o ∈ ys.map Prod.snd
  rw [List.map_append, List.mem_append, or_assoc]

end Written

/-- The blocks one iteration reads: the previous, the reference and, if it xors, the old block. -/
def readsOf (inst : Instance) (pos : Position) (a : Access) : List ℕ :=
  [a.prevOffset.toNat, a.refOffset.toNat] ++
    if withXor inst pos.pass then [a.currOffset.toNat] else []

def eventsOf (inst : Instance) (e : Position × List Access) : List (List ℕ × ℕ) :=
  e.2.map fun a => (readsOf inst e.1 a, a.currOffset.toNat)

def columnsDone (inst : Instance) (f : ℕ → ℕ) : Set ℕ :=
  fun o => ∃ l < inst.lanes.toNat, ∃ z < inst.laneLength.toNat, z < f l ∧
    o = l * inst.laneLength.toNat + z

def traceEvents (inst : Instance) (ps : List Position) (arena : Arena) : List (List ℕ × ℕ) :=
  (fillTrace inst ps arena).flatMap (eventsOf inst)

/-- Running `ps` after the columns `f` are written reads written blocks only and completes `g`. -/
def Covers (inst : Instance) (ps : List Position) (arena : Arena) (f g : ℕ → ℕ) : Prop :=
  ∀ written, columnsDone inst f ⊆ written →
    ReadsWritten written (traceEvents inst ps arena) ∧
      columnsDone inst g ⊆ writtenAfter written (traceEvents inst ps arena)

theorem fillTrace_append (inst : Instance) (xs ys : List Position) (arena : Arena) :
    fillTrace inst (xs ++ ys) arena = fillTrace inst xs arena ++
      fillTrace inst ys (xs.foldl (fun arena pos => fillSegment inst pos arena) arena) := by
  induction xs generalizing arena with
  | nil => rfl
  | cons pos xs ih =>
    change (pos, _) :: fillTrace inst (xs ++ ys) _ = _
    rw [ih]
    rfl

theorem Covers.append {inst : Instance} {xs ys : List Position} {arena : Arena} {f g h : ℕ → ℕ}
    (hx : Covers inst xs arena f g)
    (hy : Covers inst ys (xs.foldl (fun arena pos => fillSegment inst pos arena) arena) g h) :
    Covers inst (xs ++ ys) arena f h := by
  intro written hw
  obtain ⟨hrx, hcx⟩ := hx written hw
  obtain ⟨hry, hcy⟩ := hy _ hcx
  have happ : traceEvents inst (xs ++ ys) arena = traceEvents inst xs arena ++
      traceEvents inst ys (xs.foldl (fun arena pos => fillSegment inst pos arena) arena) := by
    unfold traceEvents
    rw [fillTrace_append, List.flatMap_append]
  rw [happ, writtenAfter_append]
  exact ⟨hrx.append hry, hcy⟩

theorem Covers.congr {inst : Instance} {ps : List Position} {arena : Arena} {f g g' : ℕ → ℕ}
    (h : Covers inst ps arena f g) (hg : ∀ l < inst.lanes.toNat, g' l = g l) :
    Covers inst ps arena f g' := by
  intro written hw
  obtain ⟨hr, hc⟩ := h written hw
  refine ⟨hr, fun o ho => hc ?_⟩
  obtain ⟨l, hl, z, hz, hlt, heq⟩ := ho
  exact ⟨l, hl, z, hz, by rw [← hg l hl]; exact hlt, heq⟩

section PassZero
variable {inst : Instance} (wf : WellFormed inst)
include wf

theorem writtenBefore_done {pos : Position} {f : ℕ → ℕ} {i o : ℕ}
    (h : WrittenBefore inst pos i o)
    (hf : ∀ l < inst.lanes.toNat, l ≠ pos.lane.toNat →
      pos.slice.toNat * inst.segmentLength.toNat ≤ f l ∧ 2 ≤ f l)
    (hown : f pos.lane.toNat = pos.slice.toNat * inst.segmentLength.toNat + i)
    (hi : 2 ≤ f pos.lane.toNat) : o ∈ columnsDone inst f := by
  have hL := wf.lane_eq
  have hseg := wf.segment_ge
  obtain ⟨hlt, hcases⟩ := h
  have hz : o % inst.laneLength.toNat < inst.laneLength.toNat := Nat.mod_lt _ (by omega)
  have hl : o / inst.laneLength.toNat < inst.lanes.toNat := by
    rw [wf.blocks_eq] at hlt
    exact Nat.div_lt_of_lt_mul (by rw [Nat.mul_comm]; exact hlt)
  refine ⟨o / inst.laneLength.toNat, hl, o % inst.laneLength.toNat, hz, ?_,
    by rw [Nat.mul_comm]; exact (Nat.div_add_mod o _).symm⟩
  by_cases hlane : o / inst.laneLength.toNat = pos.lane.toNat
  · rw [hlane]
    rcases hcases with h | h | h <;> omega
  · have hfl := hf _ hl hlane
    rcases hcases with h | h | h
    · omega
    · omega
    · exact absurd h.1 hlane

theorem segment_readsWritten {pos : Position} (hs : InSlice inst pos) (hp : pos.pass = 0)
    (arena : Arena) {f : ℕ → ℕ}
    (hf : f pos.lane.toNat =
      pos.slice.toNat * inst.segmentLength.toNat + (startingIndex pos).toNat)
    (htwo : 2 ≤ f pos.lane.toNat)
    (hother : ∀ l < inst.lanes.toNat, l ≠ pos.lane.toNat →
      pos.slice.toNat * inst.segmentLength.toNat ≤ f l ∧ 2 ≤ f l)
    {written : Set ℕ} (hw : columnsDone inst f ⊆ written) (n : ℕ)
    (hn : n ≤ segmentBlocks inst pos) :
    let events := (List.range n).map fun k =>
      let x := (blockStep inst pos)^[k] (segmentStart inst pos, arena)
      (readsOf inst pos (access inst pos x.1 x.2), (access inst pos x.1 x.2).currOffset.toNat)
    ReadsWritten written events ∧
      columnsDone inst (Function.update f pos.lane.toNat (f pos.lane.toNat + n)) ⊆
        writtenAfter written events := by
  induction n with
  | zero =>
    refine ⟨trivial, ?_⟩
    rw [Nat.add_zero, Function.update_eq_self]
    exact fun o ho => Or.inl (hw ho)
  | succ n ih =>
    obtain ⟨hr, hc⟩ := ih (by omega)
    intro events
    have hcursor := iterate_cursor inst pos arena n (by omega) wf hs
    have hsplit : events = (List.range n).map (fun k =>
        let x := (blockStep inst pos)^[k] (segmentStart inst pos, arena)
        (readsOf inst pos (access inst pos x.1 x.2), (access inst pos x.1 x.2).currOffset.toNat)) ++
        [(readsOf inst pos (access inst pos
          ((blockStep inst pos)^[n] (segmentStart inst pos, arena)).1
          ((blockStep inst pos)^[n] (segmentStart inst pos, arena)).2),
          (access inst pos ((blockStep inst pos)^[n] (segmentStart inst pos, arena)).1
          ((blockStep inst pos)^[n] (segmentStart inst pos, arena)).2).currOffset.toNat)] := by
      change (List.range (n + 1)).map _ = _
      rw [List.range_succ, List.map_append]
      rfl
    generalize (blockStep inst pos)^[n] (segmentStart inst pos, arena) = x at hcursor hsplit
    have hacc := access_eq_accessAt inst pos x.1 x.2 n hcursor
    generalize (draw inst pos x.1 x.2).1 = J at hacc
    rw [hacc] at hsplit
    obtain ⟨href, hprev⟩ := accessAt_written wf hs n (by omega) J hp
    have hself : Function.update f pos.lane.toNat (f pos.lane.toNat + n) pos.lane.toNat =
        pos.slice.toNat * inst.segmentLength.toNat + ((startingIndex pos).toNat + n) := by
      rw [Function.update_self, hf, Nat.add_assoc]
    have hdone : ∀ o, WrittenBefore inst pos ((startingIndex pos).toNat + n) o →
        o ∈ columnsDone inst (Function.update f pos.lane.toNat (f pos.lane.toNat + n)) := by
      intro o ho
      refine writtenBefore_done wf ho ?_ hself (by rw [Function.update_self]; omega)
      intro l hl hne
      rw [Function.update_of_ne hne]
      exact hother l hl hne
    have hxor : withXor inst pos.pass = false := by
      unfold withXor
      rw [hp, decide_eq_false (not_not.mpr rfl), Bool.and_false]
    obtain ⟨z, -, -, hcurr, -, -, -⟩ := accessAt_columns wf hs n (by omega) J
    rw [hsplit]
    refine ⟨hr.append ⟨?_, trivial⟩, ?_⟩
    · intro o ho
      unfold readsOf at ho
      rw [hxor, if_neg Bool.false_ne_true, List.append_nil] at ho
      rcases List.mem_pair.mp ho with rfl | rfl
      · exact hc (hdone _ hprev)
      · exact hc (hdone _ href)
    · rw [writtenAfter_append]
      intro o ho
      obtain ⟨l, hl, z', hz', hlt, heq⟩ := ho
      by_cases hlast : l = pos.lane.toNat ∧ z' = f pos.lane.toNat + n
      · refine Or.inr (List.mem_singleton.mpr ?_)
        change o = (accessAt inst pos n J).currOffset.toNat
        rw [heq, hlast.1, hlast.2, hcurr, hf, Nat.add_assoc]
      · refine Or.inl (hc ⟨l, hl, z', hz', ?_, heq⟩)
        by_cases hlane : l = pos.lane.toNat
        · rw [hlane, Function.update_self] at hlt ⊢
          have hne : z' ≠ f pos.lane.toNat + n := fun h => hlast ⟨hlane, h⟩
          omega
        · rw [Function.update_of_ne hlane] at hlt ⊢
          exact hlt

theorem segment_covers {pos : Position} (hs : InSlice inst pos) (hp : pos.pass = 0)
    (arena : Arena) {f : ℕ → ℕ}
    (hf : f pos.lane.toNat = startColumn inst 0 pos.slice.toNat)
    (hother : ∀ l < inst.lanes.toNat, l ≠ pos.lane.toNat →
      pos.slice.toNat * inst.segmentLength.toNat ≤ f l ∧ 2 ≤ f l) :
    Covers inst [pos] arena f
      (Function.update f pos.lane.toNat ((pos.slice.toNat + 1) * inst.segmentLength.toNat)) := by
  have hseg := wf.segment_ge
  have hsl := zero_iff_toNat pos.slice
  have hle := @startingIndex_le inst pos wf
  have hstart : startColumn inst 0 pos.slice.toNat =
      pos.slice.toNat * inst.segmentLength.toNat + (startingIndex pos).toNat := by
    rw [startingIndex_toNat]
    unfold startColumn
    simp only [hp, hsl]
  have htwo : 2 ≤ f pos.lane.toNat := by
    rw [hf]
    unfold startColumn
    rcases Nat.eq_zero_or_pos pos.slice.toNat with h0 | hpos
    · rw [if_pos ⟨rfl, h0⟩]
      omega
    · have := Nat.le_mul_of_pos_left inst.segmentLength.toNat hpos
      omega
  intro written hw
  obtain ⟨hr, hc⟩ := segment_readsWritten wf hs hp arena (hf.trans hstart) htwo hother hw
    (segmentBlocks inst pos) le_rfl
  have hevents : traceEvents inst [pos] arena = (List.range (segmentBlocks inst pos)).map fun k =>
      let x := (blockStep inst pos)^[k] (segmentStart inst pos, arena)
      (readsOf inst pos (access inst pos x.1 x.2),
        (access inst pos x.1 x.2).currOffset.toNat) := by
    change eventsOf inst (pos, segmentTrace inst pos arena) ++ [] = _
    rw [List.append_nil]
    unfold eventsOf segmentTrace
    rw [List.map_map]
    rfl
  have hend : f pos.lane.toNat + segmentBlocks inst pos =
      (pos.slice.toNat + 1) * inst.segmentLength.toNat := by
    rw [hf, hstart, Nat.succ_mul]
    unfold segmentBlocks
    omega
  rw [hend] at hc
  rw [hevents]
  exact ⟨hr, hc⟩

theorem lanes_cover {slice : UInt32} (hslice : slice.toNat < 4) (arena : Arena) (m : ℕ)
    (hm : m ≤ inst.lanes.toNat) :
    Covers inst ((List.range m).map fun lane => lanePosition 0 slice lane) arena
      (fun _ => startColumn inst 0 slice.toNat)
      (fun l => if l < m then (slice.toNat + 1) * inst.segmentLength.toNat
        else startColumn inst 0 slice.toNat) := by
  induction m with
  | zero => exact fun written hw => ⟨trivial, fun o ho => Or.inl (hw ho)⟩
  | succ m ih =>
    have hseg := wf.segment_ge
    have hs := @lanePosition_inSlice inst 0 slice hslice m (by omega)
    have hlane := @lanePosition_lane inst 0 slice m (by omega)
    have hsucc : (slice.toNat + 1) * inst.segmentLength.toNat =
        slice.toNat * inst.segmentLength.toNat + inst.segmentLength.toNat := Nat.succ_mul _ _
    have hcol : slice.toNat * inst.segmentLength.toNat ≤ startColumn inst 0 slice.toNat ∧
        2 ≤ startColumn inst 0 slice.toNat := by
      unfold startColumn
      rcases Nat.eq_zero_or_pos slice.toNat with h0 | hpos
      · rw [if_pos ⟨rfl, h0⟩]
        omega
      · have := Nat.le_mul_of_pos_left inst.segmentLength.toNat hpos
        omega
    rw [List.range_succ, List.map_append]
    refine (ih (by omega)).append ((segment_covers wf hs rfl _ ?_ ?_).congr ?_)
    · rw [hlane, if_neg (Nat.lt_irrefl m)]
      rfl
    · intro l _ _
      change slice.toNat * _ ≤ _ ∧ _
      split_ifs
      · omega
      · exact hcol
    · intro l _
      rw [hlane]
      rcases lt_trichotomy l m with h | h | h
      · rw [Function.update_of_ne (by omega), if_pos h, if_pos (by omega)]
      · rw [h, Function.update_self, if_pos (by omega)]
        rfl
      · rw [Function.update_of_ne (by omega), if_neg (by omega), if_neg (by omega)]

theorem slices_cover (arena : Arena) (m : ℕ) (hm : m ≤ 4) :
    Covers inst ((List.range m).flatMap fun slice =>
        (List.range inst.lanes.toNat).map fun lane => lanePosition 0 (UInt32.ofNat slice) lane) arena
      (fun _ => startColumn inst 0 0) (fun _ => startColumn inst 0 m) := by
  induction m with
  | zero => exact fun written hw => ⟨trivial, fun o ho => Or.inl (hw ho)⟩
  | succ m ih =>
    have hslice : (UInt32.ofNat m).toNat = m :=
      UInt32.toNat_ofNat_of_lt' (Nat.lt_of_lt_of_le hm (by decide))
    have hlanes := fun a => @lanes_cover inst wf (UInt32.ofNat m) (by omega) a inst.lanes.toNat
      le_rfl
    rw [hslice] at hlanes
    rw [List.range_succ, List.flatMap_append, List.flatMap_singleton]
    refine (ih (by omega)).append ((hlanes _).congr fun l hl => ?_)
    unfold startColumn
    rw [if_pos hl, if_neg (by omega)]
    rfl

/-- Pass 0 reads no block before this run has written it: neither as previous nor as
reference block, and it xors into none. -/
theorem pass_zero_readsWritten (arena : Arena) :
    ReadsWritten (columnsDone inst fun _ => 2)
      (traceEvents inst (passPositions inst 0) arena) := by
  have h := slices_cover wf arena 4 le_rfl (columnsDone inst fun _ => 2) ?_
  · exact h.1
  · refine fun o ho => ?_
    have h2 : (fun _ : ℕ => startColumn inst 0 0) = fun _ => 2 := by
      funext l
      unfold startColumn
      rw [if_pos ⟨rfl, rfl⟩, Nat.zero_mul]
    rw [h2] at ho
    exact ho

end PassZero

end Argon2Rust.Trace
