import Argon2Rust.Trace

set_option autoImplicit false

namespace Argon2Rust.Independence
open Parameters Compression IndexAlpha Segment ReferenceWindow Addressing Blake2 Fill Hash
  Recurrence Refinement TagCorrectness Trace

theorem pooledFill_eq {inst : Instance} (wf : WellFormed inst) (scheduler : Scheduler)
    (arena : Arena) : pooledFill scheduler inst arena = fillMemoryBlocksSt inst arena :=
  fillMemoryBlocks_eq wf (scheduler inst) arena

/-- Two parameter sets that agree up to the thread count. -/
structure SameCosts {w : PointerWidth} (p p' : Params w) : Prop where
  memory_eq : p.mCost = p'.mCost
  passes_eq : p.tCost = p'.tCost
  lanes_eq : p.lanes = p'.lanes
  outputLen_eq : p.outputLen = p'.outputLen

theorem hashInArena_eq_St {w : PointerWidth} (compress : CompressFn)
    {fill : Instance → Arena → Except Error Arena} (algorithm : Algorithm) (version : Version)
    (p : Params w)
    (hfill : ∀ arena, fill (Instance.new algorithm version p) arena =
      fillMemoryBlocksSt (Instance.new algorithm version p) arena)
    (arena : Arena) (x : Inputs) (out : List UInt8) :
    hashInArena compress fill arena algorithm version p x out =
      hashInArenaSt compress arena algorithm version p x out := by
  unfold hashInArenaSt
  rw [hashInArena_steps, hashInArena_steps]
  simp only [hfill]

theorem hashInArenaSt_sameCosts {w : PointerWidth} (compress : CompressFn) (algorithm : Algorithm)
    (version : Version) {p p' : Params w} (h : SameCosts p p') (arena : Arena) (x : Inputs)
    (out : List UInt8) :
    hashInArenaSt compress arena algorithm version p x out =
      hashInArenaSt compress arena algorithm version p' x out := by
  obtain ⟨m, t, l, thr, o, hv⟩ := p
  obtain ⟨m', t', l', thr', o', hv'⟩ := p'
  obtain ⟨hm, ht, hl, ho⟩ := h
  dsimp only at hm ht hl ho
  subst hm ht hl ho
  rfl

/-- Schedule independence: any interleaving of a slice's block steps leaves the arena of
the sequential slice, and neither the arena nor the tag of a hash depends on the
schedules of the pool or on the number of threads. -/
theorem fill_schedule_independent {w : PointerWidth} (compress : CompressFn)
    (algorithm : Algorithm) (version : Version) (p : Params w) :
    (∀ pass slice : UInt32, slice.toNat < 4 →
      ∀ (schedule : Schedule (Instance.new algorithm version p) pass slice) (arena : Arena),
        fillSliceWith (Instance.new algorithm version p) pass slice schedule arena =
          fillSliceSt (Instance.new algorithm version p) pass slice arena) ∧
    (∀ (schedules : ∀ pass slice, Schedule (Instance.new algorithm version p) pass slice)
      (arena : Arena),
        fillMemoryBlocks (Instance.new algorithm version p) schedules arena =
          fillMemoryBlocksSt (Instance.new algorithm version p) arena) ∧
    ∀ p' : Params w, SameCosts p p' →
      ∀ (scheduler scheduler' : Scheduler) (arena : Arena) (x : Inputs) (out : List UInt8),
        hashInArena compress (pooledFill scheduler) arena algorithm version p x out =
          hashInArena compress (pooledFill scheduler') arena algorithm version p' x out := by
  have wf := new_wellFormed algorithm version p
  refine ⟨?_, ?_, ?_⟩
  · intro pass slice hslice schedule arena
    exact fillSliceWith_eq wf hslice schedule arena
  · intro schedules arena
    exact fillMemoryBlocks_eq wf schedules arena
  · intro p' h scheduler scheduler' arena x out
    rw [hashInArena_eq_St compress algorithm version p (pooledFill_eq wf scheduler),
      hashInArena_eq_St compress algorithm version p'
        (pooledFill_eq (new_wellFormed algorithm version p') scheduler')]
    exact hashInArenaSt_sameCosts compress algorithm version h arena x out

def twoLanes : Params .bits64 where
  mCost := 16
  tCost := 1
  lanes := 2
  threads := 2
  outputLen := 4
  valid := by decide

def nested : Schedule (Instance.new .argon2id .v0x13 twoLanes) 0 1 where
  order := [⟨0, by decide⟩, ⟨1, by decide⟩, ⟨1, by decide⟩, ⟨0, by decide⟩]
  complete := by decide

theorem fill_schedule_independent_nested :
    fillSliceWith (Instance.new .argon2id .v0x13 twoLanes) 0 1 nested
        (countedArena 16) =
      fillSliceSt (Instance.new .argon2id .v0x13 twoLanes) 0 1 (countedArena 16) :=
  (fill_schedule_independent compressScalar .argon2id .v0x13 twoLanes).1 0 1 (by decide) nested
    (countedArena 16)

/-- Independence from the previous contents of the arena, and the access discipline of
pass 0 behind it. -/
theorem hash_arena_independent {w : PointerWidth} (compress : CompressFn) (algorithm : Algorithm)
    (version : Version) (p : Params w) (x : Inputs) (arena arena' : Arena)
    (hsize : arena.size = p.memoryBlocks.toNat) (hsize' : arena'.size = p.memoryBlocks.toNat)
    (out out' : List UInt8) (hout : out.length = p.tagLenBytes)
    (hout' : out'.length = p.tagLenBytes) :
    (∃ tag, hashInArenaSt compress arena algorithm version p x out = .ok tag ∧
      hashInArenaSt compress arena' algorithm version p x out' = .ok tag) ∧
    ∀ filled, fillFirstBlocks w compress (blockhash compress algorithm version p x) arena p.lanes
        p.laneLength = .ok filled →
      ReadsWritten (columnsDone (Instance.new algorithm version p) fun _ => 2)
        (traceEvents (Instance.new algorithm version p)
          (passPositions (Instance.new algorithm version p) 0) filled) := by
  constructor
  · exact ⟨rfcTag compress algorithm version p x,
      hashInArena_eq_rfcTag compress fillMemoryBlocksSt algorithm version p x (fun _ => rfl) arena
        hsize out hout,
      hashInArena_eq_rfcTag compress fillMemoryBlocksSt algorithm version p x (fun _ => rfl) arena'
        hsize' out' hout'⟩
  · intro filled _
    exact pass_zero_readsWritten (new_wellFormed algorithm version p) filled

theorem hash_arena_independent_least :
    ∃ tag, hashInArenaSt compressScalar (Array.replicate 8 Block.zero) .argon2d .v0x10 Params.least
          ⟨[112], [1, 2, 3, 4, 5, 6, 7, 8], [], []⟩ [0, 0, 0, 0] = .ok tag ∧
        hashInArenaSt compressScalar (Array.replicate 8 (Vector.replicate 128 7)) .argon2d .v0x10
          Params.least ⟨[112], [1, 2, 3, 4, 5, 6, 7, 8], [], []⟩ [9, 9, 9, 9] = .ok tag :=
  (hash_arena_independent compressScalar .argon2d .v0x10 Params.least _
    (Array.replicate 8 Block.zero) (Array.replicate 8 (Vector.replicate 128 7))
    (Array.size_replicate.trans (by decide)) (Array.size_replicate.trans (by decide))
    [0, 0, 0, 0] [9, 9, 9, 9] (by decide) (by decide)).1

theorem independent_iff {inst : Instance} {pos : Position} :
    dataIndependentAddressing inst pos = true ↔
      inst.algorithm = .argon2i ∨
        (inst.algorithm = .argon2id ∧ pos.pass = 0 ∧ pos.slice.toNat < 2) := by
  have hsl : pos.slice < syncPoints / 2 ↔ pos.slice.toNat < 2 := UInt32.lt_iff_toNat_lt
  unfold dataIndependentAddressing
  simp only [Bool.or_eq_true, Bool.and_eq_true, decide_eq_true_eq, hsl, and_assoc]

theorem hashTrace_ok {w : PointerWidth} (compress : CompressFn) (algorithm : Algorithm)
    (version : Version) (p : Params w) (x : Inputs) (arena : Arena)
    (hsize : arena.size = p.memoryBlocks.toNat) :
    ∃ filled, hashTrace compress arena algorithm version p x =
      .ok (fillTrace (Instance.new algorithm version p)
        (positions (Instance.new algorithm version p)) filled) := by
  obtain ⟨filled, hfirst, -⟩ := fillFirstBlocks_holds compress algorithm version p x arena hsize
  refine ⟨filled, ?_⟩
  unfold hashTrace
  rw [initialHash_ok, ok_bind, hfirst, ok_bind]

/-- Data-independent addressing: the pseudo-random word of every index, the accesses of
a segment, and those of whole runs over different secrets and arenas. -/
theorem addressing_data_independent {w : PointerWidth} (compress : CompressFn)
    (algorithm : Algorithm) (version : Version) (p : Params w) :
    (∀ pos : Position, InSlice (Instance.new algorithm version p) pos →
      (algorithm = .argon2i ∨ (algorithm = .argon2id ∧ pos.pass = 0 ∧ pos.slice.toNat < 2)) →
      ∀ (arena : Arena) (n : ℕ), n < segmentBlocks (Instance.new algorithm version p) pos →
        let x := (blockStep (Instance.new algorithm version p) pos)^[n]
          (segmentStart (Instance.new algorithm version p) pos, arena)
        let i := (startingIndex pos).toNat + n
        x.1.cursor.i.toNat = i ∧
          (draw (Instance.new algorithm version p) pos x.1 x.2).1 =
            (compressG Block.zero (compressG Block.zero
              ((addressInputBlock (Instance.new algorithm version p) pos).set 6
                (UInt64.ofNat (i / 128 + 1))))).get ⟨i % 128, Nat.mod_lt i (by decide)⟩) ∧
    (∀ pos : Position, InSlice (Instance.new algorithm version p) pos →
      (algorithm = .argon2i ∨ (algorithm = .argon2id ∧ pos.pass = 0 ∧ pos.slice.toNat < 2)) →
      ∀ arena arena' : Arena, segmentTrace (Instance.new algorithm version p) pos arena =
        segmentTrace (Instance.new algorithm version p) pos arena') ∧
    ∀ (x x' : Inputs) (arena arena' : Arena), arena.size = p.memoryBlocks.toNat →
      arena'.size = p.memoryBlocks.toNat →
      (hashTrace compress arena algorithm version p x).map
          (List.filter fun e => dataIndependentAddressing (Instance.new algorithm version p) e.1) =
        (hashTrace compress arena' algorithm version p x').map
          (List.filter fun e =>
            dataIndependentAddressing (Instance.new algorithm version p) e.1) := by
  have wf := new_wellFormed algorithm version p
  refine ⟨?_, ?_, ?_⟩
  · intro pos hs hind arena n hn
    have hd := (@independent_iff (Instance.new algorithm version p) _).mpr hind
    have hlt : (startingIndex pos).toNat + n < p.segmentLength.toNat := by
      unfold segmentBlocks at hn
      change n < p.segmentLength.toNat - _ at hn
      omega
    have hok := cursorOk_at wf hs n (by omega)
    have hidx := (hok.rotate wf hs hlt).1
    have hcursor := iterate_cursor _ pos arena n (by omega) wf hs
    have hdraw := draw_iterate wf hs hd arena n hn
    intro x i
    refine ⟨by rw [hcursor]; exact hok.index, hdraw.trans ?_⟩
    unfold slotWord addresses counterBlock
    have hslot : (((Cursor.at (Instance.new algorithm version p) pos n).rotate
        (Instance.new algorithm version p)).i % 128).toNat = i % 128 := by
      rw [UInt32.toNat_mod, hidx]
      rfl
    simp only [hslot]
    rfl
  · intro pos hs hind arena arena'
    have hd := (@independent_iff (Instance.new algorithm version p) _).mpr hind
    rw [segmentTrace_independent wf hs hd, segmentTrace_independent wf hs hd]
  · intro x x' arena arena' hsize hsize'
    obtain ⟨filled, htrace⟩ := hashTrace_ok compress algorithm version p x arena hsize
    obtain ⟨filled', htrace'⟩ := hashTrace_ok compress algorithm version p x' arena' hsize'
    rw [htrace, htrace']
    exact congrArg Except.ok
      (fillTrace_filter_eq wf _ (fun pos h => mem_positions h) filled filled')

theorem addressing_data_independent_least :
    segmentTrace (Instance.new .argon2i .v0x13 Params.least) ⟨0, 0, 2, 0⟩
        (Array.replicate 8 Block.zero) =
      segmentTrace (Instance.new .argon2i .v0x13 Params.least) ⟨0, 0, 2, 0⟩
        (Array.replicate 8 (Vector.replicate 128 7)) :=
  (addressing_data_independent compressScalar .argon2i .v0x13 Params.least).2.1 ⟨0, 0, 2, 0⟩
    ⟨by decide, by decide⟩ (Or.inl rfl) _ _

end Argon2Rust.Independence
