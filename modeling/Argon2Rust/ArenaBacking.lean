import Argon2Rust.Mapping

set_option autoImplicit false

namespace Argon2Rust.ArenaBacking
open Parameters Compression Hash Memory Programs Tiling AddressSpace Mapping

def hugePage : ℕ := 2 * 1024 * 1024

def mmapThreshold : ℕ := hugePage

inductive Backing where
  | heap
  | mapped (base len : ℕ) (huge : Bool)

structure Placed where
  ptr : ℕ
  arena : Memory.Arena
  backing : Backing

def freshArena (blocks : ℕ) : Memory.Arena :=
  { memory := Array.replicate blocks Block.zero, blocks, zeroed := true }

section Source
variable (w : PointerWidth) (k : Kernel) (adviseHuge : Piece → Bool) (allocZeroed : ℕ → ℕ)

/-- The mapping of an arena that is worth one, where the system makes it. -/
def tryMap (bytes : ℕ) : Program (List Call) Error (Option Piece) := fun calls =>
  if bytes ≥ mmapThreshold then
    (mapAligned w k bytes hugePage calls).map fun run => (.ok run.1.toOption, run.2)
  else some (.ok none, calls)

def new (blocks : ℕ) : Program (List Call) Error Placed := do
  let bytes ← Program.lift (checkedLayout w blocks)
  let arena := freshArena blocks
  match ← tryMap w k bytes with
  | some (base, len) =>
    let huge := adviseHuge (base, len)
    -- The `debug_assert` of the source.
    Program.access (if base % arenaAlign = 0 then some () else none)
    pure ⟨base, arena, .mapped base len huge⟩
  | none =>
    let raw := allocZeroed bytes
    if raw = 0 then Program.lift (.error .memoryAllocationError)
    else pure ⟨raw, arena, .heap⟩

end Source

/-- The system answers as documented, for pages that divide a huge one. -/
structure Lawful (w : PointerWidth) (k : Kernel) : Prop where
  page_dvd : pageSize k ∣ hugePage
  answers : ∀ len, k.mmap len = mapFailed w ∨ Grants w (pageSize k) len (k.mmap len)

/-- Requests for mappings that were all refused. -/
def Quiet (w : PointerWidth) (calls : List Mapping.Call) : Prop :=
  ∀ call ∈ calls, ∃ len, call = .mmap len (mapFailed w)

section New
variable {w : PointerWidth} {k : Kernel}

variable (hk : Lawful w k)
include hk

theorem tryMap_outcomes {bytes : ℕ} (hbytes : bytes < 2 ^ w.bits) :
    (∃ made, Quiet w made ∧ ∀ calls, tryMap w k bytes calls = some (.ok none, calls ++ made)) ∨
    ∃ raw, Grants w (pageSize k) (overLen k bytes hugePage) raw ∧ ∀ calls,
      tryMap w k bytes calls = some (.ok (some (raw + headLen hugePage raw, roundedLen k bytes)),
        calls ++ .mmap (overLen k bytes hugePage) raw ::
          unmapping (slackOf hugePage raw (roundedLen k bytes))) := by
  have hnone : Quiet w [] := fun _ h => absurd h List.not_mem_nil
  unfold tryMap
  by_cases hlarge : bytes ≥ mmapThreshold
  · simp only [if_pos hlarge]
    by_cases hover : overLen k bytes hugePage < 2 ^ w.bits
    · rcases hk.answers (overLen k bytes hugePage) with hrefused | hgrants
      · refine Or.inl ⟨[.mmap (overLen k bytes hugePage) (mapFailed w)], ?_, fun calls => ?_⟩
        · intro call hcall
          exact ⟨_, List.mem_singleton.mp hcall⟩
        · rw [mapAligned_refused hbytes hover (Or.inl hrefused), hrefused]
          rfl
      · refine Or.inr ⟨k.mmap (overLen k bytes hugePage), hgrants, fun calls => ?_⟩
        rw [mapAligned_granted hbytes hover (by decide) hgrants]
        rfl
    · refine Or.inl ⟨[], hnone, fun calls => ?_⟩
      rw [mapAligned_overflow hbytes (not_lt.mp hover), List.append_nil]
      rfl
  · simp only [if_neg hlarge]
    exact Or.inl ⟨[], hnone, fun calls => by rw [List.append_nil]⟩

omit hk in
theorem new_mapped {adviseHuge : Piece → Bool} {allocZeroed : ℕ → ℕ} {blocks bytes : ℕ}
    {kept : Piece} {made : List Call} (hlayout : checkedLayout w blocks = .ok bytes)
    (hrun : tryMap w k bytes [] = some (.ok (some kept), made)) (haligned : arenaAlign ∣ kept.1) :
    new w k adviseHuge allocZeroed blocks [] =
      some (.ok ⟨kept.1, freshArena blocks, .mapped kept.1 kept.2 (adviseHuge kept)⟩, made) := by
  unfold new
  rw [hlayout, Program.lift_ok_bind, Program.bind_of_ok hrun]
  dsimp only
  rw [if_pos (Nat.mod_eq_zero_of_dvd haligned)]
  rfl

/-- A new arena is refused, or on the heap, or in a mapping of its own. -/
theorem new_outcomes (adviseHuge : Piece → Bool) (allocZeroed : ℕ → ℕ) (blocks : ℕ) :
    (∃ made e, Quiet w made ∧ Memory.Arena.new w (fun _ => false) blocks = .error e ∧
      new w k adviseHuge allocZeroed blocks [] = some (.error e, made)) ∨
    (∃ made ptr, Quiet w made ∧ checkedLayout w blocks = .ok (blocks * blockSize) ∧
      new w k adviseHuge allocZeroed blocks [] =
        some (.ok ⟨ptr, freshArena blocks, .heap⟩, made)) ∨
    ∃ raw huge, checkedLayout w blocks = .ok (blocks * blockSize) ∧
      Grants w (pageSize k) (overLen k (blocks * blockSize) hugePage) raw ∧
      new w k adviseHuge allocZeroed blocks [] =
        some (.ok ⟨raw + headLen hugePage raw, freshArena blocks, .mapped
            (raw + headLen hugePage raw) (roundedLen k (blocks * blockSize)) huge⟩,
          .mmap (overLen k (blocks * blockSize) hugePage) raw ::
            unmapping (slackOf hugePage raw (roundedLen k (blocks * blockSize)))) := by
  cases hlayout : checkedLayout w blocks with
  | error e =>
    refine Or.inl ⟨[], e, fun _ h => absurd h List.not_mem_nil, ?_, ?_⟩
    · unfold Memory.Arena.new
      rw [hlayout]
      rfl
    · unfold new
      rw [hlayout]
      rfl
  | ok bytes =>
    obtain ⟨⟨-, hwide, -⟩, rfl⟩ := (checkedLayout_ok_iff w blocks bytes).mp hlayout
    obtain ⟨made, hquiet, hrun⟩ | ⟨raw, hgrants, hrun⟩ := tryMap_outcomes hk hwide
    · unfold new
      rw [hlayout, Program.lift_ok_bind, Program.bind_of_ok (hrun [])]
      dsimp only
      by_cases hnull : allocZeroed (blocks * blockSize) = 0
      · rw [if_pos hnull]
        refine Or.inl ⟨made, .memoryAllocationError, hquiet, ?_, rfl⟩
        unfold Memory.Arena.new
        rw [hlayout]
        rfl
      · rw [if_neg hnull]
        exact Or.inr (Or.inl ⟨made, _, hquiet, rfl, rfl⟩)
    · have hbase : hugePage ∣ raw + headLen hugePage raw := by
        rw [add_headLen raw (by decide)]
        exact Nat.dvd_mul_right _ _
      have haligned : arenaAlign ∣ raw + headLen hugePage raw :=
        (by decide : arenaAlign ∣ hugePage).trans hbase
      exact Or.inr (Or.inr ⟨raw,
        adviseHuge (raw + headLen hugePage raw, roundedLen k (blocks * blockSize)), rfl, hgrants,
        new_mapped hlayout (hrun []) haligned⟩)

theorem new_arena (adviseHuge : Piece → Bool) (allocZeroed : ℕ → ℕ) (blocks : ℕ) :
    ∃ result made served, new w k adviseHuge allocZeroed blocks [] = some (result, made) ∧
      result.map Placed.arena = Memory.Arena.new w (fun _ => served) blocks := by
  have hserved (h : checkedLayout w blocks = .ok (blocks * blockSize)) :
      Memory.Arena.new w (fun _ => true) blocks = .ok (freshArena blocks) := by
    unfold Memory.Arena.new
    rw [h]
    rfl
  obtain ⟨made, e, -, hmodel, hnew⟩ | ⟨made, ptr, -, hlayout, hnew⟩ |
    ⟨raw, huge, hlayout, -, hnew⟩ := new_outcomes hk adviseHuge allocZeroed blocks
  · exact ⟨_, _, false, hnew, hmodel.symm⟩
  · exact ⟨_, _, true, hnew, (hserved hlayout).symm⟩
  · exact ⟨_, _, true, hnew, (hserved hlayout).symm⟩

end New

end Argon2Rust.ArenaBacking
