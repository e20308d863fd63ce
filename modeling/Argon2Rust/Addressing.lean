import Argon2Rust.ReferenceWindow

set_option autoImplicit false

namespace Argon2Rust.Addressing
open Parameters Compression IndexAlpha Segment ReferenceWindow

/-- The input block of the address generator with its counter, word 6, set to `k`. -/
def counterBlock (inst : Instance) (pos : Position) (k : ℕ) : Block :=
  (addressInputBlock inst pos).set 6 (UInt64.ofNat k) counterWord_lt

def addresses (inst : Instance) (pos : Position) (k : ℕ) : Block :=
  compressG Block.zero (compressG Block.zero (counterBlock inst pos k))

theorem counterBlock_zero (inst : Instance) (pos : Position) :
    counterBlock inst pos 0 = addressInputBlock inst pos := by
  have h : (addressInputBlock inst pos)[6] = UInt64.ofNat 0 := by
    unfold addressInputBlock Block.zero
    simp only [Vector.getElem_set, Vector.getElem_replicate]
    rfl
  unfold counterBlock
  rw [← h]
  exact Vector.set_getElem_self _

theorem nextAddresses_counterBlock (inst : Instance) (pos : Position) (a : Block) (k : ℕ) :
    nextAddresses a (counterBlock inst pos k) =
      (addresses inst pos (k + 1), counterBlock inst pos (k + 1)) := by
  have h : (counterBlock inst pos k).set 6
      ((counterBlock inst pos k).get ⟨6, counterWord_lt⟩ + 1) counterWord_lt =
        counterBlock inst pos (k + 1) := by
    change (counterBlock inst pos k).set 6 ((counterBlock inst pos k)[6] + 1) = _
    unfold counterBlock
    rw [Vector.getElem_set_self, Vector.set_set, UInt64.ofNat_add]
    rfl
  refine Prod.ext ?_ ?_
  · rw [nextAddresses_fst, h]
    rfl
  · rw [nextAddresses_snd, h]

/-- The address generator before iteration `i`: one block for every 128 indices begun. -/
structure AddressesOk (inst : Instance) (pos : Position) (i : ℕ) (s : SegmentState) : Prop where
  input_eq : s.inputBlock = counterBlock inst pos ((i + 127) / 128)
  address_eq : 0 < i → s.addressBlock = addresses inst pos ((i + 127) / 128)

section Independent
variable {inst : Instance} {pos : Position} (wf : WellFormed inst) (hs : InSlice inst pos)
  (hd : dataIndependentAddressing inst pos = true)
include hd

theorem addressesOk_start :
    AddressesOk inst pos (startingIndex pos).toNat (segmentStart inst pos) := by
  rw [startingIndex_toNat]
  unfold segmentStart
  dsimp only
  rw [if_pos hd]
  by_cases h : pos.pass = 0 ∧ pos.slice = 0
  · have h' : pos.pass = 0 ∧ pos.slice = 0 ∧ dataIndependentAddressing inst pos = true :=
      ⟨h.1, h.2, hd⟩
    rw [if_pos h, if_pos h', ← counterBlock_zero, nextAddresses_counterBlock]
    exact ⟨rfl, fun _ => rfl⟩
  · have h' : ¬ (pos.pass = 0 ∧ pos.slice = 0 ∧ dataIndependentAddressing inst pos = true) :=
      fun hc => h ⟨hc.1, hc.2.1⟩
    rw [if_neg h, if_neg h']
    refine ⟨(counterBlock_zero inst pos).symm, fun hlt => ?_⟩
    exact absurd hlt (Nat.lt_irrefl 0)

theorem draw_independent {i : ℕ} {s : SegmentState} (h : AddressesOk inst pos i s)
    (hi : (s.cursor.rotate inst).i.toNat = i) (arena : Arena) :
    draw inst pos s arena =
      (slotWord (addresses inst pos (i / 128 + 1)) (s.cursor.rotate inst).i,
        ⟨s.cursor.rotate inst, addresses inst pos (i / 128 + 1),
          counterBlock inst pos (i / 128 + 1)⟩) := by
  have hz : (s.cursor.rotate inst).i % 128 = 0 ↔ i % 128 = 0 := by
    rw [← UInt32.toNat_inj, UInt32.toNat_mod, hi]
    rfl
  unfold draw
  dsimp only
  rw [if_pos hd]
  by_cases h0 : (s.cursor.rotate inst).i % 128 = 0
  · have hk : (i + 127) / 128 = i / 128 := by
      have := hz.mp h0
      omega
    rw [if_pos h0, h.input_eq, nextAddresses_counterBlock, hk]
  · have hne : ¬ i % 128 = 0 := fun hc => h0 (hz.mpr hc)
    have hk : (i + 127) / 128 = i / 128 + 1 := by omega
    rw [if_neg h0, h.input_eq, h.address_eq (by omega), hk]

include wf hs

theorem addressesOk_iterate (arena : Arena) (n : ℕ) (hn : n ≤ segmentBlocks inst pos) :
    AddressesOk inst pos ((startingIndex pos).toNat + n)
      ((blockStep inst pos)^[n] (segmentStart inst pos, arena)).1 := by
  induction n with
  | zero => exact addressesOk_start hd
  | succ n ih =>
    have hc := iterate_cursor inst pos arena n (by omega) wf hs
    have hok := cursorOk_at wf hs n (by omega)
    have hlt : (startingIndex pos).toNat + n < inst.segmentLength.toNat := by
      unfold segmentBlocks at hn
      omega
    have hidx := (hok.rotate wf hs hlt).1
    have hguard := hok.index
    rw [← hc] at hidx hguard
    have hdraw := draw_independent hd (ih (by omega)) hidx
    have hk : ((startingIndex pos).toNat + n + 1 + 127) / 128 =
        ((startingIndex pos).toNat + n) / 128 + 1 := by omega
    rw [Function.iterate_succ_apply', ← Nat.add_assoc]
    generalize (blockStep inst pos)^[n] (segmentStart inst pos, arena) = x at *
    unfold blockStep
    rw [if_pos (by rw [UInt32.lt_iff_toNat_lt, hguard]; exact hlt)]
    dsimp only
    rw [hdraw]
    exact ⟨by rw [hk], fun _ => by rw [hk]⟩

/-- The pseudo-random value of iteration `n` does not depend on the arena. -/
theorem draw_iterate (arena : Arena) (n : ℕ) (hn : n < segmentBlocks inst pos) :
    let x := (blockStep inst pos)^[n] (segmentStart inst pos, arena)
    (draw inst pos x.1 x.2).1 =
      slotWord (addresses inst pos (((startingIndex pos).toNat + n) / 128 + 1))
        ((Cursor.at inst pos n).rotate inst).i := by
  intro x
  have hc : x.1.cursor = Cursor.at inst pos n :=
    iterate_cursor inst pos arena n (by omega) wf hs
  have hlt : (startingIndex pos).toNat + n < inst.segmentLength.toNat := by
    unfold segmentBlocks at hn
    omega
  have hidx := ((cursorOk_at wf hs n (by omega)).rotate wf hs hlt).1
  rw [← hc] at hidx
  rw [draw_independent hd (addressesOk_iterate wf hs hd arena n (by omega)) hidx, hc]

theorem segmentTrace_independent (arena : Arena) :
    segmentTrace inst pos arena =
      (List.range (segmentBlocks inst pos)).map fun n =>
        accessAt inst pos n
          (slotWord (addresses inst pos (((startingIndex pos).toNat + n) / 128 + 1))
            ((Cursor.at inst pos n).rotate inst).i) := by
  unfold segmentTrace
  refine List.map_congr_left fun n hmem => ?_
  have hn := List.mem_range.mp hmem
  dsimp only
  rw [access_eq_accessAt _ _ _ _ n (iterate_cursor inst pos arena n (by omega) wf hs)]
  exact congrArg _ (draw_iterate wf hs hd arena n hn)

end Independent

end Argon2Rust.Addressing
