import Argon2Rust.Memory
import Argon2Rust.ParallelWipe

set_option autoImplicit false

namespace Argon2Rust.ArenaWipe
open Parameters Compression Hash Memory Tiling Tally StripePlan ParallelWipe

/-- The `k`-th byte of a word in memory, on a machine of either byte order. -/
def wordByte (bigEndian : Bool) (x : UInt64) (k : ℕ) : UInt8 :=
  (x >>> UInt64.ofNat (8 * if bigEndian then 7 - k else k)).toUInt8

def image (bigEndian : Bool) (memory : Array Block) : Bytes := fun b =>
  wordByte bigEndian ((memory.getD (b / blockSize) Block.zero).get
    ⟨b / 8 % 128, Nat.mod_lt _ (by decide)⟩) (b % 8)

section Images
variable {bigEndian : Bool}

theorem wordByte_toNat (x : UInt64) {k : ℕ} (hk : k < 8) :
    (wordByte bigEndian x k).toNat = x.toNat / 2 ^ (8 * if bigEndian then 7 - k else k) % 256 := by
  have hlt : 8 * (if bigEndian then 7 - k else k) < 64 := by split <;> omega
  unfold wordByte
  rw [UInt64.toNat_toUInt8, UInt64.toNat_shiftRight, UInt64.toNat_ofNat', Nat.shiftRight_eq_div_pow]
  congr 3
  omega

theorem zero_byte (i : Fin 128) (k : ℕ) : wordByte bigEndian (Block.zero.get i) k = 0 := by
  have hword : Block.zero.get i = 0 := Vector.getElem_replicate i.isLt
  unfold wordByte
  rw [hword, UInt64.zero_shiftRight]
  rfl

theorem wordByte_inj {x y : UInt64} (h : ∀ k < 8, wordByte bigEndian x k = wordByte bigEndian y k) :
    x = y := by
  have hbyte : ∀ k < 8, x.toNat / 2 ^ (8 * k) % 256 = y.toNat / 2 ^ (8 * k) % 256 := by
    intro k hk
    cases bigEndian with
    | false =>
      have heq := congrArg UInt8.toNat (h k hk)
      rw [wordByte_toNat x hk, wordByte_toNat y hk] at heq
      exact heq
    | true =>
      have heq := congrArg UInt8.toNat (h (7 - k) (by omega))
      rw [wordByte_toNat x (by omega), wordByte_toNat y (by omega)] at heq
      rw [if_pos rfl, show 7 - (7 - k) = k by omega] at heq
      exact heq
  have h0 := hbyte 0 (by decide)
  have h1 := hbyte 1 (by decide)
  have h2 := hbyte 2 (by decide)
  have h3 := hbyte 3 (by decide)
  have h4 := hbyte 4 (by decide)
  have h5 := hbyte 5 (by decide)
  have h6 := hbyte 6 (by decide)
  have h7 := hbyte 7 (by decide)
  have hx := x.toNat_lt
  have hy := y.toNat_lt
  norm_num at h0 h1 h2 h3 h4 h5 h6 h7
  rw [← UInt64.toNat_inj]
  omega

theorem image_inj {memory memory' : Array Block} (hsize : memory'.size = memory.size)
    (h : image bigEndian memory' = image bigEndian memory) : memory' = memory := by
  refine Array.ext hsize fun i hi hi' => Vector.ext fun k hk => ?_
  refine @wordByte_inj bigEndian _ _ fun j hj => ?_
  have hbyte := congrFun h (i * blockSize + (k * 8 + j))
  have hblock : (i * blockSize + (k * 8 + j)) / blockSize = i := by
    unfold blockSize
    omega
  have hword : (i * blockSize + (k * 8 + j)) / 8 % 128 = k := by
    unfold blockSize
    omega
  have hpart : (i * blockSize + (k * 8 + j)) % 8 = j := by
    unfold blockSize
    omega
  simp only [image, hblock, hword, hpart, Array.getD_eq_getD_getElem?, Array.getElem?_eq_getElem hi,
    Array.getElem?_eq_getElem hi', Option.getD_some] at hbyte
  exact hbyte

theorem image_secureWipe (memory : Array Block) (n : ℕ) :
    image bigEndian (secureWipe memory n) =
      fun b => if b < n * blockSize then 0 else image bigEndian memory b := by
  funext b
  have hwindow : b / blockSize < n ↔ b < n * blockSize := Nat.div_lt_iff_lt_mul (by decide)
  unfold image
  by_cases hsize : b / blockSize < memory.size
  · have hsize' : b / blockSize < (secureWipe memory n).size := by
      rw [size_secureWipe]
      exact hsize
    rw [Array.getD_eq_getD_getElem?, Array.getElem?_eq_getElem hsize', Option.getD_some,
      getElem_secureWipe memory n _ hsize' hsize]
    by_cases hb : b < n * blockSize
    · rw [if_pos hb, if_pos (hwindow.mpr hb)]
      exact zero_byte _ _
    · rw [if_neg hb, if_neg (mt hwindow.mp hb), Array.getD_eq_getD_getElem?,
        Array.getElem?_eq_getElem hsize, Option.getD_some]
  · have houtside : ∀ m : Array Block, m.size = memory.size → m.getD (b / blockSize) Block.zero =
        Block.zero := by
      intro m hm
      rw [Array.getD_eq_getD_getElem?, Array.getElem?_eq_none (by omega), Option.getD_none]
    rw [houtside _ (size_secureWipe memory n), houtside _ rfl, zero_byte, ite_self]

end Images

def wipeThreadThreshold : ℕ := 64 * 1024 * 1024

def wipeWorkers (workers : UInt32) (bytes : ℕ) : UInt32 :=
  if bytes ≥ wipeThreadThreshold then workers else 1

section Source
variable (wipeEnabled : Bool) (w : PointerWidth) (t : Threads) (bigEndian : Bool) (a : Arena)

/-- What `wipe_visible` makes of an arena, by some run of the threads. -/
inductive WipeVisible : Arena → Prop where
  | disabled (h : wipeEnabled = false) : WipeVisible a
  | wiped (h : wipeEnabled = true) (bytes : ℕ)
      (hbytes : Capacity.mulUsize w a.blocks blockSize = some bytes) (memory : Array Block)
      (hsize : memory.size = a.memory.size)
      (run : Wiped w t bytes (wipeWorkers t.workers bytes) arenaAlign (image bigEndian a.memory)
        (image bigEndian memory)) : WipeVisible { a with memory, zeroed := true }

/-- The memory that a drop hands back; a thread that unwinds starts no other. -/
inductive Dropped (panicking : Bool) : Array Block → Prop where
  | known (h : a.zeroed = true) : Dropped panicking a.memory
  | wiped (h : a.zeroed = false) (a' : Arena)
      (run : WipeVisible wipeEnabled w
        { t with workers := if t.parallel && panicking then 1 else t.workers } bigEndian a a') :
      Dropped panicking a'.memory

end Source

/-- The window lies in an allocation that has a layout. -/
structure Laid (w : PointerWidth) (a : Arena) : Prop where
  blocks_le : a.blocks ≤ a.capacity
  layout : ∃ bytes, checkedLayout w a.capacity = .ok bytes

section Wipes
variable {w : PointerWidth} {t : Threads} {bigEndian : Bool} {a : Arena}

theorem Laid.bytes_le (h : Laid w a) : a.blocks * blockSize ≤ 2 ^ (w.bits - 1) - arenaAlign := by
  obtain ⟨bytes, hlayout⟩ := h.layout
  obtain ⟨⟨-, -, hle⟩, -⟩ := (checkedLayout_ok_iff w _ _).mp hlayout
  exact (Nat.mul_le_mul_right blockSize h.blocks_le).trans hle

theorem Laid.bytes_lt (h : Laid w a) : a.blocks * blockSize < 2 ^ w.bits := by
  have hpow : 2 ^ (w.bits - 1) < 2 ^ w.bits := by cases w <;> decide
  exact (h.bytes_le.trans (Nat.sub_le _ _)).trans_lt hpow

theorem window_rounded (w : PointerWidth) (blocks : ℕ) :
    nextMultipleOf w (blocks * blockSize) (max arenaAlign 1) = some (blocks * blockSize) := by
  have hdvd : blocks * blockSize % max arenaAlign 1 = 0 :=
    Nat.mod_eq_zero_of_dvd (Dvd.dvd.mul_left (by decide : max arenaAlign 1 ∣ blockSize) blocks)
  exact if_pos hdvd

theorem addressable_one (h : Laid w a) :
    Striping.Addressable w (a.blocks * blockSize) (t.team 1) := by
  rintro rfl
  have hle : a.blocks * blockSize ≤ 2 ^ 31 - 64 := h.bytes_le
  have hteam : Striping.members (t.team 1) ≤ 1 := tally_le _ _
  omega

theorem addressable_workers (h : Laid w a)
    (hspace : Striping.Addressable w (a.blocks * blockSize) (t.team t.workers)) :
    Striping.Addressable w (a.blocks * blockSize)
      (t.team (wipeWorkers t.workers (a.blocks * blockSize))) := by
  unfold wipeWorkers
  by_cases hlarge : a.blocks * blockSize ≥ wipeThreadThreshold
  · rw [if_pos hlarge]
    exact hspace
  · rw [if_neg hlarge]
    exact addressable_one h

variable (wipeEnabled : Bool)

theorem wipeVisible_iff (h : Laid w a)
    (hspace : Striping.Addressable w (a.blocks * blockSize) (t.team t.workers)) (a' : Arena) :
    WipeVisible wipeEnabled w t bigEndian a a' ↔ a' = a.wipeVisible wipeEnabled := by
  have hbytes : Capacity.mulUsize w a.blocks blockSize = some (a.blocks * blockSize) :=
    if_pos h.bytes_lt
  have hruns := fun after => wiped_iff h.bytes_lt (window_rounded w a.blocks)
    (addressable_workers h hspace) (image bigEndian a.memory) after
  have hwiped := @image_secureWipe bigEndian a.memory a.blocks
  cases wipeEnabled with
  | false =>
    have hsame : a.wipeVisible false = a := by
      unfold Arena.wipeVisible
      rw [if_neg Bool.false_ne_true, Bool.or_false]
    rw [hsame]
    constructor
    · intro hrun
      cases hrun with
      | disabled => rfl
      | wiped hwipe => cases hwipe
    · rintro rfl
      exact .disabled rfl
  | true =>
    have hmodel : a.wipeVisible true =
        { a with memory := secureWipe a.memory a.blocks, zeroed := true } := by
      unfold Arena.wipeVisible
      rw [if_pos rfl, Bool.or_true]
    rw [hmodel]
    constructor
    · intro hrun
      cases hrun with
      | disabled hwipe => cases hwipe
      | wiped _ bytes hbytes' memory hsize run =>
        rw [hbytes, Option.some.injEq] at hbytes'
        subst hbytes'
        have himage := ((hruns _).mp run).trans hwiped.symm
        rw [image_inj (hsize.trans (size_secureWipe _ _).symm) himage]
    · rintro rfl
      exact .wiped rfl _ hbytes _ (size_secureWipe _ _) ((hruns _).mpr hwiped)

theorem dropped_iff (h : Laid w a)
    (hspace : Striping.Addressable w (a.blocks * blockSize) (t.team t.workers)) (panicking : Bool)
    (memory : Array Block) :
    Dropped wipeEnabled w t bigEndian a panicking memory ↔ memory = a.drop wipeEnabled := by
  have hspace' : Striping.Addressable w (a.blocks * blockSize)
      (Threads.team { t with workers := if t.parallel && panicking then 1 else t.workers }
        (if t.parallel && panicking then 1 else t.workers)) := by
    cases t.parallel && panicking with
    | false => exact hspace
    | true => exact addressable_one (t := { t with workers := 1 }) h
  have hwipe := @wipeVisible_iff w _ bigEndian a wipeEnabled h hspace'
  unfold Arena.drop
  cases hzeroed : a.zeroed with
  | true =>
    rw [if_pos rfl]
    constructor
    · intro hdrop
      cases hdrop with
      | known => rfl
      | wiped hnot => rw [hzeroed] at hnot; cases hnot
    · rintro rfl
      exact .known hzeroed
  | false =>
    rw [if_neg Bool.false_ne_true]
    constructor
    · intro hdrop
      cases hdrop with
      | known hknown => rw [hzeroed] at hknown; cases hknown
      | wiped _ a' run => rw [(hwipe a').mp run]
    · rintro rfl
      exact .wiped hzeroed _ ((hwipe _).mpr rfl)

end Wipes

theorem toil_start_le (len per : ℕ) {helpers : ℕ} (spawns : Fin (helpers + 1) → Bool)
    (before : Bytes) :
    toil len per spawns (Wiping.start before) ≤
      (len + 2) * (2 * (divCeil len per + Striping.members spawns + (helpers + 1))) := by
  have hwork := Nat.mul_le_mul_left (len + 2) (Striping.work_start_le len per spawns)
  have hsum : ∑ _id : Fin (helpers + 1), todo len none = (helpers + 1) * (len + 1) := by
    rw [Finset.sum_const, Finset.card_univ, Fintype.card_fin, smul_eq_mul, todo]
  calc toil len per spawns (Wiping.start before)
      = (len + 2) * Striping.work len per spawns (Striping.start helpers) +
          (helpers + 1) * (len + 1) := congrArg _ hsum
    _ ≤ (len + 2) * (2 * (divCeil len per + Striping.members spawns) + helpers + 1) +
          (helpers + 1) * (len + 2) :=
        Nat.add_le_add hwork (Nat.mul_le_mul_left _ (Nat.le_succ _))
    _ = _ := by ring

/-- Wherever the threads are in a striped wipe: no two of them are at one byte or outside the
window, and some thread can go on, for so many steps at most. -/
structure Orderly (w : PointerWidth) (len per : ℕ) {helpers : ℕ} (spawns : Fin (helpers + 1) → Bool)
    (k : ℕ) (s : Wiping helpers) : Prop where
  disjoint : ∀ id id' rest rest', id ≠ id' → s.pending id = some rest →
    s.pending id' = some rest' → Disjoint rest rest'
  within : ∀ id rest, s.pending id = some rest → ∀ b ∈ rest, b < len
  progress : ¬ Striping.Returned s.pool → ∃ s', Wiping.Step w len per spawns s s'
  bounded : k ≤ (len + 2) * (2 * (divCeil len per + Striping.members spawns + (helpers + 1)))

/-- However many threads share a wipe and however they take turns, it comes to an end as the wipe
of the arena model, and so does the drop of an arena; with the wipe compiled in nothing of a
borrower is handed back. On 32 bits the threads and the window share the address space. -/
theorem threads_wipe (wipeEnabled bigEndian : Bool) (w : PointerWidth) (t : Threads) (a : Arena)
    (h : Laid w a) (hspace : Striping.Addressable w (a.blocks * blockSize) (t.team t.workers)) :
    (∀ a', WipeVisible wipeEnabled w t bigEndian a a' ↔ a' = a.wipeVisible wipeEnabled) ∧
    (∀ panicking memory, Dropped wipeEnabled w t bigEndian a panicking memory ↔
      memory = a.drop wipeEnabled) ∧
    (wipeEnabled = true → Sound true a →
      ∀ panicking memory, Dropped wipeEnabled w t bigEndian a panicking memory → AllZero memory) ∧
    let bytes := a.blocks * blockSize
    let workers := wipeWorkers t.workers bytes
    ∀ per, stripeLength w bytes workers arenaAlign = some per →
      ¬ (workerCount workers = 1 ∨ bytes ≤ per) → ∀ before k s,
        Wiping.Runs w bytes per (t.team workers) before k s →
          Orderly w bytes per (t.team workers) k s := by
  have hdrop := fun panicking memory =>
    @dropped_iff w t bigEndian a wipeEnabled h hspace panicking memory
  refine ⟨wipeVisible_iff wipeEnabled h hspace, hdrop, ?_, ?_⟩
  · rintro rfl hsound panicking memory hrun
    rw [(hdrop panicking memory).mp hrun]
    exact hsound.drop
  · intro bytes workers per hper hmany before k s run
    obtain ⟨per', hper', hsuff⟩ := stripeLength_some workers h.bytes_lt (window_rounded w a.blocks)
    obtain rfl : per' = per := Option.some.inj (hper'.symm.trans hper)
    obtain ⟨-, hpos⟩ := striped_pos hsuff hmany
    have hfits := Striping.counter_fits hpos hsuff.covers (addressable_workers h hspace)
    obtain ⟨⟨ran, inv⟩, hkept, htoil⟩ := run.inv hpos h.bytes_lt hfits
    exact {
      disjoint := fun id id' rest rest' hne hrest hrest' =>
        pending_disjoint inv hkept hne hrest hrest'
      within := fun id rest hrest b hb => pending_lt hpos hkept hrest hb
      progress := wiping_progress hpos h.bytes_lt inv
      bounded := ((Nat.le_add_right k _).trans htoil).trans (toil_start_le bytes per' _ before) }

/-- 64 MiB that a hash has used, and four workers of which one is refused. -/
def usedArena : Arena := ⟨Array.replicate 65536 (Vector.replicate 128 7), 65536, false⟩

theorem threads_wipe_used :
    (∃ memory, Dropped true .bits64 ⟨true, 4, fun id => id != 2⟩ false usedArena false memory) ∧
      ∀ memory, Dropped true .bits64 ⟨true, 4, fun id => id != 2⟩ false usedArena false memory →
        AllZero memory := by
  have hsize : usedArena.capacity = 65536 := Array.size_replicate
  have hlayout : checkedLayout .bits64 usedArena.capacity = .ok (65536 * blockSize) := by
    rw [hsize]
    rfl
  obtain ⟨-, hdrop, hclean, -⟩ := threads_wipe true false .bits64 ⟨true, 4, fun id => id != 2⟩
    usedArena ⟨hsize.ge, _, hlayout⟩ nofun
  refine ⟨⟨_, (hdrop false _).mpr rfl⟩, hclean rfl ⟨hsize.ge, ?_, nofun⟩ false⟩
  intro _ i hi hlt
  exact absurd hlt (Nat.not_lt.mpr (hsize.le.trans hi))

end Argon2Rust.ArenaWipe
