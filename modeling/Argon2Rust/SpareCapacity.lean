import Argon2Rust.Base64Targets

set_option autoImplicit false

namespace Argon2Rust.SpareCapacity
open Parameters Sextets Cursor Base64 Base64Blocks Base64Targets

section Cells

abbrev Cells := List (Option UInt8)

def reserved (cap : ℕ) : Cells := List.replicate cap none

def write (cells : Cells) (offset : ℕ) (bytes : List UInt8) : Option Cells :=
  if offset + bytes.length ≤ cells.length then
    some (cells.take offset ++ (bytes.map some ++ cells.drop (offset + bytes.length)))
  else none

def writeAll (cells : Cells) (offset : ℕ) : List (List UInt8) → Option Cells
  | [] => some cells
  | bytes :: rest => do
    let cells ← write cells offset bytes
    writeAll cells (offset + bytes.length) rest

def contents : Cells → Option (List UInt8)
  | [] => some []
  | none :: _ => none
  | some byte :: cells => (contents cells).map (byte :: ·)

/-- `set_len(written)`, where exactly the first `written` cells must hold something. -/
def setLen (cells : Cells) (written : ℕ) : Option (List UInt8) :=
  if written ≤ cells.length ∧ (cells.drop written).all Option.isNone then
    contents (cells.take written)
  else none

def filled (bytes : List UInt8) (cap : ℕ) : Cells :=
  bytes.map some ++ List.replicate (cap - bytes.length) none

theorem filled_length {bytes : List UInt8} {cap : ℕ} (h : bytes.length ≤ cap) :
    (filled bytes cap).length = cap := by
  unfold filled
  rw [List.length_append, List.length_map, List.length_replicate]
  omega

theorem write_filled {bytes more : List UInt8} {cap : ℕ} (h : bytes.length + more.length ≤ cap) :
    write (filled bytes cap) bytes.length more = some (filled (bytes ++ more) cap) := by
  have hlen := @filled_length bytes cap (by omega)
  have hmap : (bytes.map (some : UInt8 → Option UInt8)).length = bytes.length := List.length_map _
  unfold write
  rw [hlen, if_pos h]
  unfold filled
  rw [List.take_left' hmap, List.drop_append, List.drop_eq_nil_of_le (by omega), List.nil_append,
    hmap, List.drop_replicate, List.map_append, List.append_assoc, List.length_append]
  congr 4
  omega

theorem writeAll_filled (pieces : List (List UInt8)) {bytes : List UInt8} {cap : ℕ}
    (h : bytes.length + pieces.flatten.length ≤ cap) :
    writeAll (filled bytes cap) bytes.length pieces = some (filled (bytes ++ pieces.flatten) cap) := by
  induction pieces generalizing bytes with
  | nil =>
    rw [List.flatten_nil, List.append_nil]
    rfl
  | cons piece pieces ih =>
    rw [List.flatten_cons, List.length_append] at h
    have hrest := @ih (bytes ++ piece) (by rw [List.length_append]; omega)
    rw [List.length_append] at hrest
    rw [writeAll, write_filled (by omega), List.flatten_cons, ← List.append_assoc]
    exact hrest

theorem contents_map (bytes : List UInt8) : contents (bytes.map some) = some bytes := by
  induction bytes with
  | nil => rfl
  | cons byte bytes ih => rw [List.map_cons, contents, ih, Option.map_some]

theorem setLen_filled {bytes : List UInt8} {cap : ℕ} (h : bytes.length ≤ cap) :
    setLen (filled bytes cap) bytes.length = some bytes := by
  have hmap : (bytes.map (some : UInt8 → Option UInt8)).length = bytes.length := List.length_map _
  have hrest : ((filled bytes cap).drop bytes.length).all Option.isNone = true := by
    unfold filled
    rw [List.drop_left' hmap, List.all_replicate]
    simp
  unfold setLen
  rw [filled_length h, if_pos ⟨h, hrest⟩]
  unfold filled
  rw [List.take_left' hmap, contents_map]

end Cells

/-- The cells and the two counters of a block loop. -/
structure Fill where
  cells : Cells
  consumed : ℕ
  written : ℕ

section Loops
variable (src : List UInt8)

def fillBlocks (k : DecodeKernel) (x : Fill) : Option (Fill × Bool) :=
  if _h : k.loads ≤ src.length - x.consumed ∧ k.gives ≤ x.cells.length - x.written then do
    let input ← load src x.consumed k.loads
    match k.block input with
    | none => some (x, true)
    | some output =>
      let cells ← writeAll x.cells x.written output
      fillBlocks k ⟨cells, x.consumed + k.loads, x.written + k.gives⟩
  else some (x, false)
termination_by src.length - x.consumed
decreasing_by
  have := k.loads_pos
  omega

def fillKernels : List DecodeKernel → Fill → Option Fill
  | [], x => some x
  | k :: kernels, x => do
    let (x, rejected) ← fillBlocks src k x
    if rejected then some x else fillKernels kernels x

def decodeKernels : List DecodeKernel → Progress → Option Progress
  | [], x => some x
  | k :: kernels, x => do
    let (x, rejected) ← decodeBlocks src k x
    if rejected then some x else decodeKernels kernels x

end Loops

/-- The loop of `from_base64`; it has no outcome where the output buffer is too small. -/
def fillLoop : List UInt8 → UInt32 → ℕ → ℕ → ℕ → Cells → Option (Cells × Except Error (ℕ × ℕ))
  | [], acc, accLen, consumed, len, cells => some (cells, decodeEnd acc accLen len consumed)
  | c :: src, acc, accLen, consumed, len, cells =>
    let d := b64CharToByte c.toUInt32
    if d = 0xFF then some (cells, decodeEnd acc accLen len consumed)
    else
      let acc := pushSextet acc d
      if accLen + 6 ≥ 8 then
        if len ≥ cells.length then none
        else do
          let cells ← write cells len [((acc >>> UInt32.ofNat (accLen + 6 - 8)) &&& 0xFF).toUInt8]
          fillLoop src acc (accLen + 6 - 8) (consumed + 1) (len + 1) cells
      else fillLoop src acc (accLen + 6) (consumed + 1) len cells

/-- The kernels of a backend on an architecture, widest first. -/
def kernels : Architecture → Base64Backend → List DecodeKernel
  | .x86, .ssse3 => [Base64X86.decodeKernel16]
  | .x86, .avx2 => [Base64X86.decodeKernel32, Base64X86.decodeKernel16]
  | .aarch64, .neon => [Base64Neon.decodeKernel]
  | .wasm32, .wasm128 => [Base64Wasm.decodeKernel]
  | _, _ => []

def fromBase64Cells (w : PointerWidth) (arch : Architecture) (backend : Base64Backend)
    (cells : Cells) (src : List UInt8) : Option (Cells × Except Error (ℕ × ℕ)) :=
  if src.length < (arch.target w).minDecodeLen ∨ backend = .scalar then fillLoop src 0 0 0 0 cells
  else do
    let x ← fillKernels src (kernels arch backend) ⟨cells, 0, 0⟩
    fillLoop (src.drop x.consumed) 0 0 x.consumed x.written x.cells

theorem decodePrefix_eq (w : PointerWidth) (arch : Architecture) (backend : Base64Backend)
    (dst src : List UInt8) :
    (arch.target w).decodePrefix backend dst src =
      decodeKernels src (kernels arch backend) ⟨dst, 0, 0⟩ := by
  have hone (k : DecodeKernel) : decodeWith src k dst = decodeKernels src [k] ⟨dst, 0, 0⟩ := by
    unfold decodeWith decodeKernels decodeKernels
    refine congrArg _ (funext fun r => ?_)
    exact (ite_self _).symm
  cases arch with
  | x86 =>
    cases backend with
    | ssse3 => exact hone _
    | avx2 =>
      change Base64X86.decodeAvx2 dst src =
        decodeKernels src [Base64X86.decodeKernel32, Base64X86.decodeKernel16] ⟨dst, 0, 0⟩
      unfold Base64X86.decodeAvx2 decodeKernels decodeKernels decodeKernels
      simp only [ite_self]
    | _ => rfl
  | aarch64 =>
    cases backend with
    | neon => exact hone _
    | _ => rfl
  | wasm32 =>
    cases backend with
    | wasm128 => exact hone _
    | _ => rfl
  | other => rfl

theorem kernels_lawful (arch : Architecture) (backend : Base64Backend) :
    ∀ k ∈ kernels arch backend, k.Lawful := by
  intro k hk
  unfold kernels at hk
  split at hk
  · rw [List.mem_singleton.mp hk]
    exact Base64X86.decodeKernel16_lawful
  · rcases List.mem_cons.mp hk with rfl | hk
    · exact Base64X86.decodeKernel32_lawful
    · rw [List.mem_singleton.mp hk]
      exact Base64X86.decodeKernel16_lawful
  · rw [List.mem_singleton.mp hk]
    exact Base64Neon.decodeKernel_lawful
  · rw [List.mem_singleton.mp hk]
    exact Base64Wasm.decodeKernel_lawful
  · cases hk

/-- A decoder has filled cells with bytes whose text is the whole groups it consumed. -/
structure Filled (src : List UInt8) (cap : ℕ) (bytes : List UInt8) (x : Fill) : Prop where
  groups : 4 ∣ x.consumed
  consumed_le : x.consumed ≤ src.length
  text_eq : text bytes = src.take x.consumed
  room : bytes.length ≤ cap
  written_eq : x.written = bytes.length
  cells_eq : x.cells = filled bytes cap

section Runs
variable {src : List UInt8} {cap : ℕ}

theorem filled_start : Filled src cap [] ⟨reserved cap, 0, 0⟩ :=
  ⟨dvd_zero 4, Nat.zero_le _, rfl, Nat.zero_le _, rfl, rfl⟩

theorem Filled.step {k : DecodeKernel} (hk : k.Lawful) {x : Fill} {bytes : List UInt8}
    (hx : Filled src cap bytes x) (hmore : k.loads ≤ src.length - x.consumed)
    (hroom : k.gives ≤ x.cells.length - x.written) {output : List (List UInt8)}
    (houtput : k.block ((src.drop x.consumed).take k.loads) = some output) :
    ∃ cells, writeAll x.cells x.written output = some cells ∧
      Filled src cap (bytes ++ output.flatten)
        ⟨cells, x.consumed + k.loads, x.written + k.gives⟩ := by
  have hpos := k.loads_pos
  obtain ⟨htext, hgives⟩ := hk.extends hx.groups hx.consumed_le hx.text_eq hmore houtput
  have hle := hx.room
  rw [hx.cells_eq, hx.written_eq, filled_length hle] at hroom
  refine ⟨filled (bytes ++ output.flatten) cap, ?_, ?_⟩
  · rw [hx.cells_eq, hx.written_eq]
    exact writeAll_filled output (by omega)
  · refine ⟨dvd_add hx.groups hk.groups, by dsimp only; omega, htext, ?_, ?_, rfl⟩
    · rw [List.length_append]
      omega
    · rw [List.length_append, hx.written_eq, hgives]

theorem Filled.run {k : DecodeKernel} (hk : k.Lawful) {x : Fill} {bytes : List UInt8}
    (hx : Filled src cap bytes x) :
    ∃ y rejected bytes', fillBlocks src k x = some (y, rejected) ∧ Filled src cap bytes' y := by
  generalize hn : src.length - x.consumed = n
  induction n using Nat.strong_induction_on generalizing x bytes with
  | _ n ih =>
    rw [fillBlocks]
    by_cases h : k.loads ≤ src.length - x.consumed ∧ k.gives ≤ x.cells.length - x.written
    · have hpos := k.loads_pos
      have hload := (@load_ok src x.consumed k.loads (by omega)).1
      rw [dif_pos h, hload, Option.bind_eq_bind, Option.bind_some]
      cases hblock : k.block ((src.drop x.consumed).take k.loads) with
      | none => exact ⟨x, true, bytes, rfl, hx⟩
      | some output =>
        obtain ⟨cells, hwrite, hnext⟩ := hx.step hk h.1 h.2 hblock
        obtain ⟨y, rejected, bytes', hy, hyx⟩ :=
          ih (src.length - (x.consumed + k.loads)) (by omega) hnext rfl
        refine ⟨y, rejected, bytes', ?_, hyx⟩
        dsimp only
        rw [hwrite]
        exact hy
    · rw [dif_neg h]
      exact ⟨x, false, bytes, rfl, hx⟩

theorem Filled.runs (kernels : List DecodeKernel) (hk : ∀ k ∈ kernels, k.Lawful) {x : Fill}
    {bytes : List UInt8} (hx : Filled src cap bytes x) :
    ∃ y bytes', fillKernels src kernels x = some y ∧ Filled src cap bytes' y := by
  induction kernels generalizing x bytes with
  | nil => exact ⟨x, bytes, rfl, hx⟩
  | cons k kernels ih =>
    obtain ⟨y, rejected, bytes', hy, hyx⟩ := hx.run (hk k List.mem_cons_self)
    rw [fillKernels, hy, Option.bind_eq_bind, Option.bind_some]
    cases rejected with
    | true => exact ⟨y, bytes', rfl, hyx⟩
    | false => exact ih (fun k' hk' => hk k' (List.mem_cons_of_mem k hk')) hyx

/-- The loop never finds the buffer too small when the run that is left fits: it
fills the cells that the codec over lists says, and nothing else. -/
theorem fillLoop_eq (src : List UInt8) (acc : UInt32) (accLen consumed : ℕ) (stored : List UInt8)
    (hstored : stored.length ≤ cap)
    (hroom : (8 * stored.length + accLen + 6 * (src.takeWhile isAlphabet).length) / 8 ≤ cap) :
    fillLoop src acc accLen consumed stored.length (filled stored cap) =
      some (filled (decodeLoop cap src acc accLen consumed stored).1 cap,
        (decodeLoop cap src acc accLen consumed stored).2) := by
  induction src generalizing acc accLen consumed stored with
  | nil => rfl
  | cons c src ih =>
    rw [fillLoop, decodeLoop_cons]
    by_cases hc : b64CharToByte c.toUInt32 = 0xFF
    · rw [if_pos hc, if_pos hc]
    · have halpha : isAlphabet c = true := by
        unfold isAlphabet
        simpa using hc
      rw [List.takeWhile_cons, if_pos halpha, List.length_cons] at hroom
      rw [if_neg hc, if_neg hc]
      by_cases hbyte : accLen + 6 ≥ 8
      · have hlt : stored.length < cap := by omega
        have hcells := filled_length hstored
        rw [if_pos hbyte, if_pos hbyte, hcells, if_neg (by omega), if_neg (by omega),
          write_filled (by rw [List.length_singleton]; omega), Option.bind_eq_bind, Option.bind_some]
        have hnext := ih (pushSextet acc (b64CharToByte c.toUInt32)) (accLen + 6 - 8) (consumed + 1)
          (stored ++ [((pushSextet acc (b64CharToByte c.toUInt32) >>>
            UInt32.ofNat (accLen + 6 - 8)) &&& 0xFF).toUInt8])
          (by rw [List.length_append, List.length_singleton]; omega)
          (by rw [List.length_append, List.length_singleton]; omega)
        rw [List.length_append, List.length_singleton] at hnext
        exact hnext
      · rw [if_neg hbyte, if_neg hbyte]
        exact ih _ _ _ stored hstored (by omega)

variable (w : PointerWidth) (arch : Architecture) (backend : Base64Backend)

theorem fromBase64Cells_eq (hroom : (src.takeWhile isAlphabet).length * 3 / 4 ≤ cap) :
    fromBase64Cells w arch backend (reserved cap) src =
      some (filled (Base64.fromBase64Scalar cap src).1 cap, (Base64.fromBase64Scalar cap src).2) := by
  have hscalar := @fillLoop_eq cap src 0 0 0 [] (Nat.zero_le _)
    (by rw [List.length_nil]; omega)
  unfold fromBase64Cells
  by_cases hfirst : src.length < (arch.target w).minDecodeLen ∨ backend = .scalar
  · rw [if_pos hfirst]
    exact hscalar
  · obtain ⟨x, bytes, hx, hdone⟩ :=
      (@filled_start src cap).runs (kernels arch backend) (kernels_lawful arch backend)
    have htext := hdone.text_eq
    have hconsumed : (text bytes).length = x.consumed := by
      rw [htext, List.length_take_of_le hdone.consumed_le]
    have hlen := text_length bytes
    have hgroups := hdone.groups
    rw [b64LenUsize_eq, hconsumed] at hlen
    unfold encodedLength at hlen
    have hrun : (src.takeWhile isAlphabet).length =
        x.consumed + ((src.drop x.consumed).takeWhile isAlphabet).length := by
      rw [← hconsumed, ← List.length_append]
      conv_lhs => rw [← List.take_append_drop x.consumed src, ← htext]
      rw [List.takeWhile_append_of_pos (text_alphabet bytes), hconsumed]
    have hloop := @decodeLoop_text cap bytes (src.drop x.consumed) 0 0 0 [] (by omega)
      (by rw [List.length_nil, Nat.zero_add]; exact hdone.room)
    rw [htext, List.take_append_drop, ← htext, hconsumed, List.nil_append, Nat.zero_add] at hloop
    rw [if_neg hfirst, hx, Option.bind_eq_bind, Option.bind_some, hdone.written_eq, hdone.cells_eq,
      fillLoop_eq _ 0 0 x.consumed bytes hdone.room (by omega)]
    unfold Base64.fromBase64Scalar
    rw [hloop]

end Runs

end Argon2Rust.SpareCapacity
