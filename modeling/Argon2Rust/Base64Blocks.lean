import Argon2Rust.Base64
import Argon2Rust.Bytes

set_option autoImplicit false

/-!
# Vector prefixes of the Base64 codec

The block loops of `base64.rs` over whole buffers. A load or a store that leaves
its buffer has no result. A kernel loads a block, takes a part of it and stores
what it makes; it is lawful when that is the text of the bytes taken, or bytes
with the block as their text. The loops of a lawful kernel then store what the
scalar loop would have stored by there, and the scalar loop finishes from there.
-/
namespace Argon2Rust.Base64Blocks
open Numerals Parameters Sextets Base64

section Buffers

def load (buf : List UInt8) (offset n : ℕ) : Option (List UInt8) :=
  if offset + n ≤ buf.length then some ((buf.drop offset).take n) else none

def store (buf : List UInt8) (offset : ℕ) (bytes : List UInt8) : Option (List UInt8) :=
  if offset + bytes.length ≤ buf.length then
    some (buf.take offset ++ (bytes ++ buf.drop (offset + bytes.length)))
  else none

def storeAll (buf : List UInt8) (offset : ℕ) : List (List UInt8) → Option (List UInt8)
  | [] => some buf
  | bytes :: rest => do
    let buf ← store buf offset bytes
    storeAll buf (offset + bytes.length) rest

/-- The buffer `dst` with `stored` written from its start. -/
def overlay (stored dst : List UInt8) : List UInt8 := stored ++ dst.drop stored.length

end Buffers

structure Progress where
  dst : List UInt8
  consumed : ℕ
  written : ℕ

/-- A block of an encoder: it loads more than it takes. -/
structure EncodeKernel where
  loads : ℕ
  takes : ℕ
  gives : ℕ
  block : List UInt8 → List UInt8
  takes_pos : 0 < takes
  takes_le : takes ≤ loads

/-- A block of a decoder: the stores it makes, or none when it rejects the block. -/
structure DecodeKernel where
  loads : ℕ
  gives : ℕ
  block : List UInt8 → Option (List (List UInt8))
  loads_pos : 0 < loads

-- The kernels by the bytes of the register that a block is loaded into.
def EncodeKernel.of16 (block : List UInt8 → List UInt8) : EncodeKernel :=
  ⟨16, 12, 16, block, by decide, by decide⟩

def EncodeKernel.of24 (block : List UInt8 → List UInt8) : EncodeKernel :=
  ⟨24, 24, 32, block, by decide, le_rfl⟩

def EncodeKernel.of32 (block : List UInt8 → List UInt8) : EncodeKernel :=
  ⟨32, 24, 32, block, by decide, by decide⟩

def DecodeKernel.of (loads gives : ℕ) [NeZero loads]
    (block : List UInt8 → Option (List (List UInt8))) : DecodeKernel :=
  ⟨loads, gives, block, Nat.pos_of_neZero loads⟩

def DecodeKernel.of16 : (List UInt8 → Option (List (List UInt8))) → DecodeKernel := .of 16 12

def DecodeKernel.of32 : (List UInt8 → Option (List (List UInt8))) → DecodeKernel := .of 32 24

section Loops
variable (src : List UInt8)

def encodeBlocks (k : EncodeKernel) (x : Progress) : Option Progress :=
  if _h : k.loads ≤ src.length - x.consumed then do
    let input ← load src x.consumed k.loads
    let dst ← store x.dst x.written (k.block input)
    encodeBlocks k ⟨dst, x.consumed + k.takes, x.written + k.gives⟩
  else some x
termination_by src.length - x.consumed
decreasing_by
  have := k.takes_pos
  have := k.takes_le
  omega

/-- The loop of a decoder, and whether a rejected block ended it. -/
def decodeBlocks (k : DecodeKernel) (x : Progress) : Option (Progress × Bool) :=
  if _h : k.loads ≤ src.length - x.consumed ∧ k.gives ≤ x.dst.length - x.written then do
    let input ← load src x.consumed k.loads
    match k.block input with
    | none => some (x, true)
    | some output =>
      let dst ← storeAll x.dst x.written output
      decodeBlocks k ⟨dst, x.consumed + k.loads, x.written + k.gives⟩
  else some (x, false)
termination_by src.length - x.consumed
decreasing_by
  have := k.loads_pos
  omega

def encodeWith (k : EncodeKernel) (dst : List UInt8) : Option Progress :=
  encodeBlocks src k ⟨dst, 0, 0⟩

def decodeWith (k : DecodeKernel) (dst : List UInt8) : Option Progress := do
  let (x, _) ← decodeBlocks src k ⟨dst, 0, 0⟩
  some x

end Loops

inductive Base64Backend
  | scalar
  | neon
  | ssse3
  | avx2
  | wasm128
  deriving DecidableEq, Repr

/-- What an architecture compiles: the prefix of a backend it has not is empty. -/
structure Target where
  minEncodeLen : ℕ
  minDecodeLen : ℕ
  encodePrefix : Base64Backend → (dst src : List UInt8) → Option Progress
  decodePrefix : Base64Backend → (dst src : List UInt8) → Option Progress

section Raw
variable (dst src : List UInt8)

def toBase64Scalar : Option (List UInt8 × Except Error ℕ) :=
  let r := Base64.toBase64Scalar dst.length src
  (store dst 0 r.1).map fun dst => (dst, r.2)

def fromBase64Scalar : Option (List UInt8 × Except Error (ℕ × ℕ)) :=
  let r := Base64.fromBase64Scalar dst.length src
  (store dst 0 r.1).map fun dst => (dst, r.2)

variable (target : Target) (backend : Base64Backend)

def toBase64WithBackend : Option (List UInt8 × Except Error ℕ) :=
  if backend = .scalar then toBase64Scalar dst src
  else if dst.length ≤ b64LenUsize src.length then some (dst, .error .encodingFail)
  else do
    let x ← target.encodePrefix backend dst src
    let tail := encodeLoop (src.drop x.consumed) 0 0
    let dst ← store x.dst x.written tail
    some (dst, .ok (x.written + tail.length))

def fromBase64WithBackend : Option (List UInt8 × Except Error (ℕ × ℕ)) :=
  if backend = .scalar then fromBase64Scalar dst src
  else do
    let x ← target.decodePrefix backend dst src
    let r := decodeLoop dst.length (src.drop x.consumed) 0 0 x.consumed (x.dst.take x.written)
    let dst ← store x.dst x.written (r.1.drop x.written)
    some (dst, r.2)

def toBase64 : Option (List UInt8 × Except Error ℕ) :=
  if src.length < target.minEncodeLen then toBase64Scalar dst src
  else toBase64WithBackend dst src target backend

def fromBase64 : Option (List UInt8 × Except Error (ℕ × ℕ)) :=
  if src.length < target.minDecodeLen then fromBase64Scalar dst src
  else fromBase64WithBackend dst src target backend

end Raw

section Stores
variable {buf : List UInt8} {offset : ℕ}

theorem load_ok {n : ℕ} (h : offset + n ≤ buf.length) :
    load buf offset n = some ((buf.drop offset).take n) ∧ ((buf.drop offset).take n).length = n := by
  refine ⟨if_pos h, ?_⟩
  rw [List.length_take, List.length_drop]
  omega

theorem overlay_length {stored dst : List UInt8} (h : stored.length ≤ dst.length) :
    (overlay stored dst).length = dst.length := by
  unfold overlay
  rw [List.length_append, List.length_drop]
  omega

theorem store_overlay (stored bytes dst : List UInt8)
    (h : stored.length + bytes.length ≤ dst.length) :
    store (overlay stored dst) stored.length bytes = some (overlay (stored ++ bytes) dst) := by
  have hlen := @overlay_length stored dst (by omega)
  unfold store
  rw [hlen, if_pos h]
  unfold overlay
  rw [List.take_left', List.drop_append, List.drop_eq_nil_of_le (by omega), List.nil_append,
    List.drop_drop, List.append_assoc, List.length_append]
  · congr 4
    omega
  · rfl

theorem storeAll_overlay (pieces : List (List UInt8)) (stored dst : List UInt8)
    (h : stored.length + pieces.flatten.length ≤ dst.length) :
    storeAll (overlay stored dst) stored.length pieces =
      some (overlay (stored ++ pieces.flatten) dst) := by
  induction pieces generalizing stored with
  | nil =>
    rw [List.flatten_nil, List.append_nil]
    rfl
  | cons bytes pieces ih =>
    rw [List.flatten_cons, List.length_append] at h
    have hrest := ih (stored ++ bytes) (by rw [List.length_append]; omega)
    rw [List.length_append] at hrest
    rw [storeAll, store_overlay stored bytes dst (by omega), List.flatten_cons,
      ← List.append_assoc]
    exact hrest

theorem store_zero (stored dst : List UInt8) (h : stored.length ≤ dst.length) :
    store dst 0 stored = some (overlay stored dst) :=
  store_overlay [] stored dst (by rw [List.length_nil]; omega)

end Stores

/-- An encoder has stored the text of the whole groups it consumed. -/
structure Encoded (src dst : List UInt8) (x : Progress) : Prop where
  groups : 3 ∣ x.consumed
  consumed_le : x.consumed ≤ src.length
  written_eq : x.written = (text (src.take x.consumed)).length
  dst_eq : x.dst = overlay (text (src.take x.consumed)) dst

/-- A decoder has stored bytes whose text is the whole groups it consumed. -/
structure Decoded (src dst bytes : List UInt8) (x : Progress) : Prop where
  groups : 4 ∣ x.consumed
  consumed_le : x.consumed ≤ src.length
  text_eq : text bytes = src.take x.consumed
  room : bytes.length ≤ dst.length
  written_eq : x.written = bytes.length
  dst_eq : x.dst = overlay bytes dst

structure EncodeKernel.Lawful (k : EncodeKernel) : Prop where
  groups : 3 ∣ k.takes
  gives_eq : k.gives * 3 = k.takes * 4
  block_eq : ∀ input : List UInt8, input.length = k.loads → k.block input = text (input.take k.takes)

structure DecodeKernel.Lawful (k : DecodeKernel) : Prop where
  groups : 4 ∣ k.loads
  gives_eq : k.gives * 4 = k.loads * 3
  block_eq : ∀ (input : List UInt8) (output : List (List UInt8)), input.length = k.loads →
    k.block input = some output → text output.flatten = input

structure Target.Lawful (target : Target) : Prop where
  encode : ∀ (backend : Base64Backend) (dst src : List UInt8),
    b64LenUsize src.length < dst.length →
      ∃ x, target.encodePrefix backend dst src = some x ∧ Encoded src dst x
  decode : ∀ (backend : Base64Backend) (dst src : List UInt8),
    ∃ x bytes, target.decodePrefix backend dst src = some x ∧ Decoded src dst bytes x

section Runs
variable {src dst : List UInt8}

theorem encoded_start : Encoded src dst ⟨dst, 0, 0⟩ := ⟨dvd_zero 3, Nat.zero_le _, rfl, rfl⟩

theorem decoded_start : Decoded src dst [] ⟨dst, 0, 0⟩ :=
  ⟨dvd_zero 4, Nat.zero_le _, rfl, Nat.zero_le _, rfl, rfl⟩

theorem text_take_le (n : ℕ) : (text (src.take n)).length ≤ b64LenUsize src.length := by
  have h : (src.take n).length ≤ src.length := List.length_take_le' _ _
  rw [text_length, b64LenUsize_eq, b64LenUsize_eq]
  unfold encodedLength
  omega

theorem Encoded.step {k : EncodeKernel} (hk : k.Lawful) {x : Progress} (hx : Encoded src dst x)
    (hroom : b64LenUsize src.length < dst.length) (hmore : k.loads ≤ src.length - x.consumed) :
    ∃ input dst', load src x.consumed k.loads = some input ∧
      store x.dst x.written (k.block input) = some dst' ∧
      Encoded src dst ⟨dst', x.consumed + k.takes, x.written + k.gives⟩ := by
  have hpos := k.takes_pos
  have htakes := k.takes_le
  obtain ⟨hload, hlen⟩ := @load_ok src x.consumed k.loads (by omega)
  have hblock := hk.block_eq _ hlen
  rw [List.take_take, Nat.min_eq_left htakes] at hblock
  have hdone : (src.take x.consumed).length = x.consumed := List.length_take_of_le hx.consumed_le
  have htext : text (src.take (x.consumed + k.takes)) =
      text (src.take x.consumed) ++ k.block ((src.drop x.consumed).take k.loads) := by
    rw [List.take_add, hblock, text_append _ _ (by rw [hdone]; exact hx.groups)]
  have hfits := @text_take_le src (x.consumed + k.takes)
  have hgives : (k.block ((src.drop x.consumed).take k.loads)).length = k.gives := by
    have hlawful := hk.gives_eq
    rw [hblock, text_length, List.length_take, List.length_drop, b64LenUsize_eq]
    unfold encodedLength
    have hgroups := hk.groups
    omega
  rw [htext, List.length_append] at hfits
  refine ⟨_, overlay (text (src.take x.consumed) ++
    k.block ((src.drop x.consumed).take k.loads)) dst, hload, ?_, ?_⟩
  · rw [hx.dst_eq, hx.written_eq]
    exact store_overlay _ _ dst (by omega)
  · refine ⟨dvd_add hx.groups hk.groups, by dsimp only; omega, ?_, ?_⟩
    · dsimp only
      rw [htext, List.length_append, hx.written_eq, hgives]
    · dsimp only
      rw [htext]

theorem Encoded.run {k : EncodeKernel} (hk : k.Lawful) {x : Progress} (hx : Encoded src dst x)
    (hroom : b64LenUsize src.length < dst.length) :
    ∃ y, encodeBlocks src k x = some y ∧ Encoded src dst y := by
  generalize hn : src.length - x.consumed = n
  induction n using Nat.strong_induction_on generalizing x with
  | _ n ih =>
    rw [encodeBlocks]
    by_cases h : k.loads ≤ src.length - x.consumed
    · obtain ⟨input, dst', hload, hstore, hnext⟩ := hx.step hk hroom h
      have hpos := k.takes_pos
      have htakes := k.takes_le
      obtain ⟨y, hy, hyx⟩ := ih (src.length - (x.consumed + k.takes)) (by omega) hnext rfl
      refine ⟨y, ?_, hyx⟩
      rw [dif_pos h, hload]
      change (store x.dst x.written (k.block input)).bind _ = _
      rw [hstore]
      exact hy
    · rw [dif_neg h]
      exact ⟨x, rfl, hx⟩

theorem DecodeKernel.Lawful.extends {k : DecodeKernel} (hk : k.Lawful) {bytes : List UInt8}
    {consumed : ℕ} (hgroups : 4 ∣ consumed) (hle : consumed ≤ src.length)
    (htext : text bytes = src.take consumed) (hmore : k.loads ≤ src.length - consumed)
    {output : List (List UInt8)}
    (houtput : k.block ((src.drop consumed).take k.loads) = some output) :
    text (bytes ++ output.flatten) = src.take (consumed + k.loads) ∧
      output.flatten.length = k.gives := by
  have hpos := k.loads_pos
  have hlen := (@load_ok src consumed k.loads (by omega)).2
  have hblock := hk.block_eq _ output hlen houtput
  have hbytes : 3 ∣ bytes.length := by
    have h := congrArg List.length htext
    rw [text_length, b64LenUsize_eq, List.length_take_of_le hle] at h
    unfold encodedLength at h
    omega
  constructor
  · rw [text_append _ _ hbytes, htext, hblock, ← List.take_add]
  · have hloads := hk.groups
    have hlawful := hk.gives_eq
    have h := congrArg List.length hblock
    rw [text_length, b64LenUsize_eq, hlen] at h
    unfold encodedLength at h
    omega

theorem Decoded.step {k : DecodeKernel} (hk : k.Lawful) {x : Progress} {bytes : List UInt8}
    (hx : Decoded src dst bytes x) (hmore : k.loads ≤ src.length - x.consumed)
    (hroom : k.gives ≤ x.dst.length - x.written) {output : List (List UInt8)}
    (houtput : k.block ((src.drop x.consumed).take k.loads) = some output) :
    ∃ dst', storeAll x.dst x.written output = some dst' ∧
      Decoded src dst (bytes ++ output.flatten)
        ⟨dst', x.consumed + k.loads, x.written + k.gives⟩ := by
  have hpos := k.loads_pos
  have hdst := overlay_length hx.room
  obtain ⟨htext, hgives⟩ := hk.extends hx.groups hx.consumed_le hx.text_eq hmore houtput
  rw [hx.dst_eq, hx.written_eq, hdst] at hroom
  refine ⟨overlay (bytes ++ output.flatten) dst, ?_, ?_⟩
  · rw [hx.dst_eq, hx.written_eq]
    exact storeAll_overlay output bytes dst (by rw [hgives]; have := hx.room; omega)
  · refine ⟨dvd_add hx.groups hk.groups, by dsimp only; omega, htext, ?_, ?_, rfl⟩
    · have := hx.room
      rw [List.length_append]
      omega
    · dsimp only
      rw [List.length_append, hx.written_eq, hgives]

theorem Decoded.run {k : DecodeKernel} (hk : k.Lawful) {x : Progress} {bytes : List UInt8}
    (hx : Decoded src dst bytes x) :
    ∃ y rejected bytes', decodeBlocks src k x = some (y, rejected) ∧
      Decoded src dst bytes' y := by
  generalize hn : src.length - x.consumed = n
  induction n using Nat.strong_induction_on generalizing x bytes with
  | _ n ih =>
    rw [decodeBlocks]
    by_cases h : k.loads ≤ src.length - x.consumed ∧ k.gives ≤ x.dst.length - x.written
    · have hpos := k.loads_pos
      have hload := (@load_ok src x.consumed k.loads (by omega)).1
      rw [dif_pos h, hload]
      change ∃ y rejected bytes', (match k.block ((src.drop x.consumed).take k.loads) with
        | none => some (x, true)
        | some output => (storeAll x.dst x.written output).bind fun dst =>
          decodeBlocks src k ⟨dst, x.consumed + k.loads, x.written + k.gives⟩) =
            some (y, rejected) ∧ _
      cases hblock : k.block ((src.drop x.consumed).take k.loads) with
      | none => exact ⟨x, true, bytes, rfl, hx⟩
      | some output =>
        obtain ⟨dst', hstore, hnext⟩ := hx.step hk h.1 h.2 hblock
        obtain ⟨y, rejected, bytes', hy, hyx⟩ :=
          ih (src.length - (x.consumed + k.loads)) (by omega) hnext rfl
        refine ⟨y, rejected, bytes', ?_, hyx⟩
        dsimp only
        rw [hstore]
        exact hy
    · rw [dif_neg h]
      exact ⟨x, false, bytes, rfl, hx⟩

theorem encodeWith_encoded {k : EncodeKernel} (hk : k.Lawful)
    (hroom : b64LenUsize src.length < dst.length) :
    ∃ x, encodeWith src k dst = some x ∧ Encoded src dst x := encoded_start.run hk hroom

theorem decodeWith_decoded {k : DecodeKernel} (hk : k.Lawful) :
    ∃ x bytes, decodeWith src k dst = some x ∧ Decoded src dst bytes x := by
  obtain ⟨x, rejected, bytes, hx, hdone⟩ := (@decoded_start src dst).run hk
  refine ⟨x, bytes, ?_, hdone⟩
  rw [decodeWith, hx]
  rfl

end Runs

section Exactness
variable (dst src : List UInt8)

/-- The scalar decoder only appends, and only while there is room. -/
theorem decodeLoop_extends {dstLen : ℕ} (acc : UInt32) (accLen consumed : ℕ)
    (stored : List UInt8) (hroom : stored.length ≤ dstLen) :
    ∃ more, (decodeLoop dstLen src acc accLen consumed stored).1 = stored ++ more ∧
      (stored ++ more).length ≤ dstLen := by
  induction src generalizing acc accLen consumed stored with
  | nil => exact ⟨[], (List.append_nil _).symm, by rwa [List.append_nil]⟩
  | cons c src ih =>
    have hstop : ∃ more, stored = stored ++ more ∧ (stored ++ more).length ≤ dstLen :=
      ⟨[], (List.append_nil _).symm, by rwa [List.append_nil]⟩
    rw [decodeLoop_cons]
    split_ifs with hinvalid hbyte hfull
    · exact hstop
    · exact hstop
    · obtain ⟨more, hmore, hlen⟩ := ih (pushSextet acc (b64CharToByte c.toUInt32))
        (accLen + 6 - 8) (consumed + 1)
        (stored ++ [((pushSextet acc (b64CharToByte c.toUInt32) >>>
          UInt32.ofNat (accLen + 6 - 8)) &&& 0xFF).toUInt8])
        (by rw [List.length_append, List.length_singleton]; omega)
      rw [List.append_assoc] at hmore hlen
      exact ⟨_, hmore, hlen⟩
    · exact ih _ _ _ stored hroom

theorem toBase64Scalar_eq (h : b64LenUsize src.length < dst.length) :
    toBase64Scalar dst src = some (overlay (text src) dst, .ok (text src).length) := by
  have hlen := text_length src
  unfold toBase64Scalar Base64.toBase64Scalar
  rw [if_neg (by omega)]
  dsimp only
  rw [encodeLoop_eq, store_zero _ _ (by omega)]
  rfl

theorem toBase64Scalar_short (h : dst.length ≤ b64LenUsize src.length) :
    toBase64Scalar dst src = some (dst, .error .encodingFail) := by
  unfold toBase64Scalar Base64.toBase64Scalar
  rw [if_pos h]
  dsimp only
  rw [store_zero _ _ (Nat.zero_le _)]
  rfl

theorem fromBase64Scalar_eq :
    fromBase64Scalar dst src =
      some (overlay (Base64.fromBase64Scalar dst.length src).1 dst,
        (Base64.fromBase64Scalar dst.length src).2) := by
  obtain ⟨more, hmore, hlen⟩ := @decodeLoop_extends src dst.length 0 0 0 [] (Nat.zero_le _)
  rw [List.nil_append] at hmore hlen
  unfold fromBase64Scalar
  dsimp only
  rw [store_zero _ _ (by unfold Base64.fromBase64Scalar; rw [hmore]; exact hlen)]
  rfl

/-- No store of the scalar codec leaves its destination. -/
theorem scalar_isSome :
    (toBase64Scalar dst src).isSome = true ∧ (fromBase64Scalar dst src).isSome = true := by
  constructor
  · by_cases h : dst.length ≤ b64LenUsize src.length
    · rw [toBase64Scalar_short dst src h]
      rfl
    · rw [toBase64Scalar_eq dst src (by omega)]
      rfl
  · rw [fromBase64Scalar_eq]
    rfl

variable {target : Target} (backend : Base64Backend)

theorem toBase64WithBackend_eq (ht : target.Lawful) :
    toBase64WithBackend dst src target backend = toBase64Scalar dst src := by
  unfold toBase64WithBackend
  rw [ite_eq_left_iff]
  intro _
  by_cases h : dst.length ≤ b64LenUsize src.length
  · rw [if_pos h, toBase64Scalar_short dst src h]
  · obtain ⟨x, hx, hdone⟩ := ht.encode backend dst src (by omega)
    have hlen := text_length src
    have hsplit : text src = text (src.take x.consumed) ++ text (src.drop x.consumed) := by
      rw [← text_append _ _ (by rw [List.length_take_of_le hdone.consumed_le]; exact hdone.groups),
        List.take_append_drop]
    have hlengths := congrArg List.length hsplit
    rw [List.length_append] at hlengths
    have hstore := store_overlay (text (src.take x.consumed)) (text (src.drop x.consumed)) dst
      (by omega)
    rw [if_neg h, hx, toBase64Scalar_eq dst src (by omega)]
    change (store x.dst x.written (encodeLoop (src.drop x.consumed) 0 0)).bind _ = _
    rw [encodeLoop_eq, hdone.dst_eq, hdone.written_eq, hstore, hsplit, List.length_append]
    rfl

theorem fromBase64WithBackend_eq (ht : target.Lawful) :
    fromBase64WithBackend dst src target backend = fromBase64Scalar dst src := by
  obtain ⟨x, bytes, hx, hdone⟩ := ht.decode backend dst src
  have hconsumed : (text bytes).length = x.consumed := by
    rw [hdone.text_eq, List.length_take_of_le hdone.consumed_le]
  have hgroups : 3 ∣ bytes.length := by
    have h := text_length bytes
    have hdvd := hdone.groups
    rw [b64LenUsize_eq, hconsumed] at h
    unfold encodedLength at h
    omega
  have hloop := @decodeLoop_text dst.length bytes (src.drop x.consumed) 0 0 0 [] hgroups
    (by rw [List.length_nil, Nat.zero_add]; exact hdone.room)
  rw [hdone.text_eq, List.take_append_drop, ← hdone.text_eq, hconsumed, List.nil_append,
    Nat.zero_add] at hloop
  obtain ⟨more, hmore, hlen⟩ :=
    @decodeLoop_extends (src.drop x.consumed) dst.length 0 0 x.consumed bytes hdone.room
  have hstored : x.dst.take x.written = bytes := by
    rw [hdone.dst_eq, hdone.written_eq, overlay, List.take_left']
    rfl
  have hstore := store_overlay bytes more dst (by rwa [List.length_append] at hlen)
  unfold fromBase64WithBackend
  rw [ite_eq_left_iff, fromBase64Scalar_eq, Base64.fromBase64Scalar, hloop, hmore]
  intro _
  rw [hx]
  change (store x.dst x.written _).bind _ = _
  rw [hstored, hmore, hdone.written_eq, List.drop_left', hdone.dst_eq, hstore]
  · rfl
  · rfl

theorem toBase64_eq (ht : target.Lawful) :
    toBase64 dst src target backend = toBase64Scalar dst src := by
  unfold toBase64
  rw [toBase64WithBackend_eq dst src backend ht, ite_self]

theorem fromBase64_eq (ht : target.Lawful) :
    fromBase64 dst src target backend = fromBase64Scalar dst src := by
  unfold fromBase64
  rw [fromBase64WithBackend_eq dst src backend ht, ite_self]

/-- A lawful target stores and returns what the scalar codec does, for every
backend, and none of its loads and stores leaves its buffer. -/
theorem Target.Lawful.exact (ht : target.Lawful) :
    ∃ encoded decoded, toBase64Scalar dst src = some encoded ∧
      fromBase64Scalar dst src = some decoded ∧
      toBase64WithBackend dst src target backend = some encoded ∧
      toBase64 dst src target backend = some encoded ∧
      fromBase64WithBackend dst src target backend = some decoded ∧
      fromBase64 dst src target backend = some decoded := by
  obtain ⟨hto, hfrom⟩ := scalar_isSome dst src
  obtain ⟨encoded, hencoded⟩ := Option.isSome_iff_exists.mp hto
  obtain ⟨decoded, hdecoded⟩ := Option.isSome_iff_exists.mp hfrom
  refine ⟨encoded, decoded, hencoded, hdecoded, ?_, ?_, ?_, ?_⟩
  · rw [toBase64WithBackend_eq dst src backend ht, hencoded]
  · rw [toBase64_eq dst src backend ht, hencoded]
  · rw [fromBase64WithBackend_eq dst src backend ht, hdecoded]
  · rw [fromBase64_eq dst src backend ht, hdecoded]

end Exactness

section Abstraction
variable {target : Target}

def prefixBytes : Option Progress → List UInt8 × ℕ
  | some x => (x.dst.take x.written, x.consumed)
  | none => ([], 0)

theorem Encoded.prefixBytes_eq {src dst : List UInt8} {x : Progress} (hx : Encoded src dst x) :
    prefixBytes (some x) = (text (src.take x.consumed), x.consumed) := by
  unfold prefixBytes
  dsimp only
  rw [hx.dst_eq, hx.written_eq, overlay, List.take_left']
  rfl

theorem Decoded.prefixBytes_eq {src dst bytes : List UInt8} {x : Progress}
    (hx : Decoded src dst bytes x) : prefixBytes (some x) = (bytes, x.consumed) := by
  unfold prefixBytes
  dsimp only
  rw [hx.dst_eq, hx.written_eq, overlay, List.take_left']
  rfl

def encodeRoom (src : List UInt8) : List UInt8 := List.replicate (b64LenUsize src.length + 1) 0

theorem encodeRoom_length (src : List UInt8) : b64LenUsize src.length < (encodeRoom src).length := by
  unfold encodeRoom
  rw [List.length_replicate]
  exact Nat.lt_succ_self _

def Target.Lawful.toBackend (ht : target.Lawful) (backend : Base64Backend) : Backend where
  minEncodeLen := target.minEncodeLen
  minDecodeLen := target.minDecodeLen
  encodePrefix src := prefixBytes (target.encodePrefix backend (encodeRoom src) src)
  decodePrefix dstLen src := prefixBytes (target.decodePrefix backend (List.replicate dstLen 0) src)
  encode_groups src := by
    obtain ⟨x, hx, hdone⟩ := ht.encode backend _ src (encodeRoom_length src)
    rw [hx, hdone.prefixBytes_eq]
    exact ⟨hdone.groups, hdone.consumed_le⟩
  encode_text src := by
    obtain ⟨x, hx, hdone⟩ := ht.encode backend _ src (encodeRoom_length src)
    rw [hx, hdone.prefixBytes_eq]
  decode_groups dstLen src := by
    obtain ⟨x, bytes, hx, hdone⟩ := ht.decode backend (List.replicate dstLen 0) src
    rw [hx, hdone.prefixBytes_eq]
    exact ⟨hdone.groups, hdone.consumed_le⟩
  decode_text dstLen src := by
    obtain ⟨x, bytes, hx, hdone⟩ := ht.decode backend (List.replicate dstLen 0) src
    rw [hx, hdone.prefixBytes_eq]
    exact hdone.text_eq
  decode_room dstLen src := by
    obtain ⟨x, bytes, hx, hdone⟩ := ht.decode backend (List.replicate dstLen 0) src
    rw [hx, hdone.prefixBytes_eq]
    exact hdone.room.trans_eq List.length_replicate

/-- The codec over whole buffers stores what the codec over lists says, over any destination. -/
theorem Target.Lawful.refines (ht : target.Lawful) (backend : Base64Backend) (dst src : List UInt8) :
    toBase64 dst src target backend =
        (store dst 0 (toBase64Raw (ht.toBackend backend) dst.length src).1).map
          (fun dst' => (dst', (toBase64Raw (ht.toBackend backend) dst.length src).2)) ∧
      fromBase64 dst src target backend =
        (store dst 0 (fromBase64Raw (ht.toBackend backend) dst.length src).1).map
          (fun dst' => (dst', (fromBase64Raw (ht.toBackend backend) dst.length src).2)) := by
  constructor
  · rw [toBase64_eq dst src backend ht, toBase64Raw_eq, toBase64Scalar, Base64.toBase64Scalar,
      encodeLoop_eq]
  · rw [fromBase64_eq dst src backend ht, fromBase64Raw_eq, fromBase64Scalar]

end Abstraction

end Argon2Rust.Base64Blocks
