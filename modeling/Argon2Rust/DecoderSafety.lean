import Argon2Rust.Blake2Stream
import Argon2Rust.Capacity
import Argon2Rust.Phc
import Argon2Rust.Programs
import Argon2Rust.SpareCapacity

set_option autoImplicit false

/-!
# The decoders with every access checked

Both decoders as programs over their cursor. A cursor beyond the input, a slice
out of range, a write beyond a reserved capacity, an output buffer that is too
small and a `set_len` over cells that hold nothing all leave them without an
outcome. They always have one, and it is the decoders' own.
-/
namespace Argon2Rust.DecoderSafety
open Parameters Base64 Base64Blocks Base64Targets Blake2Stream Capacity Cursor Encoding Decoding
open DecodeString Phc Programs Separated SpareCapacity

abbrev Cursored (α : Type) := Program ℕ Error α

section Steps
variable (src : List UInt8)

def rest : Cursored (List UInt8) := do
  let pos ← Program.get
  Program.access (sliceFrom src pos)

/-- `pos += n`, which must stay inside the input. -/
def advance (n : ℕ) : Cursored Unit := do
  let pos ← Program.get
  let next ← Program.access (if pos + n ≤ src.length then some (pos + n) else none)
  Program.set next

def expect (text : List UInt8) : Cursored Unit := do
  let tail ← rest src
  if text.isPrefixOf tail then advance src text.length
  else Program.lift (.error .decodingFail)

def expectOpt (text : List UInt8) : Cursored Bool := do
  let tail ← rest src
  if text.isPrefixOf tail then do
    advance src text.length
    pure true
  else pure false

/-- `decode_decimal`, whose one index expression is `src[0]`. -/
def decodeDecimal (src : List UInt8) : Option (Option (UInt64 × ℕ)) :=
  match decimalLoop src 0 0 with
  | none => some none
  | some (acc, i) =>
    if i = 0 then some none
    else do
      let first ← src[0]?
      if first = 48 ∧ i ≠ 1 then some none else some (some (acc, i))

def decimalU32 : Cursored UInt32 := do
  let tail ← rest src
  let number ← Program.access (decodeDecimal tail)
  let (value, consumed) ← Program.lift (okOr number)
  if value > 0xFFFFFFFF then Program.lift (.error .decodingFail)
  else do
    advance src consumed
    pure value.toUInt32

def decodeVersion : Cursored UInt32 := do
  let present ← expectOpt src (ascii "$v=")
  if present then decimalU32 src else pure Version.v0x10.asU32

end Steps

section Fields
variable (arch : Architecture) (backend : Base64Backend) (host : Host)

def decodeBin (src : List UInt8) : Cursored (List UInt8) := do
  let tail ← rest src
  let maxLen ← Program.access (binCapacity host.width tail.length)
  Program.lift (reserveVec host maxLen)
  let (cells, result) ←
    Program.access (fromBase64Cells host.width arch backend (reserved maxLen) tail)
  let (written, consumed) ← Program.lift result
  if written > 0xFFFFFFFF then Program.lift (.error .decodingFail)
  else do
    let bytes ← Program.access (setLen cells written)
    advance src consumed
    pure bytes

def decodeBase64 (src : List UInt8) : Cursored (List UInt8) := do
  let cap ← Program.access (decodeCapacity host.width src.length)
  Program.lift (reserveVec host cap)
  let (cells, result) ← Program.access (fromBase64Cells host.width arch backend (reserved cap) src)
  let (written, consumed) ← Program.lift result
  if consumed ≠ src.length then Program.lift (.error .decodingFail)
  else Program.access (setLen cells written)

def parseParamU32 (src : List UInt8) : Cursored UInt32 := do
  let number ← Program.access (decodeDecimal src)
  let (value, consumed) ← Program.lift (okOr number)
  if consumed ≠ src.length ∨ value > 0xFFFFFFFF then Program.lift (.error .decodingFail)
  else pure value.toUInt32

variable [Memchr]

def parseField (acc : PhcParams) (field : List UInt8) : Cursored PhcParams := do
  let eq ← Program.lift (okOr (findByte field equals))
  let key ← Program.access (sliceTo field eq)
  let value ← Program.access (sliceFrom field (eq + 1))
  if key = ascii "m" then do
    let memory ← parseParamU32 value
    pure { acc with memory := some memory }
  else if key = ascii "t" then do
    let passes ← parseParamU32 value
    pure { acc with passes := some passes }
  else if key = ascii "p" then do
    let lanes ← parseParamU32 value
    pure { acc with lanes := some lanes }
  else if key = ascii "data" then do
    let ad ← decodeBase64 arch backend host value
    pure { acc with ad := ad }
  else pure acc

def nextField (rest : List UInt8) : Option (List UInt8 × List UInt8) :=
  match findByte rest comma with
  | some i => do
    let field ← sliceTo rest i
    let next ← sliceFrom rest (i + 1)
    some (field, next)
  | none => some (rest, [])

theorem nextField_shorter {rest field next : List UInt8} (h : nextField rest = some (field, next))
    (hne : next ≠ []) : next.length < rest.length := by
  unfold nextField at h
  cases hf : findByte rest comma with
  | none =>
    rw [hf] at h
    cases h
    exact absurd rfl hne
  | some i =>
    rw [hf] at h
    simp only [Option.bind_eq_bind, Option.bind_eq_some_iff, Option.some.injEq] at h
    obtain ⟨field', -, next', hnext, hpair⟩ := h
    cases hpair
    unfold sliceFrom at hnext
    split_ifs at hnext with hle
    cases hnext
    rw [List.length_drop]
    omega

def parseFields (acc : PhcParams) (rest : List UInt8) : Cursored PhcParams :=
  match _found : nextField rest with
  | none => Program.access none
  | some (field, next) => do
    let acc ← parseField arch backend host acc field
    if _more : next = [] then pure acc else parseFields acc next
termination_by rest.length
decreasing_by exact nextField_shorter _found _more

def parsePhcParams (src : List UInt8) : Cursored (UInt32 × UInt32 × UInt32 × List UInt8) :=
  if src = [] then Program.lift (.error .decodingFail)
  else do
    let acc ← parseFields arch backend host ⟨none, none, none, []⟩ src
    match acc.memory, acc.passes, acc.lanes with
    | some m, some t, some p => pure (m, t, p, acc.ad)
    | _, _, _ => Program.lift (.error .decodingFail)

def decodeString (encoded : List UInt8) (algorithm : Algorithm) :
    Cursored (Decoded host.width) :=
  if encoded.length > 0xFFFFFFFF then Program.lift (.error .decodingFail)
  else do
    expect encoded (ascii "$")
    expect encoded (asStr algorithm)
    let versionValue ← decodeVersion encoded
    expect encoded (ascii "$m=")
    let mCost ← decimalU32 encoded
    expect encoded (ascii ",t=")
    let tCost ← decimalU32 encoded
    expect encoded (ascii ",p=")
    let lanes ← decimalU32 encoded
    expect encoded (ascii "$")
    let salt ← decodeBin arch backend host encoded
    expect encoded (ascii "$")
    let hash ← decodeBin arch backend host encoded
    Program.lift (validateInputs host.width hash.length 0 salt.length 0 0 mCost tCost lanes lanes)
    let pos ← Program.get
    if pos ≠ encoded.length then Program.lift (.error .decodingFail)
    else Program.lift (assemble host.width algorithm versionValue mCost tCost lanes salt hash [])

def decodeAlgorithm (src : List UInt8) : Cursored Algorithm := do
  let id ← expectOpt src (asStr .argon2id)
  if id then pure .argon2id
  else do
    let i ← expectOpt src (asStr .argon2i)
    if i then pure .argon2i
    else do
      let d ← expectOpt src (asStr .argon2d)
      if d then pure .argon2d else Program.lift (.error .decodingFail)

def decodePhc (encoded : List UInt8) : Cursored (Decoded host.width) :=
  if encoded.length > 0xFFFFFFFF then Program.lift (.error .decodingFail)
  else do
    expect encoded (ascii "$")
    let algorithm ← decodeAlgorithm encoded
    let versionValue ← decodeVersion encoded
    expect encoded (ascii "$")
    let tail ← rest encoded
    let paramEnd ← Program.lift (okOr (findByte tail dollar))
    let paramBytes ← Program.access (sliceTo tail paramEnd)
    let (mCost, tCost, lanes, ad) ← parsePhcParams arch backend host paramBytes
    advance encoded paramEnd
    expect encoded (ascii "$")
    let tail ← rest encoded
    let saltEnd ← Program.lift (okOr (findByte tail dollar))
    let saltBytes ← Program.access (sliceTo tail saltEnd)
    let salt ← decodeBase64 arch backend host saltBytes
    advance encoded saltEnd
    expect encoded (ascii "$")
    let tail ← rest encoded
    let hash ← decodeBase64 arch backend host tail
    Program.lift
      (validateInputs host.width hash.length 0 salt.length 0 ad.length mCost tCost lanes lanes)
    Program.lift (assemble host.width algorithm versionValue mCost tCost lanes salt hash ad)

end Fields

/-- The program has an outcome, the plain result, with the cursor inside the input. -/
def Ends {α : Type} (src : List UInt8) (m : Cursored α) (pos : ℕ) (plain : Except Error α) : Prop :=
  ∃ pos', pos' ≤ src.length ∧ m pos = some (plain, pos')

def Answers {α : Type} (m : Cursored α) (plain : Except Error α) : Prop :=
  ∀ pos, m pos = some (plain, pos)

section Rules
variable {α β : Type} {src : List UInt8} {pos : ℕ}

theorem ends_error (e : Error) (h : pos ≤ src.length) :
    Ends src (Program.lift (.error e) : Cursored α) pos (.error e) := ⟨pos, h, rfl⟩

theorem ends_lift (r : Except Error α) (h : pos ≤ src.length) :
    Ends src (Program.lift r) pos r := ⟨pos, h, rfl⟩

theorem lift_ends (h : pos ≤ src.length) (r : Except Error α) {k : α → Cursored β}
    {l : α → Except Error β} (hk : ∀ a, r = .ok a → Ends src (k a) pos (l a)) :
    Ends src (Program.lift r >>= k) pos (r >>= l) := by
  cases r with
  | error e => exact ⟨pos, h, rfl⟩
  | ok a => exact hk a rfl

theorem lift_answers (r : Except Error α) : Answers (Program.lift r) r := fun _ => rfl

theorem access_answers {x : Option α} {a : α} (hx : x = some a) {k : α → Cursored β}
    {plain : Except Error β} (hk : Answers (k a) plain) : Answers (Program.access x >>= k) plain := by
  rw [hx]
  exact hk

theorem Answers.bind {m : Cursored α} {r : Except Error α} (hm : Answers m r)
    {k : α → Cursored β} {l : α → Except Error β}
    (hk : ∀ a, r = .ok a → Answers (k a) (l a)) : Answers (m >>= k) (r >>= l) := by
  intro pos
  cases r with
  | error e => exact Program.bind_of_error (hm pos)
  | ok a => exact (Program.bind_of_ok (hm pos)).trans (hk a rfl pos)

theorem access_ends {x : Option α} {a : α} (hx : x = some a) {k : α → Cursored β}
    {plain : Except Error β} (hk : Ends src (k a) pos plain) :
    Ends src (Program.access x >>= k) pos plain := by
  rw [hx]
  exact hk

theorem Answers.ends (h : pos ≤ src.length) {m : Cursored α} {r : Except Error α}
    (hm : Answers m r) {k : α → Cursored β} {l : α → Except Error β}
    (hk : ∀ a, r = .ok a → Ends src (k a) pos (l a)) :
    Ends src (m >>= k) pos (r >>= l) := by
  cases r with
  | error e => exact ⟨pos, h, Program.bind_of_error (hm pos)⟩
  | ok a =>
    obtain ⟨pos', hle, hrun⟩ := hk a rfl
    exact ⟨pos', hle, (Program.bind_of_ok (hm pos)).trans hrun⟩

theorem rest_apply (h : pos ≤ src.length) : rest src pos = some (.ok (src.drop pos), pos) := by
  have hslice : sliceFrom src pos = some (src.drop pos) := if_pos h
  unfold rest
  rw [Program.get_bind, hslice]
  rfl

theorem rest_ends (h : pos ≤ src.length) {k : List UInt8 → Cursored β} {plain : Except Error β}
    (hk : Ends src (k (src.drop pos)) pos plain) : Ends src (rest src >>= k) pos plain := by
  obtain ⟨pos', hle, hrun⟩ := hk
  exact ⟨pos', hle, (Program.bind_of_ok (rest_apply h)).trans hrun⟩

theorem advance_apply {n : ℕ} (h : pos + n ≤ src.length) :
    advance src n pos = some (.ok (), pos + n) := by
  unfold advance
  rw [Program.get_bind, if_pos h, Program.access_some_bind, Program.set_apply]

theorem advance_ends {n : ℕ} (h : pos + n ≤ src.length) {k : Unit → Cursored β}
    {plain : Except Error β} (hk : Ends src (k ()) (pos + n) plain) :
    Ends src (advance src n >>= k) pos plain := by
  obtain ⟨pos', hle, hrun⟩ := hk
  exact ⟨pos', hle, (Program.bind_of_ok (advance_apply h)).trans hrun⟩

theorem prefix_fits {text : List UInt8} (h : pos ≤ src.length)
    (hpre : text.isPrefixOf (src.drop pos) = true) : pos + text.length ≤ src.length := by
  have hlen := (List.isPrefixOf_iff_prefix.mp hpre).length_le
  rw [List.length_drop] at hlen
  omega

theorem expect_ends (h : pos ≤ src.length) (text : List UInt8) {k : Unit → Cursored β}
    {l : ℕ → Except Error β} (hk : ∀ next ≤ src.length, Ends src (k ()) next (l next)) :
    Ends src (expect src text >>= k) pos (Decoding.expect src pos text >>= l) := by
  unfold expect Decoding.expect Decoding.rest
  rw [Program.bind_assoc]
  refine rest_ends h ?_
  by_cases hpre : text.isPrefixOf (src.drop pos) = true
  · rw [if_pos hpre, if_pos hpre]
    exact advance_ends (prefix_fits h hpre) (hk _ (prefix_fits h hpre))
  · rw [if_neg hpre, if_neg hpre]
    exact ends_error _ h

theorem expectOpt_ends (h : pos ≤ src.length) (text : List UInt8) {k : Bool → Cursored β}
    {plain : Except Error β}
    (hk : match Decoding.expectOpt src pos text with
      | some next => next ≤ src.length → Ends src (k true) next plain
      | none => Ends src (k false) pos plain) :
    Ends src (expectOpt src text >>= k) pos plain := by
  unfold expectOpt
  unfold Decoding.expectOpt Decoding.rest at hk
  rw [Program.bind_assoc]
  refine rest_ends h ?_
  by_cases hpre : text.isPrefixOf (src.drop pos) = true
  · rw [if_pos hpre] at hk ⊢
    rw [Program.bind_assoc]
    exact advance_ends (prefix_fits h hpre) (hk (prefix_fits h hpre))
  · rw [if_neg hpre] at hk ⊢
    exact hk

theorem decodeDecimal_eq (tail : List UInt8) :
    decodeDecimal tail = some (Decoding.decodeDecimal tail) := by
  unfold decodeDecimal Decoding.decodeDecimal
  cases hloop : decimalLoop tail 0 0 with
  | none => rfl
  | some r =>
    obtain ⟨acc, i⟩ := r
    dsimp only
    by_cases hi : i = 0
    · rw [if_pos hi, if_pos hi]
    · rw [if_neg hi, if_neg hi]
      cases tail with
      | nil =>
        rw [decimalLoop, Option.some.injEq, Prod.mk.injEq] at hloop
        exact absurd hloop.2.symm hi
      | cons c tail =>
        simp only [List.getElem?_cons_zero, Option.bind_eq_bind, Option.bind_some, List.head?_cons,
          Option.some.injEq]
        split_ifs <;> rfl

theorem decimal_consumed {tail : List UInt8} {value : UInt64} {consumed : ℕ}
    (hd : Decoding.decodeDecimal tail = some (value, consumed)) : consumed ≤ tail.length := by
  obtain ⟨more, htail, -, hk⟩ := (decodeDecimal_eq_some _ _ _).mp hd
  rw [htail, hk, List.length_append]
  omega

theorem decimalU32_ends (h : pos ≤ src.length) {k : UInt32 → Cursored β}
    {l : UInt32 × ℕ → Except Error β}
    (hk : ∀ value, ∀ next ≤ src.length, Ends src (k value) next (l (value, next))) :
    Ends src (decimalU32 src >>= k) pos (Decoding.decimalU32 src pos >>= l) := by
  unfold decimalU32 Decoding.decimalU32 Decoding.rest
  simp only [Program.bind_assoc]
  refine rest_ends h (access_ends (decodeDecimal_eq _) ?_)
  cases hd : Decoding.decodeDecimal (src.drop pos) with
  | none => exact ends_error _ h
  | some r =>
    obtain ⟨value, consumed⟩ := r
    have hfits := decimal_consumed hd
    rw [List.length_drop] at hfits
    change Ends src ((if value > 0xFFFFFFFF then _ else _) >>= k) pos
      ((if value > 0xFFFFFFFF then _ else _) >>= l)
    by_cases hbig : value > 0xFFFFFFFF
    · rw [if_pos hbig, if_pos hbig]
      exact ends_error _ h
    · rw [if_neg hbig, if_neg hbig, Program.bind_assoc]
      exact advance_ends (by omega) (hk value.toUInt32 _ (by omega))

theorem decodeVersion_ends (h : pos ≤ src.length) {k : UInt32 → Cursored β}
    {l : UInt32 × ℕ → Except Error β}
    (hk : ∀ value, ∀ next ≤ src.length, Ends src (k value) next (l (value, next))) :
    Ends src (decodeVersion src >>= k) pos (DecodeString.decodeVersion src pos >>= l) := by
  unfold decodeVersion DecodeString.decodeVersion
  rw [Program.bind_assoc]
  refine expectOpt_ends h _ ?_
  cases hmark : Decoding.expectOpt src pos (ascii "$v=") with
  | none => exact hk _ pos h
  | some next => exact fun hle => decimalU32_ends hle hk

theorem decodeAlgorithm_ends (h : pos ≤ src.length) {k : Algorithm → Cursored β}
    {l : Algorithm × ℕ → Except Error β}
    (hk : ∀ algorithm, ∀ next ≤ src.length, Ends src (k algorithm) next (l (algorithm, next))) :
    Ends src (decodeAlgorithm src >>= k) pos (Phc.decodeAlgorithm src pos >>= l) := by
  unfold decodeAlgorithm Phc.decodeAlgorithm
  rw [Program.bind_assoc]
  refine expectOpt_ends h _ ?_
  cases Decoding.expectOpt src pos (asStr .argon2id) with
  | some next => exact fun hle => hk .argon2id next hle
  | none =>
    change Ends src ((expectOpt src (asStr .argon2i) >>= _) >>= k) pos _
    rw [Program.bind_assoc]
    refine expectOpt_ends h _ ?_
    cases Decoding.expectOpt src pos (asStr .argon2i) with
    | some next => exact fun hle => hk .argon2i next hle
    | none =>
      change Ends src ((expectOpt src (asStr .argon2d) >>= _) >>= k) pos _
      rw [Program.bind_assoc]
      refine expectOpt_ends h _ ?_
      cases Decoding.expectOpt src pos (asStr .argon2d) with
      | some next => exact fun hle => hk .argon2d next hle
      | none => exact ends_error _ h

end Rules

section Fields
variable (arch : Architecture) (backend : Base64Backend) (host : Host)
  (hw : host.width = .bits64) {src : List UInt8} {pos : ℕ}

theorem fromBase64Scalar_ok {cap written consumed : ℕ} {tail : List UInt8}
    (h : (Base64.fromBase64Scalar cap tail).2 = .ok (written, consumed)) :
    written = (Base64.fromBase64Scalar cap tail).1.length ∧ written ≤ cap ∧
      consumed ≤ tail.length := by
  rw [← fromBase64Raw_eq .scalar] at h ⊢
  obtain ⟨bytes, hrun, hle, heq⟩ := fromBase64Raw_ok .scalar tail _ h
  rw [heq] at h ⊢
  have hpair := Except.ok.inj h
  rw [Prod.mk.injEq] at hpair
  have hprefix := run_length_le tail
  rw [hrun] at hprefix
  exact ⟨hpair.1.symm, by omega, by omega⟩

include hw

theorem decodeBin_ends (hlen : src.length ≤ 0xFFFFFFFF) (h : pos ≤ src.length) {β : Type}
    {k : List UInt8 → Cursored β} {l : List UInt8 × ℕ → Except Error β}
    (hk : ∀ bytes, ∀ next ≤ src.length, Ends src (k bytes) next (l (bytes, next))) :
    Ends src (decodeBin arch backend host src >>= k) pos (Decoding.decodeBin src pos host >>= l) := by
  have htail : (src.drop pos).length = src.length - pos := List.length_drop
  have hcap : binCapacity host.width (src.drop pos).length =
      some ((src.drop pos).length / 4 * 3 + 3) := by
    rw [binCapacity_eq_some, hw]
    refine ⟨?_, rfl⟩
    change _ < 2 ^ 64
    omega
  have hprefix := run_length_le (src.drop pos)
  have hcells := @fromBase64Cells_eq (src.drop pos) ((src.drop pos).length / 4 * 3 + 3) host.width
    arch backend (by omega)
  unfold decodeBin Decoding.decodeBin Decoding.rest
  simp only [Program.bind_assoc, fromBase64Raw_eq]
  refine rest_ends h (access_ends hcap ?_)
  generalize hcapacity : (src.drop pos).length / 4 * 3 + 3 = cap at hcells ⊢
  cases hres : reserveVec host cap with
  | error e => exact ends_error e h
  | ok u =>
    rw [Program.lift_ok_bind_eq, ok_bind]
    refine access_ends hcells ?_
    cases hr : (Base64.fromBase64Scalar cap (src.drop pos)).2 with
    | error e => exact ends_error e h
    | ok r =>
      obtain ⟨written, consumed⟩ := r
      obtain ⟨hwritten, hle, hconsumed⟩ := fromBase64Scalar_ok hr
      change Ends src ((if written > 0xFFFFFFFF then _ else _) >>= k) pos
        ((if written > 0xFFFFFFFF then _ else _) >>= l)
      by_cases hbig : written > 0xFFFFFFFF
      · rw [if_pos hbig, if_pos hbig]
        exact ends_error _ h
      · have hset := @setLen_filled (Base64.fromBase64Scalar cap (src.drop pos)).1 cap (by omega)
        rw [← hwritten] at hset
        rw [if_neg hbig, if_neg hbig]
        simp only [Program.bind_assoc]
        refine access_ends hset (advance_ends (by omega) ?_)
        have hall := hk (Base64.fromBase64Scalar cap (src.drop pos)).1 (pos + consumed) (by omega)
        rw [hwritten, List.take_length]
        exact hall

theorem decodeBase64_answers (field : List UInt8) (hlen : field.length ≤ 0xFFFFFFFF) :
    Answers (decodeBase64 arch backend host field) (Base64.decodeBase64 host field) := by
  have hfits := fits_bits host hw field hlen
  have hcap : decodeCapacity host.width field.length = some (field.length * 3 / 4) :=
    (decodeCapacity_eq_some _ _ _).mpr ⟨hfits, rfl⟩
  have hwrap : wrapUsize host.width (field.length * 3) = field.length * 3 := Nat.mod_eq_of_lt hfits
  have hprefix := run_length_le field
  have hcells := @fromBase64Cells_eq field (field.length * 3 / 4) host.width arch backend (by omega)
  unfold decodeBase64 Base64.decodeBase64
  simp only [hwrap, fromBase64Raw_eq]
  refine access_answers hcap ((lift_answers _).bind fun _ _ => access_answers hcells ?_)
  refine (lift_answers _).bind fun r hr => ?_
  obtain ⟨written, consumed⟩ := r
  obtain ⟨hwritten, hle, -⟩ := fromBase64Scalar_ok hr
  have hset := @setLen_filled (Base64.fromBase64Scalar (field.length * 3 / 4) field).1
    (field.length * 3 / 4) (by omega)
  rw [← hwritten] at hset
  dsimp only
  by_cases hall : consumed ≠ field.length
  · rw [if_pos hall, if_pos hall]
    exact lift_answers _
  · rw [if_neg hall, if_neg hall, hset, hwritten, List.take_length]
    exact fun _ => rfl

end Fields

section Sections

theorem parseParamU32_answers (value : List UInt8) :
    Answers (parseParamU32 value) (Phc.parseParamU32 value) := by
  unfold parseParamU32 Phc.parseParamU32
  refine access_answers (decodeDecimal_eq value) ((lift_answers _).bind fun r _ => ?_)
  obtain ⟨number, consumed⟩ := r
  dsimp only
  split_ifs
  · exact lift_answers _
  · exact lift_answers _

variable [Memchr] [LawfulMemchr]

theorem findByte_lt {field : List UInt8} {needle : UInt8} {i : ℕ}
    (h : findByte field needle = some i) : i + 1 ≤ field.length := by
  rw [findByte_eq] at h
  obtain ⟨head, tail, hfield, -, hi⟩ := find_some _ _ _ h
  rw [hfield, hi, List.length_append, List.length_cons]
  omega

theorem nextField_eq (rest : List UInt8) : nextField rest = some (Phc.nextField rest) := by
  unfold nextField Phc.nextField
  cases h : findByte rest comma with
  | none => rfl
  | some i =>
    have hlen := findByte_lt h
    have hfield : sliceTo rest i = some (rest.take i) := if_pos (by omega)
    have hnext : sliceFrom rest (i + 1) = some (rest.drop (i + 1)) := if_pos hlen
    dsimp only
    rw [hfield, hnext]
    rfl

variable (arch : Architecture) (backend : Base64Backend) (host : Host) (hw : host.width = .bits64)
include hw

theorem parseField_answers (acc : PhcParams) (field : List UInt8)
    (hlen : field.length ≤ 0xFFFFFFFF) :
    Answers (parseField arch backend host acc field) (Phc.parseField host acc field) := by
  unfold parseField Phc.parseField
  refine (lift_answers _).bind fun eq heq => ?_
  have hlt := findByte_lt ((okOr_ok_iff _ _).mp heq)
  have hkey : sliceTo field eq = some (field.take eq) := if_pos (by omega)
  have hvalue : sliceFrom field (eq + 1) = some (field.drop (eq + 1)) := if_pos hlt
  refine access_answers hkey (access_answers hvalue ?_)
  dsimp only
  split_ifs
  · exact (parseParamU32_answers _).bind fun _ _ => lift_answers _
  · exact (parseParamU32_answers _).bind fun _ _ => lift_answers _
  · exact (parseParamU32_answers _).bind fun _ _ => lift_answers _
  · refine (decodeBase64_answers arch backend host hw _ ?_).bind fun _ _ => lift_answers _
    rw [List.length_drop]
    omega
  · exact lift_answers _

theorem parseFields_answers (acc : PhcParams) (rest : List UInt8)
    (hlen : rest.length ≤ 0xFFFFFFFF) :
    Answers (parseFields arch backend host acc rest) (Phc.parseFields host acc rest) := by
  generalize hn : rest.length = n at hlen
  induction n using Nat.strong_induction_on generalizing acc rest with
  | _ n ih =>
    have hfield : (Phc.nextField rest).1.length ≤ rest.length := by
      unfold Phc.nextField
      cases findByte rest comma with
      | none => exact le_rfl
      | some i => exact List.length_take_le' _ _
    have hstep : parseFields arch backend host acc rest =
        parseField arch backend host acc (Phc.nextField rest).1 >>= fun acc =>
          if (Phc.nextField rest).2 = [] then pure acc
          else parseFields arch backend host acc (Phc.nextField rest).2 := by
      rw [parseFields]
      split
      · rename_i hnone
        rw [nextField_eq] at hnone
        cases hnone
      · rename_i field next hsome
        rw [nextField_eq, Option.some.injEq] at hsome
        rw [hsome]
        rfl
    have hplain : Phc.parseFields host acc rest =
        Phc.parseField host acc (Phc.nextField rest).1 >>= fun acc =>
          if (Phc.nextField rest).2 = [] then .ok acc
          else Phc.parseFields host acc (Phc.nextField rest).2 := by
      rw [Phc.parseFields]
      cases Phc.parseField host acc (Phc.nextField rest).1 <;> rfl
    rw [hstep, hplain]
    refine (parseField_answers arch backend host hw acc _ (by omega)).bind fun acc' _ => ?_
    by_cases hnext : (Phc.nextField rest).2 = []
    · rw [if_pos hnext, if_pos hnext]
      exact lift_answers _
    · have hlt := nextField_lt rest hnext
      rw [if_neg hnext, if_neg hnext]
      exact ih _ (by omega) acc' _ rfl (by omega)

theorem parsePhcParams_answers (src : List UInt8) (hlen : src.length ≤ 0xFFFFFFFF) :
    Answers (parsePhcParams arch backend host src) (Phc.parsePhcParams host src) := by
  unfold parsePhcParams Phc.parsePhcParams
  split_ifs
  · exact lift_answers _
  · refine (parseFields_answers arch backend host hw _ src hlen).bind fun acc _ => ?_
    obtain ⟨memory, passes, lanes, ad⟩ := acc
    cases memory <;> cases passes <;> cases lanes <;> exact lift_answers _

end Sections

section Decoders
variable (arch : Architecture) (backend : Base64Backend) (host : Host) (hw : host.width = .bits64)
  (encoded : List UInt8) (hlen : encoded.length ≤ 0xFFFFFFFF)
include hw hlen

theorem decodeString_ends (algorithm : Algorithm) :
    Ends encoded (decodeString arch backend host encoded algorithm) 0
      (DecodeString.decodeString host encoded algorithm) := by
  unfold decodeString DecodeString.decodeString
  rw [if_neg (by omega), if_neg (by omega)]
  refine expect_ends (Nat.zero_le _) _ fun p1 h1 => ?_
  refine expect_ends h1 _ fun p2 h2 => ?_
  refine decodeVersion_ends h2 fun versionValue p3 h3 => ?_
  refine expect_ends h3 _ fun p4 h4 => ?_
  refine decimalU32_ends h4 fun mCost p5 h5 => ?_
  refine expect_ends h5 _ fun p6 h6 => ?_
  refine decimalU32_ends h6 fun tCost p7 h7 => ?_
  refine expect_ends h7 _ fun p8 h8 => ?_
  refine decimalU32_ends h8 fun lanes p9 h9 => ?_
  refine expect_ends h9 _ fun p10 h10 => ?_
  refine decodeBin_ends arch backend host hw hlen h10 fun salt p11 h11 => ?_
  refine expect_ends h11 _ fun p12 h12 => ?_
  refine decodeBin_ends arch backend host hw hlen h12 fun hash p13 h13 => ?_
  refine lift_ends h13 _ fun _ _ => ?_
  change Ends encoded (if p13 ≠ encoded.length then _ else _) p13 _
  split_ifs
  · exact ends_lift _ h13
  · exact ends_lift _ h13

variable [Memchr] [LawfulMemchr]

theorem decodePhc_ends :
    Ends encoded (decodePhc arch backend host encoded) 0 (Phc.decodePhc host encoded) := by
  unfold decodePhc Phc.decodePhc Decoding.rest
  rw [if_neg (by omega), if_neg (by omega)]
  refine expect_ends (Nat.zero_le _) _ fun p1 h1 => ?_
  refine decodeAlgorithm_ends h1 fun algorithm p2 h2 => ?_
  refine decodeVersion_ends h2 fun versionValue p3 h3 => ?_
  refine expect_ends h3 _ fun p4 h4 => ?_
  refine rest_ends h4 (lift_ends h4 _ fun paramEnd hparam => ?_)
  have hp := findByte_lt ((okOr_ok_iff _ _).mp hparam)
  rw [List.length_drop] at hp
  have hparams : sliceTo (encoded.drop p4) paramEnd = some ((encoded.drop p4).take paramEnd) :=
    if_pos (by rw [List.length_drop]; omega)
  refine access_ends hparams ((parsePhcParams_answers arch backend host hw _ ?_).ends h4 ?_)
  · rw [List.length_take, List.length_drop]
    omega
  rintro ⟨mCost, tCost, lanes, ad⟩ -
  refine advance_ends (by omega) (expect_ends (by omega) _ fun p5 h5 => ?_)
  refine rest_ends h5 (lift_ends h5 _ fun saltEnd hsalt => ?_)
  have hs := findByte_lt ((okOr_ok_iff _ _).mp hsalt)
  rw [List.length_drop] at hs
  have hsalts : sliceTo (encoded.drop p5) saltEnd = some ((encoded.drop p5).take saltEnd) :=
    if_pos (by rw [List.length_drop]; omega)
  refine access_ends hsalts ((decodeBase64_answers arch backend host hw _ ?_).ends h5 ?_)
  · rw [List.length_take, List.length_drop]
    omega
  intro salt _
  refine advance_ends (by omega) (expect_ends (by omega) _ fun p6 h6 => ?_)
  refine rest_ends h6 ((decodeBase64_answers arch backend host hw _ ?_).ends h6 ?_)
  · rw [List.length_drop]
    omega
  intro hash _
  refine lift_ends h6 _ fun _ _ => ?_
  exact ends_lift _ h6

/-- Both decoders, on every architecture and backend: no access leaves its buffer,
no output buffer is too small, every length set covers exactly the cells that
were filled, and the cursor stays inside the input. -/
theorem decoders_safe :
    (∀ algorithm, ∃ pos ≤ encoded.length,
      decodeString arch backend host encoded algorithm 0 =
        some (DecodeString.decodeString host encoded algorithm, pos)) ∧
    ∃ pos ≤ encoded.length,
      decodePhc arch backend host encoded 0 = some (Phc.decodePhc host encoded, pos) :=
  ⟨decodeString_ends arch backend host hw encoded hlen, decodePhc_ends arch backend host hw encoded hlen⟩

end Decoders

local instance : Memchr := scan

local instance : LawfulMemchr := scan_lawful

theorem decoders_safe_truncated :
    ∃ pos ≤ (ascii "$argon2id$v=19$m=8,t=1,p=1$c").length,
      decodeString .x86 .avx2 ⟨.bits64, .scalar, fun _ => true⟩
          (ascii "$argon2id$v=19$m=8,t=1,p=1$c") .argon2id 0 =
        some (DecodeString.decodeString ⟨.bits64, .scalar, fun _ => true⟩
          (ascii "$argon2id$v=19$m=8,t=1,p=1$c") .argon2id, pos) :=
  (decoders_safe .x86 .avx2 ⟨.bits64, .scalar, fun _ => true⟩ rfl
    (ascii "$argon2id$v=19$m=8,t=1,p=1$c") (by decide)).1 .argon2id

end Argon2Rust.DecoderSafety
