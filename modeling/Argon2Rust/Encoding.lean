import Argon2Rust.Base64
import Argon2Rust.Numeral

set_option autoImplicit false

namespace Argon2Rust.Encoding
open Parameters Base64 Numeral

def ascii (s : String) : List UInt8 := s.toList.map fun c => UInt8.ofNat c.toNat

def asStr : Algorithm → List UInt8
  | .argon2d => ascii "argon2d"
  | .argon2i => ascii "argon2i"
  | .argon2id => ascii "argon2id"

def digitByte (d : ℕ) : UInt8 := UInt8.ofNat (48 + d)

def decimal (n : ℕ) : List UInt8 := (numeral 10 n).map digitByte

theorem decimal_of_lt (n : ℕ) (h : n < 10) : decimal n = [digitByte n] := by
  rw [decimal, numeral_of_lt n h]
  rfl

theorem decimal_of_ge (n : ℕ) (h : 10 ≤ n) :
    decimal n = decimal (n / 10) ++ [digitByte (n % 10)] := by
  rw [decimal, numeral_of_ge (by decide) n h, List.map_append]
  rfl

def numLenLoop (n : UInt32) (len : ℕ) : ℕ :=
  if h : n ≥ 10 then numLenLoop (n / 10) (len + 1) else len
termination_by n.toNat
decreasing_by
  have h10 : 10 ≤ n.toNat := UInt32.le_iff_toNat_le.mp h
  rw [UInt32.toNat_div]
  exact Nat.div_lt_self (by omega) (by decide)

def numLen (num : UInt32) : ℕ := numLenLoop num 1

theorem numLenLoop_eq (n : UInt32) (len : ℕ) :
    numLenLoop n len + 1 = len + (numeral 10 n.toNat).length := by
  induction n, len using numLenLoop.induct with
  | case1 n len h ih =>
    have h10 : 10 ≤ n.toNat := UInt32.le_iff_toNat_le.mp h
    rw [numLenLoop, dif_pos h, ih, numeral_of_ge (by decide) n.toNat h10, List.length_append,
      UInt32.toNat_div, List.length_singleton, Nat.add_right_comm, Nat.add_assoc]
    rfl
  | case2 n len h =>
    have h10 : n.toNat < 10 := by
      by_contra hge
      exact h (UInt32.le_iff_toNat_le.mpr (not_lt.mp hge))
    rw [numLenLoop, dif_neg h, numeral_of_lt n.toNat h10, List.length_singleton]

theorem numLen_eq (n : UInt32) : numLen n = (decimal n.toNat).length := by
  have h := numLenLoop_eq n 1
  unfold numLen decimal
  rw [List.length_map]
  omega

def digitCount (n : ℕ) : ℕ := Nat.log 10 n + 1

theorem numLenLoop_eq_log (n : UInt32) (len : ℕ) :
    numLenLoop n len = len + Nat.log 10 n.toNat := by
  induction n, len using numLenLoop.induct with
  | case1 n len h ih =>
    have h10 : 10 ≤ n.toNat := UInt32.le_iff_toNat_le.mp h
    have hlog : Nat.log 10 n.toNat = Nat.log 10 (n.toNat / 10) + 1 :=
      Nat.log_of_one_lt_of_le (by decide) h10
    have hdiv : (n / 10).toNat = n.toNat / 10 := UInt32.toNat_div n 10
    rw [numLenLoop, dif_pos h, ih, hlog, hdiv]
    omega
  | case2 n len h =>
    have h10 : n.toNat < 10 := not_le.mp fun hle => h (UInt32.le_iff_toNat_le.mpr hle)
    rw [numLenLoop, dif_neg h, Nat.log_of_lt h10, Nat.add_zero]

theorem numLen_eq_digitCount (n : UInt32) : numLen n = digitCount n.toNat :=
  (numLenLoop_eq_log n 1).trans (Nat.add_comm 1 _)

theorem decimal_length_mono {m n : ℕ} (h : m ≤ n) : (decimal m).length ≤ (decimal n).length := by
  rw [decimal, decimal, List.length_map, List.length_map]
  exact numeral_length_mono (by decide) h

theorem numLen_le (n : UInt32) : numLen n ≤ 10 := by
  have hten : (decimal 0xFFFFFFFF).length = 10 := by decide
  have hle := decimal_length_mono (Nat.le_of_lt_succ n.toNat_lt)
  rw [numLen_eq]
  exact hle.trans hten.le

theorem digitCount_pos (n : ℕ) : 1 ≤ digitCount n := Nat.le_add_left 1 _

theorem digitCount_le (n : UInt32) : digitCount n.toNat ≤ 10 := by
  rw [← numLen_eq_digitCount]
  exact numLen_le n

theorem b64LenUsize_mono {m n : ℕ} (h : m ≤ n) : b64LenUsize m ≤ b64LenUsize n := by
  rw [b64LenUsize_eq, b64LenUsize_eq]
  unfold Sextets.encodedLength
  omega

/-- `encoded_len` and `encoded_len_usize`, over unbounded naturals. -/
def encodedLen (algorithm : Algorithm) (tCost mCost lanes : UInt32) (saltLen hashLen : ℕ) : ℕ :=
  (ascii "$$v=$m=,t=,p=$$").length + (asStr algorithm).length + numLen tCost + numLen mCost +
    numLen lanes + b64LenUsize saltLen + b64LenUsize hashLen + numLen Version.v0x13.asU32 + 1

/-- `encoded_len` in unbounded integers: the two texts, the name, the digits and the 18 bytes that
are always there, the two digits of the version and the NUL among them. -/
theorem encodedLen_eq_sum (algorithm : Algorithm) (tCost mCost lanes : UInt32)
    (saltLen hashLen : ℕ) :
    encodedLen algorithm tCost mCost lanes saltLen hashLen =
      (4 * saltLen + 2) / 3 + (4 * hashLen + 2) / 3 + (asStr algorithm).length +
        digitCount mCost.toNat + digitCount tCost.toNat + digitCount lanes.toNat + 18 := by
  have hversion : numLen Version.v0x13.asU32 = 2 := by
    rw [numLen_eq]
    decide
  have hfixed : (ascii "$$v=$m=,t=,p=$$").length = 15 := rfl
  unfold encodedLen
  rw [hversion, hfixed, b64LenUsize_eq, b64LenUsize_eq, Sextets.encodedLength, Sextets.encodedLength,
    numLen_eq_digitCount, numLen_eq_digitCount, numLen_eq_digitCount]
  omega

structure Writer where
  dstLen : ℕ
  dst : List UInt8

namespace Writer

def pos (out : Writer) : ℕ := out.dst.length

def put (out : Writer) (bytes : List UInt8) : Except Error Writer :=
  let remaining := out.dstLen - out.pos
  if bytes.length ≥ remaining then .error .encodingFail
  else .ok { out with dst := out.dst ++ bytes }

/-- The digit loop over the ten slots of its buffer, filled from the back. -/
def digits : ℕ → UInt32 → List UInt8 → List UInt8
  | 0, _, buf => buf
  | i + 1, n, buf =>
    let buf := (48 + (n % 10).toUInt8) :: buf
    let n := n / 10
    if n = 0 then buf else digits i n buf

def putU32 (out : Writer) (value : UInt32) : Except Error Writer := out.put (digits 10 value [])

def putBase64 (backend : Backend) (out : Writer) (src : List UInt8) : Except Error Writer := do
  let stored := toBase64Raw backend (out.dstLen - out.pos) src
  let written ← stored.2
  .ok { out with dst := out.dst ++ stored.1.take written }

theorem digit_eq (n : UInt32) : 48 + (n % 10).toUInt8 = digitByte (n.toNat % 10) := by
  apply UInt8.toNat_inj.mp
  unfold digitByte
  rw [UInt8.toNat_add, UInt32.toNat_toUInt8, UInt32.toNat_mod,
    UInt8.toNat_ofNat_of_lt' (by change _ < 256; omega)]
  simp only [UInt8.reduceToNat, UInt32.reduceToNat]
  omega

theorem digits_eq (slots : ℕ) (n : UInt32) (buf : List UInt8) (h : n.toNat < 10 ^ (slots + 1)) :
    digits (slots + 1) n buf = decimal n.toNat ++ buf := by
  have hdiv (n : UInt32) : (n / 10).toNat = n.toNat / 10 := UInt32.toNat_div n 10
  induction slots generalizing n buf with
  | zero =>
    have hlt : n.toNat < 10 := h
    have hz : n / 10 = 0 := UInt32.toNat_inj.mp (by rw [hdiv]; exact Nat.div_eq_of_lt hlt)
    rw [digits, if_pos hz, digit_eq, Nat.mod_eq_of_lt hlt, decimal_of_lt n.toNat hlt]
    rfl
  | succ slots ih =>
    rw [digits, digit_eq]
    by_cases hlt : n.toNat < 10
    · have hz : n / 10 = 0 := UInt32.toNat_inj.mp (by rw [hdiv]; exact Nat.div_eq_of_lt hlt)
      rw [if_pos hz, Nat.mod_eq_of_lt hlt, decimal_of_lt n.toNat hlt]
      rfl
    · have hz : n / 10 ≠ 0 := by
        intro h0
        have hn := hdiv n
        rw [h0, UInt32.toNat_zero] at hn
        omega
      rw [if_neg hz, ih (n / 10) _ (by rw [hdiv]; omega), hdiv, decimal_of_ge n.toNat (by omega),
        List.append_assoc]
      rfl

theorem putU32_eq (out : Writer) (value : UInt32) :
    out.putU32 value = out.put (decimal value.toNat) := by
  have hv := value.toNat_lt
  unfold putU32
  rw [digits_eq 9 value [] (by omega), List.append_nil]

theorem putBase64_eq (backend : Backend) (out : Writer) (src : List UInt8) :
    out.putBase64 backend src = out.put (text src) := by
  unfold putBase64 put
  rw [toBase64Raw_eq, text_length]
  by_cases h : out.dstLen - out.pos ≤ b64LenUsize src.length
  · rw [if_pos h, if_pos h]
    rfl
  · rw [if_neg h, if_neg h]
    simp only [ok_bind, ← text_length, List.take_length]

theorem put_put (out : Writer) (xs ys : List UInt8) :
    (out.put xs >>= fun next => next.put ys) = out.put (xs ++ ys) := by
  unfold put pos
  rw [List.length_append]
  by_cases hx : xs.length ≥ out.dstLen - out.dst.length
  · rw [if_pos hx, if_pos (by omega)]
    rfl
  · rw [if_neg hx, ok_bind, List.length_append]
    by_cases hy : ys.length ≥ out.dstLen - (out.dst.length + xs.length)
    · rw [if_pos hy, if_pos (by omega)]
    · rw [if_neg hy, if_neg (by omega), List.append_assoc]

end Writer

section
variable {w : PointerWidth} (algorithm : Algorithm) (version : Version) (params : Params w)
  (salt hash : List UInt8)

def validateForString (params : Params w) (saltLen hashLen : ℕ) : Except Error Unit :=
  validateInputs w hashLen 0 saltLen 0 0 params.memoryKib params.passes params.lanes params.threads

def encodeStringRaw (backend : Backend) (dstLen : ℕ) : Except Error Writer := do
  validateForString params salt.length hash.length
  let out ← Writer.put ⟨dstLen, []⟩ (ascii "$")
  let out ← out.put (asStr algorithm)
  let out ← out.put (ascii "$v=")
  let out ← out.putU32 version.asU32
  let out ← out.put (ascii "$m=")
  let out ← out.putU32 params.memoryKib
  let out ← out.put (ascii ",t=")
  let out ← out.putU32 params.passes
  let out ← out.put (ascii ",p=")
  let out ← out.putU32 params.lanes
  let out ← out.put (ascii "$")
  let out ← out.putBase64 backend salt
  let out ← out.put (ascii "$")
  out.putBase64 backend hash

def encodeStringAlloc (host : Host) : Except Error (List UInt8) := do
  validateForString params salt.length hash.length
  let capacity := wrapUsize host.width
    (encodedLen algorithm params.passes params.memoryKib params.lanes salt.length hash.length)
  reserveVec host capacity
  let out ← encodeStringRaw algorithm version params salt hash host.backend capacity
  .ok (out.dst.take out.pos)

end

def versionField : Option UInt32 → List UInt8
  | none => []
  | some version => ascii "$v=" ++ decimal version.toNat

/-- The text of a PHC string with the parameters in the order the encoder writes them. -/
def render (algorithm : Algorithm) (version : Option UInt32) (mCost tCost lanes : UInt32)
    (salt hash : List UInt8) : List UInt8 :=
  ascii "$" ++ (asStr algorithm ++ (versionField version ++ (ascii "$m=" ++ (decimal mCost.toNat ++
    (ascii ",t=" ++ (decimal tCost.toNat ++ (ascii ",p=" ++ (decimal lanes.toNat ++ (ascii "$" ++
      (text salt ++ (ascii "$" ++ text hash)))))))))))

section
variable {w : PointerWidth} (algorithm : Algorithm) (version : Version) (params : Params w)
  (salt hash : List UInt8)

def phcString : List UInt8 :=
  render algorithm (some version.asU32) params.memoryKib params.passes params.lanes salt hash

theorem encodedLen_eq :
    encodedLen algorithm params.passes params.memoryKib params.lanes salt.length hash.length =
      (phcString algorithm version params salt hash).length + 1 := by
  have hv : numLen Version.v0x13.asU32 = (decimal version.asU32.toNat).length := by
    rw [numLen_eq]
    cases version <;> decide
  unfold encodedLen phcString render versionField
  simp only [List.length_append, hv, numLen_eq, ← text_length]
  have hp : (ascii "$$v=$m=,t=,p=$$").length = 15 := rfl
  have h1 : (ascii "$").length = 1 := rfl
  have h2 : (ascii "$v=").length = 3 := rfl
  have h3 : (ascii "$m=").length = 3 := rfl
  have h4 : (ascii ",t=").length = 3 := rfl
  have h5 : (ascii ",p=").length = 3 := rfl
  omega

theorem encodeStringRaw_eq (backend : Backend) (dstLen : ℕ) :
    encodeStringRaw algorithm version params salt hash backend dstLen =
      (validateForString params salt.length hash.length >>= fun _ =>
        Writer.put ⟨dstLen, []⟩ (phcString algorithm version params salt hash)) := by
  unfold encodeStringRaw phcString render versionField
  simp only [Writer.putU32_eq, Writer.putBase64_eq, Writer.put_put, List.append_assoc]

theorem put_of_fits (dstLen : ℕ) (bytes : List UInt8) (h : bytes.length < dstLen) :
    Writer.put ⟨dstLen, []⟩ bytes = .ok ⟨dstLen, bytes⟩ := by
  unfold Writer.put Writer.pos
  simp only [List.length_nil, Nat.sub_zero, List.nil_append]
  exact if_neg (by omega)

theorem put_ok (dstLen : ℕ) (bytes : List UInt8) (out : Writer)
    (h : Writer.put ⟨dstLen, []⟩ bytes = .ok out) : bytes.length < dstLen ∧ out.dst = bytes := by
  unfold Writer.put Writer.pos at h
  simp only [List.length_nil, Nat.sub_zero, List.nil_append] at h
  by_cases hlen : bytes.length ≥ dstLen
  · rw [if_pos hlen] at h
    cases h
  · rw [if_neg hlen, Except.ok.injEq] at h
    rw [← h]
    exact ⟨by omega, rfl⟩

variable (host : Host)

theorem encodeStringAlloc_unfold :
    encodeStringAlloc algorithm version params salt hash host =
      (validateForString params salt.length hash.length >>= fun _ =>
        reserveVec host (wrapUsize host.width
          ((phcString algorithm version params salt hash).length + 1)) >>= fun _ =>
        Writer.put ⟨wrapUsize host.width
          ((phcString algorithm version params salt hash).length + 1), []⟩
          (phcString algorithm version params salt hash) >>= fun out =>
        .ok (out.dst.take out.pos)) := by
  unfold encodeStringAlloc
  dsimp only
  rw [encodedLen_eq algorithm version params salt hash, encodeStringRaw_eq]
  cases validateForString params salt.length hash.length with
  | error e => rfl
  | ok u => rfl

/-- Whatever the encoder returns is the rendered text, and it fits the address space. -/
theorem encodeStringAlloc_ok (s : List UInt8)
    (h : encodeStringAlloc algorithm version params salt hash host = .ok s) :
    validateForString params salt.length hash.length = .ok () ∧
      s = phcString algorithm version params salt hash ∧ s.length < isizeMax host.width := by
  rw [encodeStringAlloc_unfold] at h
  generalize phcString algorithm version params salt hash = string at h ⊢
  cases hv : validateForString params salt.length hash.length with
  | error e =>
    rw [hv] at h
    cases h
  | ok u =>
    rw [hv, ok_bind] at h
    cases hr : reserveVec host (wrapUsize host.width (string.length + 1)) with
    | error e =>
      rw [hr] at h
      cases h
    | ok u =>
      rw [hr, ok_bind] at h
      cases hp : Writer.put ⟨wrapUsize host.width (string.length + 1), []⟩ string with
      | error e =>
        rw [hp] at h
        cases h
      | ok out =>
        obtain ⟨hlt, hdst⟩ := put_ok _ _ _ hp
        have hcap := reserveVec_le host _ hr
        rw [hp, ok_bind, Except.ok.injEq, Writer.pos, List.take_length, hdst] at h
        exact ⟨rfl, h.symm, by rw [← h]; omega⟩

theorem encodeStringAlloc_eq
    (hv : validateForString params salt.length hash.length = .ok ())
    (hfits : (phcString algorithm version params salt hash).length + 1 < 2 ^ host.width.bits)
    (hcap : reserveVec host ((phcString algorithm version params salt hash).length + 1) = .ok ()) :
    encodeStringAlloc algorithm version params salt hash host =
      .ok (phcString algorithm version params salt hash) := by
  rw [encodeStringAlloc_unfold, hv, ok_bind]
  generalize phcString algorithm version params salt hash = string at hfits hcap ⊢
  have hwrap : wrapUsize host.width (string.length + 1) = string.length + 1 :=
    Nat.mod_eq_of_lt hfits
  rw [hwrap, hcap, ok_bind, put_of_fits _ _ (by omega), ok_bind, Writer.pos, List.take_length]

end

end Argon2Rust.Encoding
