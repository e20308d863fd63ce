import Argon2Rust.ParameterChecks
import Argon2Rust.RoundTrip

set_option autoImplicit false

namespace Argon2Rust.ErrorPrecedence
open Parameters Numeral Base64 Cursor Encoding Decoding DecodeString
open FirstFailure ParameterChecks RoundTrip

def Malformed (e : Error) : Prop := e = .decodingFail

theorem readFields_malformed (src : List UInt8) (host : Host) (halloc : host.Allocates)
    (hsrc : src.length ≤ isizeMax host.width) (algorithm : Algorithm) :
    OnlyFails Malformed (readFields host src algorithm) := by
  refine readFields_fails (p := Malformed) host algorithm rfl src fun cap hcap => ?_
  rw [reserveVec_ok host halloc cap (hcap.trans (binCapacity_le src.length hsrc))]
  exact OnlyFails.ok _

def fieldChecks (w : PointerWidth) (f : Fields) : List (Check Error) :=
  inputChecks w f.hash.length 0 f.salt.length 0 0 f.mCost.toNat f.tCost.toNat f.lanes.toNat
    f.lanes.toNat

section Judge
variable (w : PointerWidth) (algorithm : Algorithm) (f : Fields)

/-- `build` re-runs checks that have passed already, so rebuilding fails at most on
a version that does not exist. -/
theorem assemble_malformed (hhash : f.hash.length ≤ 0xFFFFFFFF)
    (hvalid : validateInputs w f.hash.length 0 f.salt.length 0 0 f.mCost f.tCost f.lanes f.lanes =
      .ok ()) :
    OnlyFails Malformed
      (assemble w algorithm f.versionValue f.mCost f.tCost f.lanes f.salt f.hash []) := by
  obtain ⟨hlens, hcosts⟩ := (validateInputs_ok_iff _ _ _ _ _ _ _ _ _ _).mp hvalid
  have hnat : (UInt32.ofNat f.hash.length).toNat = f.hash.length :=
    UInt32.toNat_ofNat_of_lt' (by change _ < 2 ^ 32; omega)
  have hlens' : LengthsOk (UInt32.ofNat f.hash.length).toNat 0 minSaltLength.toNat 0 0 := by
    rw [hnat]
    exact { hlens with salt_ge := le_rfl, salt_le := by decide }
  let params : Params w :=
    { mCost := f.mCost, tCost := f.tCost, lanes := f.lanes, threads := f.lanes
      outputLen := UInt32.ofNat f.hash.length
      valid := (validateInputs_ok_iff _ _ _ _ _ _ _ _ _ _).mpr ⟨hlens', hcosts⟩ }
  have hout : UInt64.ofNat f.hash.length = params.outputLen.toUInt64 := by
    apply UInt64.toNat_inj.mp
    rw [UInt32.toNat_toUInt64, hnat]
    exact UInt64.toNat_ofNat_of_lt' (by change _ < 2 ^ 64; omega)
  have hbuild : ParamsBuilder.build w
      { memory := f.mCost.toUInt64, passes := f.tCost, lanes := f.lanes, threads := some f.lanes
        tagLen := UInt64.ofNat f.hash.length } = .ok params :=
    build_eq_ok _ params rfl rfl rfl rfl hout
  unfold assemble
  apply OnlyFails.bind
  · intro e he
    cases hv : Version.fromU32 f.versionValue with
    | none =>
      rw [hv] at he
      exact (Except.error.inj he).symm
    | some version =>
      rw [hv] at he
      cases he
  · intro version
    rw [hbuild]
    exact OnlyFails.ok _

theorem judge_of_firstFailure (atEnd : Bool) (e : Error)
    (h : firstFailure (fieldChecks w f) = some e) : f.judge w algorithm atEnd = .error e := by
  unfold Fields.judge
  rw [validateInputs_eq]
  change (verdict (firstFailure (fieldChecks w f)) >>= _) = _
  rw [h]
  rfl

theorem firstFailure_of_judge (atEnd : Bool) (e : Error) (hhash : f.hash.length ≤ 0xFFFFFFFF)
    (he : ¬ Malformed e) (h : f.judge w algorithm atEnd = .error e) :
    firstFailure (fieldChecks w f) = some e := by
  rw [← verdict_eq_error, fieldChecks, ← validateInputs_eq]
  unfold Fields.judge at h
  cases hv : validateInputs w f.hash.length 0 f.salt.length 0 0 f.mCost f.tCost f.lanes f.lanes with
  | error e' =>
    rw [hv, error_bind, Except.error.injEq] at h
    rw [h]
  | ok u =>
    rw [hv, ok_bind] at h
    refine absurd ?_ he
    cases atEnd with
    | false =>
      rw [if_pos rfl] at h
      exact (Except.error.inj h).symm
    | true =>
      rw [if_neg (by decide)] at h
      exact assemble_malformed w algorithm f hhash hv e h

end Judge

/-- The strings on which an error other than `DecodingFail` is reported. -/
def Reports (w : PointerWidth) (algorithm : Algorithm) (s : List UInt8) (e : Error) : Prop :=
  ∃ version mCost tCost lanes salt hash tail,
    s = render algorithm version mCost tCost lanes salt hash ++ tail ∧ Stops isAlphabet tail ∧
      firstFailure (inputChecks w hash.length 0 salt.length 0 0 mCost.toNat tCost.toNat lanes.toNat
        lanes.toNat) = some e

section Decode
variable (host : Host) (algorithm : Algorithm)

theorem decodeString_of_at {f : Fields} {version : Option UInt32} {tail encoded : List UInt8}
    (hlen : encoded.length ≤ 0xFFFFFFFF) (h : f.At host algorithm version tail encoded) :
    decodeString host encoded algorithm = f.judge host.width algorithm tail.isEmpty := by
  rw [decodeString_eq host algorithm encoded hlen, h.readFields, ok_bind]
  congr 1
  rw [h.encoded_eq, List.length_append]
  cases tail with
  | nil => simp
  | cons c tail => simp

theorem length_le_text (bytes : List UInt8) : bytes.length ≤ (text bytes).length := by
  have h := text_length_quarters bytes
  omega

variable (halloc : host.Allocates)
include halloc

/-- With every reservation granted, the shape of the string is all that reading needs. -/
theorem at_of_render {f : Fields} {version : Option UInt32} {tail encoded : List UInt8}
    (hlen : encoded.length ≤ 0xFFFFFFFF) (hslice : encoded.length ≤ isizeMax host.width)
    (hver : version.getD Version.v0x10.asU32 = f.versionValue)
    (hs : encoded = f.render algorithm version ++ tail) (hstops : Stops isAlphabet tail) :
    f.At host algorithm version tail encoded := by
  have hsum : (text f.salt ++ (ascii "$" ++ (text f.hash ++ tail))).length ≤ encoded.length := by
    rw [hs, Fields.render, render]
    simp only [List.length_append]
    omega
  have hsalt := length_le_text f.salt
  have hhash := length_le_text f.hash
  have hparts : (text f.salt).length + (text f.hash ++ tail).length ≤
      (text f.salt ++ (ascii "$" ++ (text f.hash ++ tail))).length := by
    simp only [List.length_append]
    omega
  have htext : (text f.hash).length ≤ (text f.hash ++ tail).length := by
    rw [List.length_append]
    exact Nat.le_add_right _ _
  exact ⟨hver, hs, hstops, by omega, by omega,
    reserveVec_ok host halloc _ (binCapacity_le _ (hsum.trans hslice)),
    reserveVec_ok host halloc _ (binCapacity_le _ (by omega))⟩

theorem decodeString_error_iff (s : List UInt8) (hlen : s.length ≤ 0xFFFFFFFF)
    (hslice : s.length ≤ isizeMax host.width) (e : Error) (he : e ≠ .decodingFail) :
    decodeString host s algorithm = .error e ↔ Reports host.width algorithm s e := by
  constructor
  · intro h
    cases hr : readFields host s algorithm with
    | error e' =>
      have hmal := readFields_malformed s host halloc hslice algorithm e' hr
      rw [decodeString_eq host algorithm s hlen, hr, error_bind, Except.error.injEq] at h
      exact absurd (h.symm.trans hmal) he
    | ok r =>
      obtain ⟨f, next⟩ := r
      obtain ⟨version, hat, -⟩ := readFields_ok host algorithm s f next hr
      rw [decodeString_of_at host algorithm hlen hat] at h
      exact ⟨version, f.mCost, f.tCost, f.lanes, f.salt, f.hash, _, hat.encoded_eq, hat.stops,
        firstFailure_of_judge _ algorithm f _ e hat.hash_le he h⟩
  · rintro ⟨version, mCost, tCost, lanes, salt, hash, tail, hs, hstops, hfirst⟩
    let f : Fields := ⟨version.getD Version.v0x10.asU32, mCost, tCost, lanes, salt, hash⟩
    have hat : f.At host algorithm version tail s :=
      at_of_render host algorithm halloc hlen hslice rfl hs hstops
    rw [decodeString_of_at host algorithm hlen hat]
    exact judge_of_firstFailure _ algorithm f _ e hfirst

end Decode

section Precedence
variable {w : PointerWidth} {algorithm : Algorithm} {s : List UInt8} {e : Error}

theorem stops_append {α : Type} {p : α → Bool} {xs ys : List α} (hx : Stops p xs)
    (hy : Stops p ys) : Stops p (xs ++ ys) := by
  cases xs with
  | nil => exact hy
  | cons c xs => exact stops_cons (hx c rfl) _

theorem Reports.append (h : Reports w algorithm s e) {junk : List UInt8}
    (hjunk : Stops isAlphabet junk) : Reports w algorithm (s ++ junk) e := by
  obtain ⟨version, mCost, tCost, lanes, salt, hash, tail, rfl, hstops, hfirst⟩ := h
  exact ⟨version, mCost, tCost, lanes, salt, hash, tail ++ junk, List.append_assoc _ _ _,
    stops_append hstops hjunk, hfirst⟩

def withVersion (name : Algorithm) (v : UInt32) (rest : List UInt8) : List UInt8 :=
  ascii "$" ++ (asStr name ++ (ascii "$v=" ++ (decimal v.toNat ++ rest)))

/-- The number that `withVersion` holds is the one in the shape: both are maximal digit runs. -/
theorem Reports.replace_version {v : UInt32} {rest : List UInt8} (hrest : Stops isAsciiDigit rest)
    (h : Reports w algorithm (withVersion algorithm v rest) e) (v' : UInt32) :
    Reports w algorithm (withVersion algorithm v' rest) e := by
  obtain ⟨version, mCost, tCost, lanes, salt, hash, tail, hs, hstops, hfirst⟩ := h
  unfold withVersion render at hs
  simp only [List.append_assoc, List.append_cancel_left_eq] at hs
  cases version with
  | none => simp [ascii, versionField] at hs
  | some u =>
    simp only [versionField, List.append_assoc, List.append_cancel_left_eq] at hs
    have hmark : ∀ more, Stops isAsciiDigit (ascii "$m=" ++ more) := fun more => stops_cons rfl _
    have hrun := congrArg (List.takeWhile isAsciiDigit) hs
    rw [run_append (decimal_digits _) hrest, run_append (decimal_digits _) (hmark _)] at hrun
    rw [hrun, List.append_cancel_left_eq] at hs
    refine ⟨some v', mCost, tCost, lanes, salt, hash, tail, ?_, hstops, hfirst⟩
    unfold withVersion render
    rw [hs]
    simp only [versionField, List.append_assoc]

end Precedence

section Laws
variable (host : Host) (algorithm : Algorithm) (halloc : host.Allocates)
include halloc

theorem decodeString_ok_append (s junk : List UInt8) (hne : junk ≠ []) (hstops : Stops isAlphabet junk)
    (hlen : (s ++ junk).length ≤ 0xFFFFFFFF) (hslice : (s ++ junk).length ≤ isizeMax host.width)
    {d : Decoded host.width} (h : decodeString host s algorithm = .ok d) :
    decodeString host (s ++ junk) algorithm = .error .decodingFail := by
  obtain ⟨-, hlens, version, hs, hd⟩ := decodeString_ok host algorithm s d h
  let f : Fields := ⟨version.getD Version.v0x10.asU32, d.params.mCost, d.params.tCost,
    d.params.lanes, d.salt, d.hash⟩
  have hat : f.At host algorithm version junk (s ++ junk) :=
    at_of_render host algorithm halloc hlen hslice rfl (by rw [hs]; rfl) hstops
  have hok := (f.judge_ok_iff algorithm host.width true hlens.out_le d).mpr ⟨hlens, rfl, hd⟩
  have hempty : junk.isEmpty = false := by
    rw [List.isEmpty_eq_false_iff]
    exact hne
  rw [decodeString_of_at host algorithm hlen hat, hempty]
  unfold Fields.judge at hok ⊢
  obtain ⟨u, hvalid, -⟩ := (bind_ok_iff _ _ _).mp hok
  rw [hvalid]
  rfl

theorem decodeString_error_version (name : Algorithm) (v v' : UInt32) (rest : List UInt8)
    (hrest : Stops isAsciiDigit rest)
    (hlen : (withVersion name v rest).length ≤ 0xFFFFFFFF)
    (hslice : (withVersion name v rest).length ≤ isizeMax host.width)
    (hlen' : (withVersion name v' rest).length ≤ 0xFFFFFFFF)
    (hslice' : (withVersion name v' rest).length ≤ isizeMax host.width) (e : Error)
    (he : e ≠ .decodingFail) :
    decodeString host (withVersion name v rest) algorithm = .error e ↔
      decodeString host (withVersion name v' rest) algorithm = .error e := by
  by_cases hname : name = algorithm
  · subst hname
    rw [decodeString_error_iff host name halloc _ hlen hslice e he,
      decodeString_error_iff host name halloc _ hlen' hslice' e he]
    exact ⟨fun h => h.replace_version hrest v', fun h => h.replace_version hrest v⟩
  · have hother : ∀ u, decodeString host (withVersion name u rest) algorithm =
        .error .decodingFail :=
      fun u => decodeString_other host name algorithm (ascii "v=" ++ (decimal u.toNat ++ rest))
        (Ne.symm hname)
    rw [hother v, hother v']

end Laws

/-- The precedence of the errors of `decode_string`: reading the shape, then the
parameter checks in their order, then the end of the string, and the version last. -/
theorem decodeString_precedence (host : Host) (halloc : host.Allocates) (algorithm : Algorithm) :
    (∀ s junk : List UInt8, junk ≠ [] → Stops isAlphabet junk →
      (s ++ junk).length ≤ 0xFFFFFFFF → (s ++ junk).length ≤ isizeMax host.width →
      (∀ e, e ≠ .decodingFail → decodeString host s algorithm = .error e →
        decodeString host (s ++ junk) algorithm = .error e) ∧
      (∀ d, decodeString host s algorithm = .ok d →
        decodeString host (s ++ junk) algorithm = .error .decodingFail)) ∧
    (∀ (name : Algorithm) (v v' : UInt32) (rest : List UInt8), Stops isAsciiDigit rest →
      (withVersion name v rest).length ≤ 0xFFFFFFFF →
      (withVersion name v rest).length ≤ isizeMax host.width →
      (withVersion name v' rest).length ≤ 0xFFFFFFFF →
      (withVersion name v' rest).length ≤ isizeMax host.width →
      ∀ e, e ≠ .decodingFail →
        (decodeString host (withVersion name v rest) algorithm = .error e ↔
          decodeString host (withVersion name v' rest) algorithm = .error e)) ∧
    (∀ s : List UInt8, s.length ≤ 0xFFFFFFFF → s.length ≤ isizeMax host.width →
      ∀ e, e ≠ .decodingFail →
        (decodeString host s algorithm = .error e ↔ Reports host.width algorithm s e)) := by
  refine ⟨?_, ?_, ?_⟩
  · intro s junk hne hstops hlen hslice
    have hle : s.length ≤ (s ++ junk).length := by
      rw [List.length_append]
      omega
    constructor
    · intro e he h
      have hrep := (decodeString_error_iff host algorithm halloc s (hle.trans hlen)
        (hle.trans hslice) e he).mp h
      exact (decodeString_error_iff host algorithm halloc _ hlen hslice e he).mpr
        (hrep.append hstops)
    · intro d h
      exact decodeString_ok_append host algorithm halloc s junk hne hstops hlen hslice h
  · intro name v v' rest hrest hlen hslice hlen' hslice' e he
    exact decodeString_error_version host algorithm halloc name v v' rest hrest hlen hslice hlen'
      hslice' e he
  · intro s hlen hslice e he
    exact decodeString_error_iff host algorithm halloc s hlen hslice e he

theorem decodeString_precedence_salt :
    decodeString plainHost (ascii "$argon2i$v=19$m=65536,t=2,p=1$$AAAAAA!!!") .argon2i =
      .error .saltTooShort ∧
    decodeString plainHost (ascii "$argon2i$v=99$m=65536,t=2,p=1$$AAAAAA") .argon2i =
      .error .saltTooShort := by
  have h := decodeString_precedence plainHost (fun _ _ => rfl) .argon2i
  have hs : decodeString plainHost (ascii "$argon2i$v=19$m=65536,t=2,p=1$$AAAAAA") .argon2i =
      .error .saltTooShort := by decide
  constructor
  · exact (h.1 (ascii "$argon2i$v=19$m=65536,t=2,p=1$$AAAAAA") (ascii "!!!") (by decide)
      (stops_cons (by decide) _) (by decide) (by decide)).1 .saltTooShort (by decide) hs
  · have hiff := h.2.1 .argon2i 19 99 (ascii "$m=65536,t=2,p=1$$AAAAAA") (stops_cons (by decide) _)
      (by decide) (by decide) (by decide) (by decide) .saltTooShort (by decide)
    exact hiff.mp hs

end Argon2Rust.ErrorPrecedence
