import Argon2Rust.Verification

set_option autoImplicit false

namespace Argon2Rust.SaltBound
open Parameters Base64 Encoding Decoding DecodeString RoundTrip Verification

structure Fields where
  version : Option UInt32
  mCost : UInt32
  tCost : UInt32
  lanes : UInt32
  salt : List UInt8
  hash : List UInt8

namespace Fields
variable (f : Fields) (host : Host) (algorithm : Algorithm) (ceiling : Params host.width)

def rendered : List UInt8 :=
  render algorithm f.version f.mCost f.tCost f.lanes f.salt f.hash

/-- The fields are such as the decoder accepts. -/
structure Decodable : Prop where
  version_known : ∃ v : Version, f.version.getD Version.v0x10.asU32 = v.asU32
  lengths : LengthsOk f.hash.length 0 f.salt.length 0 0
  costs : CostsOk host.width f.mCost.toNat f.tCost.toNat f.lanes.toNat f.lanes.toNat
  length_le : (f.rendered algorithm).length ≤ 0xFFFFFFFF
  reserves : Reserves host f.salt f.hash

structure UnderCeiling {w : PointerWidth} (ceiling : Params w) : Prop where
  tagLen_le : f.hash.length ≤ ceiling.tagLenBytes
  memory_le : f.mCost ≤ ceiling.memoryKib
  passes_le : f.tCost ≤ ceiling.passes
  lanes_le : f.lanes ≤ ceiling.lanes

structure Allowed : Prop extends Decodable f host algorithm, UnderCeiling f ceiling

/-- Everything in the string but the salt's text: the separators and names, the
algorithm, the version if it is written, the three costs and the tag's text. -/
def otherBytes : ℕ :=
  12 + (asStr algorithm).length + (f.version.elim 0 fun v => 3 + digitCount v.toNat) +
    digitCount f.mCost.toNat + digitCount f.tCost.toNat + digitCount f.lanes.toNat +
    (4 * f.hash.length + 2) / 3

/-- What the length gate leaves for the salt's text once the other fields are written. -/
def saltRoom : ℕ :=
  wrapUsize host.width (1384 + (asStr algorithm).length + digitCount ceiling.memoryKib.toNat +
    digitCount ceiling.passes.toNat + digitCount ceiling.lanes.toNat +
    (4 * ceiling.tagLenBytes + 2) / 3) - f.otherBytes algorithm

/-- The salt is over the bound, yet its text fits what the other fields leave. -/
structure Roomy : Prop extends Decodable f host algorithm where
  salt_gt : boundedMaxSaltLen.toNat < f.salt.length
  salt_fits : (4 * f.salt.length + 2) / 3 ≤ saltRoom f host algorithm ceiling

structure Overlong : Prop extends Allowed f host algorithm ceiling, Roomy f host algorithm ceiling

theorem rendered_length :
    (f.rendered algorithm).length = f.otherBytes algorithm + (4 * f.salt.length + 2) / 3 := by
  have hdecimal (n : UInt32) : (decimal n.toNat).length = digitCount n.toNat := by
    rw [← numLen_eq, numLen_eq_digitCount]
  have hversion : (versionField f.version).length =
      f.version.elim 0 fun v => 3 + digitCount v.toNat := by
    cases f.version with
    | none => rfl
    | some v =>
      rw [versionField, List.length_append, hdecimal]
      rfl
  have h1 : (ascii "$").length = 1 := rfl
  have h3 : (ascii "$m=").length = 3 := rfl
  have h4 : (ascii ",t=").length = 3 := rfl
  have h5 : (ascii ",p=").length = 3 := rfl
  unfold rendered render otherBytes
  simp only [List.length_append, text_length, hdecimal, hversion, h1, h3, h4, h5,
    b64LenUsize_eq, Sextets.encodedLength]
  omega

theorem maxEncoded_eq_sum : maxEncoded host algorithm ceiling =
    wrapUsize host.width (1384 + (asStr algorithm).length + digitCount ceiling.memoryKib.toNat +
      digitCount ceiling.passes.toNat + digitCount ceiling.lanes.toNat +
      (4 * ceiling.tagLenBytes + 2) / 3) := by
  have htag : (UInt32.ofNat ceiling.tagLenBytes).toNat = ceiling.tagLenBytes := by
    rw [Params.tagLenBytes, UInt32.ofNat_toNat]
  have hsalt : (4 * boundedMaxSaltLen.toNat + 2) / 3 = 1366 := by decide
  unfold maxEncoded
  rw [encodedLen_eq_sum, htag, hsalt]
  exact congrArg (wrapUsize host.width) (by omega)

variable {f host algorithm ceiling}

theorem fits_iff (hsalt : boundedMaxSaltLen.toNat < f.salt.length) :
    (4 * f.salt.length + 2) / 3 ≤ saltRoom f host algorithm ceiling ↔
      (f.rendered algorithm).length ≤ maxEncoded host algorithm ceiling := by
  have hval : boundedMaxSaltLen.toNat = 1024 := rfl
  rw [rendered_length, maxEncoded_eq_sum]
  unfold saltRoom
  omega

theorem Decodable.decodes (h : f.Decodable host algorithm) :
    ∃ d, decodeString host (f.rendered algorithm) algorithm = .ok d ∧ d.salt = f.salt ∧
      ∀ ceiling, Within d.params ceiling ↔ f.UnderCeiling ceiling := by
  obtain ⟨v, hv⟩ := h.version_known
  have htag : (UInt32.ofNat f.hash.length).toNat = f.hash.length :=
    UInt32.toNat_ofNat_of_lt' (Nat.lt_succ_of_le h.lengths.out_le)
  have hvalid : validateInputs host.width (UInt32.ofNat f.hash.length).toNat 0
      minSaltLength.toNat 0 0 f.mCost f.tCost f.lanes f.lanes = .ok () := by
    rw [htag, validateInputs_ok_iff]
    exact ⟨⟨h.lengths.out_ge, h.lengths.out_le, Nat.zero_le _, le_rfl, by decide, Nat.zero_le _,
      Nat.zero_le _⟩, h.costs⟩
  let d : Decoded host.width :=
    { algorithm := algorithm, version := v
      params := ⟨f.mCost, f.tCost, f.lanes, f.lanes, UInt32.ofNat f.hash.length, hvalid⟩
      salt := f.salt, hash := f.hash, ad := [] }
  have hd : Carries algorithm (f.version.getD Version.v0x10.asU32) d.params.mCost d.params.tCost
      d.params.lanes d.salt d.hash [] d :=
    ⟨rfl, hv.symm, rfl, rfl, rfl, rfl, htag, rfl, rfl, rfl⟩
  refine ⟨d, ?_, rfl, fun ceiling => ⟨fun hw => ?_, fun hu => ?_⟩⟩
  · exact (decodeString_ok_iff host algorithm _ d).mpr
      ⟨h.length_le, h.lengths, h.reserves, f.version, rfl, hd⟩
  · exact ⟨htag.ge.trans hw.tagLen_le, hw.memory_le, hw.passes_le, hw.lanes_le⟩
  · exact ⟨htag.le.trans hu.tagLen_le, hu.memory_le, hu.passes_le, hu.lanes_le⟩

theorem Decodable.decodeBounded_gate (h : f.Decodable host algorithm)
    (hsalt : boundedMaxSaltLen.toNat < f.salt.length) :
    decodeBounded host (f.rendered algorithm) algorithm ceiling = .error .decodingLengthFail ↔
      ¬ (4 * f.salt.length + 2) / 3 ≤ saltRoom f host algorithm ceiling := by
  obtain ⟨d, hd, -⟩ := h.decodes
  rw [fits_iff hsalt, decodeBounded_error_iff]
  constructor
  · rintro (⟨hgt, -⟩ | ⟨-, herr⟩ | ⟨-, d', -, hhead⟩) hle
    · exact absurd hle (not_le.mpr hgt)
    · rw [hd] at herr
      cases herr
    · have hmem := exceeded_subset _ _ (List.mem_of_head? hhead)
      revert hmem
      decide
  · intro hgt
    exact Or.inl ⟨not_le.mp hgt, rfl⟩

/-- Past the gate, costs over the ceiling are an error of their own. -/
theorem Roomy.decodeBounded_exceeded (h : f.Roomy host algorithm ceiling)
    (hover : ¬ f.UnderCeiling ceiling) :
    ∃ e ∈ ceilingErrors,
      decodeBounded host (f.rendered algorithm) algorithm ceiling = .error e := by
  obtain ⟨d, hd, -, hwithin⟩ := h.decodes
  have hle := (fits_iff h.salt_gt).mp h.salt_fits
  cases hresult : decodeBounded host (f.rendered algorithm) algorithm ceiling with
  | ok d' =>
    obtain ⟨-, d', hd', hw, -⟩ := (decodeBounded_ok_iff host _ algorithm ceiling _).mp hresult
    rw [hd, Except.ok.injEq] at hd'
    subst hd'
    exact absurd ((hwithin ceiling).mp hw) hover
  | error e =>
    obtain ⟨hgt, -⟩ | ⟨-, herr⟩ | ⟨-, d', -, hhead⟩ :=
      (decodeBounded_error_iff host _ algorithm ceiling e).mp hresult
    · exact absurd hle (not_le.mpr hgt)
    · rw [hd] at herr
      cases herr
    · exact ⟨e, exceeded_subset _ _ (List.mem_of_head? hhead), rfl⟩

theorem Overlong.decodeBounded_ok (h : f.Overlong host algorithm ceiling) :
    ∃ d, decodeBounded host (f.rendered algorithm) algorithm ceiling = .ok d ∧
      ¬ d.salt.length ≤ boundedMaxSaltLen.toNat := by
  obtain ⟨d, hd, hsalt, hwithin⟩ := h.decodes
  have hle := (fits_iff h.salt_gt).mp h.salt_fits
  have hgt := h.salt_gt
  rw [← hsalt] at hgt
  exact ⟨_, (decodeBounded_ok_iff host _ algorithm ceiling _).mpr
    ⟨hle, d, hd, (hwithin ceiling).mpr h.toUnderCeiling, rfl⟩, not_le.mpr hgt⟩

end Fields

section
variable (host : Host) (algorithm : Algorithm) (ceiling : Params host.width)

theorem fields_of_decodeString (encoded : List UInt8) (d : Decoded host.width)
    (h : decodeString host encoded algorithm = .ok d) :
    ∃ f : Fields, f.Decodable host algorithm ∧ encoded = f.rendered algorithm ∧
      d.salt = f.salt ∧ (Within d.params ceiling → f.UnderCeiling ceiling) := by
  obtain ⟨hlen, hlens, hres, version, hs, hcarries⟩ :=
    (decodeString_ok_iff host algorithm encoded d).mp h
  have hcosts := d.params.costs
  rw [hcarries.threads_eq] at hcosts
  let f : Fields :=
    ⟨version, d.params.mCost, d.params.tCost, d.params.lanes, d.salt, d.hash⟩
  have hrendered : encoded = f.rendered algorithm := hs
  rw [hrendered] at hlen
  refine ⟨f, ⟨⟨d.version, hcarries.version_eq.symm⟩, hlens, hcosts, hlen, hres⟩, hrendered, rfl, ?_⟩
  intro hwithin
  have htag := hwithin.tagLen_le
  rw [hcarries.tagLen_eq] at htag
  exact ⟨htag, hwithin.memory_le, hwithin.passes_le, hwithin.lanes_le⟩

theorem overlong_of_decodeBounded (encoded : List UInt8) (d : Decoded host.width)
    (h : decodeBounded host encoded algorithm ceiling = .ok d)
    (hsalt : boundedMaxSaltLen.toNat < d.salt.length) :
    ∃ f : Fields, f.Overlong host algorithm ceiling ∧ encoded = f.rendered algorithm := by
  obtain ⟨hgate, d, hd, hwithin, rfl⟩ := (decodeBounded_ok_iff host encoded algorithm ceiling _).mp h
  obtain ⟨f, hf, rfl, hfsalt, hunder⟩ := fields_of_decodeString host algorithm ceiling encoded d hd
  change boundedMaxSaltLen.toNat < d.salt.length at hsalt
  rw [hfsalt] at hsalt
  exact ⟨f, ⟨⟨hf, hunder hwithin⟩, hsalt, (Fields.fits_iff hsalt).mpr hgate⟩, rfl⟩

/-- The documented bound holds of a string exactly when the string is not one whose other
fields leave room for its longer salt: of the results within the ceiling, of the rejection
of strings within the ceiling, and of the rejection of every string the decoder accepts.
Past the gate, a longer salt in a string over the ceiling is rejected for its costs. -/
theorem saltBound_iff (encoded : List UInt8) :
    ((∀ d, decodeBounded host encoded algorithm ceiling = .ok d →
        d.salt.length ≤ boundedMaxSaltLen.toNat) ↔
      ¬ ∃ f : Fields, f.Overlong host algorithm ceiling ∧ encoded = f.rendered algorithm) ∧
    ((∀ f : Fields, f.Allowed host algorithm ceiling → encoded = f.rendered algorithm →
        boundedMaxSaltLen.toNat < f.salt.length →
        decodeBounded host encoded algorithm ceiling = .error .decodingLengthFail) ↔
      ¬ ∃ f : Fields, f.Overlong host algorithm ceiling ∧ encoded = f.rendered algorithm) ∧
    ((∀ d, decodeString host encoded algorithm = .ok d →
        boundedMaxSaltLen.toNat < d.salt.length →
        decodeBounded host encoded algorithm ceiling = .error .decodingLengthFail) ↔
      ¬ ∃ f : Fields, f.Roomy host algorithm ceiling ∧ encoded = f.rendered algorithm) ∧
    ∀ f : Fields, f.Roomy host algorithm ceiling → encoded = f.rendered algorithm →
      ¬ f.UnderCeiling ceiling →
      ∃ e ∈ ceilingErrors, decodeBounded host encoded algorithm ceiling = .error e := by
  refine ⟨⟨?_, fun hnone d hd => ?_⟩, ⟨?_, ?_⟩, ⟨?_, fun hnone d hd hsalt => ?_⟩, ?_⟩
  · rintro hbound ⟨f, hf, rfl⟩
    obtain ⟨d, hd, hgt⟩ := hf.decodeBounded_ok
    exact hgt (hbound d hd)
  · by_contra hgt
    exact hnone (overlong_of_decodeBounded host algorithm ceiling encoded d hd (not_le.mp hgt))
  · rintro hreject ⟨f, hf, rfl⟩
    exact (hf.decodeBounded_gate hf.salt_gt).mp (hreject f hf.toAllowed rfl hf.salt_gt)
      hf.salt_fits
  · rintro hnone f hf rfl hsalt
    refine (hf.decodeBounded_gate hsalt).mpr fun hfits => ?_
    exact hnone ⟨f, ⟨hf, hsalt, hfits⟩, rfl⟩
  · rintro hreject ⟨f, hf, rfl⟩
    obtain ⟨d, hd, hsalt, -⟩ := hf.decodes
    have hgt := hf.salt_gt
    rw [← hsalt] at hgt
    exact (hf.decodeBounded_gate hf.salt_gt).mp (hreject d hd hgt) hf.salt_fits
  · obtain ⟨f, hf, rfl, hfsalt, -⟩ := fields_of_decodeString host algorithm ceiling encoded d hd
    rw [hfsalt] at hsalt
    refine (hf.decodeBounded_gate hsalt).mpr fun hfits => ?_
    exact hnone ⟨f, ⟨hf, hsalt, hfits⟩, rfl⟩
  · rintro f hf rfl hover
    exact hf.decodeBounded_exceeded hover

/-- On a 64-bit host the least a string can be written in leaves 1367 characters. -/
theorem saltRoom_ge (hw : host.width = .bits64) (f : Fields)
    (hf : f.otherBytes algorithm ≤ 26 + (asStr algorithm).length) :
    1367 ≤ f.saltRoom host algorithm ceiling := by
  have hname : (asStr algorithm).length ≤ 8 := by cases algorithm <;> decide
  have htag : 4 ≤ ceiling.tagLenBytes := ceiling.lengths.out_ge
  have htag' : ceiling.tagLenBytes ≤ 0xFFFFFFFF := ceiling.lengths.out_le
  have hm := digitCount_pos ceiling.memoryKib.toNat
  have ht := digitCount_pos ceiling.passes.toNat
  have hl := digitCount_pos ceiling.lanes.toNat
  have hm' := digitCount_le ceiling.memoryKib
  have ht' := digitCount_le ceiling.passes
  have hl' := digitCount_le ceiling.lanes
  have hbits : host.width.bits = 64 := congrArg PointerWidth.bits hw
  unfold Fields.saltRoom wrapUsize
  rw [hbits, Nat.mod_eq_of_lt (by omega)]
  omega

def longSalt (version : Option UInt32) (mCost : UInt32) : Fields where
  version := version
  mCost := mCost
  tCost := minTime
  lanes := minLanes
  salt := List.replicate 1025 0
  hash := [0, 0, 0, 0]

theorem longSalt_length (version : Option UInt32) (mCost : UInt32) :
    (longSalt version mCost).salt.length = 1025 := List.length_replicate

theorem longSalt_otherBytes (version : Option UInt32) (mCost : UInt32) :
    (longSalt version mCost).otherBytes algorithm = 20 + (asStr algorithm).length +
      (version.elim 0 fun v => 3 + digitCount v.toNat) + digitCount mCost.toNat := by
  have hone : digitCount 1 = 1 := by decide
  change 12 + (asStr algorithm).length + (version.elim 0 fun v => 3 + digitCount v.toNat) +
    digitCount mCost.toNat + digitCount 1 + digitCount 1 + (4 * 4 + 2) / 3 = _
  rw [hone]
  omega

theorem longSalt_decodable (hw : host.width = .bits64) (halloc : host.Allocates)
    {version : Option UInt32} {mCost : UInt32}
    (hversion : ∃ v : Version, version.getD Version.v0x10.asU32 = v.asU32)
    (hmem : 8 ≤ mCost.toNat) (hmem' : mCost.toNat ≤ (maxMemory host.width).toNat) :
    (longSalt version mCost).Decodable host algorithm := by
  have hbits : host.width.bits = 64 := congrArg PointerWidth.bits hw
  have hname : (asStr algorithm).length ≤ 8 := by cases algorithm <;> decide
  have hsalt := longSalt_length version mCost
  have hlength : ((longSalt version mCost).rendered algorithm).length ≤ 1418 := by
    have hm := digitCount_le mCost
    have hv : (version.elim 0 fun v => 3 + digitCount v.toNat) ≤ 13 := by
      cases version with
      | none => exact Nat.zero_le 13
      | some v => exact Nat.add_le_add_left (digitCount_le v) 3
    rw [Fields.rendered_length, longSalt_otherBytes, hsalt]
    omega
  have htime : 1 ≤ minTime.toNat := by decide
  have hlanes : 1 ≤ minLanes.toNat ∧ minLanes.toNat ≤ 0xFFFFFF := by decide
  have htag : 4 ≤ [(0 : UInt8), 0, 0, 0].length ∧ [(0 : UInt8), 0, 0, 0].length ≤ 0xFFFFFFFF := by
    decide
  refine ⟨hversion, ⟨htag.1, htag.2, by decide, ?_, ?_, by decide, by decide⟩,
    ⟨hmem, hmem', hmem, htime, hlanes.1, hlanes.2, hlanes.1, hlanes.2⟩, by omega, ?_⟩
  · rw [hsalt]
    decide
  · rw [hsalt]
    decide
  · refine reserves_of_allocates host halloc _ _ (binCapacity_le _ ?_)
    have hle : (text (longSalt version mCost).salt ++
        (ascii "$" ++ text (longSalt version mCost).hash)).length ≤
        ((longSalt version mCost).rendered algorithm).length := by
      simp only [Fields.rendered, render, List.length_append]
      omega
    unfold isizeMax
    rw [hbits]
    omega

def oneMore : Fields := longSalt (some Version.v0x13.asU32) minMemory

/-- On a 64-bit host every ceiling lets a salt of 1025 bytes through. -/
theorem oneMore_overlong (hw : host.width = .bits64) (halloc : host.Allocates) :
    oneMore.Overlong host algorithm ceiling := by
  have hcosts := ceiling.costs
  have hmemory : 8 ≤ (maxMemory host.width).toNat := hcosts.memory_ge.trans hcosts.memory_le
  have hother : oneMore.otherBytes algorithm ≤ 26 + (asStr algorithm).length := by
    have hdigits : digitCount 8 = 1 := by decide
    have hversion : digitCount 19 = 2 := by decide
    refine (longSalt_otherBytes algorithm _ _).le.trans ?_
    change 20 + (asStr algorithm).length + (3 + digitCount 19) + digitCount 8 ≤ _
    omega
  have hsalt : oneMore.salt.length = 1025 := longSalt_length _ _
  have hroom := saltRoom_ge host algorithm ceiling hw oneMore hother
  refine ⟨⟨longSalt_decodable host algorithm hw halloc ⟨.v0x13, rfl⟩ (by decide) hmemory,
    ceiling.lengths.out_ge, ?_, ?_, ?_⟩, ?_, ?_⟩
  · exact UInt32.le_iff_toNat_le.mpr hcosts.memory_ge
  · exact UInt32.le_iff_toNat_le.mpr hcosts.time_ge
  · exact UInt32.le_iff_toNat_le.mpr hcosts.lanes_ge
  · rw [hsalt]
    decide
  · rw [hsalt]
    exact hroom

end

theorem saltBound_fails :
    ∃ d, decodeBounded plainHost (oneMore.rendered .argon2id) .argon2id Params.least = .ok d ∧
      ¬ d.salt.length ≤ boundedMaxSaltLen.toNat :=
  (oneMore_overlong plainHost .argon2id Params.least rfl fun _ _ => rfl).decodeBounded_ok

def overCeiling : Fields := longSalt none 16

theorem overCeiling_roomy : overCeiling.Roomy plainHost .argon2id Params.least := by
  have hother : overCeiling.otherBytes .argon2id ≤ 26 + (asStr .argon2id).length := by
    have hdigits : digitCount 16 = 2 := by decide
    refine (longSalt_otherBytes .argon2id _ _).le.trans ?_
    change 20 + (asStr .argon2id).length + 0 + digitCount 16 ≤ _
    omega
  have hsalt : overCeiling.salt.length = 1025 := longSalt_length _ _
  have hroom := saltRoom_ge plainHost .argon2id Params.least rfl overCeiling hother
  refine ⟨longSalt_decodable plainHost .argon2id rfl (fun _ _ => rfl) ⟨.v0x10, rfl⟩ (by decide)
    (by decide), ?_, ?_⟩
  · rw [hsalt]
    decide
  · rw [hsalt]
    exact hroom

theorem saltBound_iff_overCeiling :
    ∃ e ∈ ceilingErrors, decodeBounded plainHost (overCeiling.rendered .argon2id) .argon2id
      Params.least = .error e :=
  (saltBound_iff plainHost .argon2id Params.least _).2.2.2 overCeiling overCeiling_roomy rfl
    fun h => absurd h.memory_le (by decide)

end Argon2Rust.SaltBound
