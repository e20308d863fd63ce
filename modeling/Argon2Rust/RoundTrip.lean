import Argon2Rust.DecodeString

set_option autoImplicit false

namespace Argon2Rust.RoundTrip
open Parameters Base64 Cursor Encoding Decoding DecodeString

section
variable {src : List UInt8} {pos : ℕ}

theorem asStr_starts (algorithm other : Algorithm) (tail : List UInt8) (hne : other ≠ algorithm)
    (h : asStr other <+: asStr algorithm ++ (ascii "$" ++ tail)) :
    other = .argon2i ∧ algorithm = .argon2id := by
  obtain ⟨rest, hrest⟩ := h
  cases algorithm <;> cases other <;> simp [asStr, ascii] at hrest hne ⊢

end

theorem decodeString_other (host : Host) (algorithm other : Algorithm) (tail : List UInt8)
    (hne : other ≠ algorithm) :
    decodeString host (ascii "$" ++ (asStr algorithm ++ (ascii "$" ++ tail))) other =
      .error .decodingFail := by
  generalize hs : ascii "$" ++ (asStr algorithm ++ (ascii "$" ++ tail)) = s
  unfold decodeString
  by_cases hlong : s.length > 0xFFFFFFFF
  · exact if_pos hlong
  · rw [if_neg hlong]
    have h0 : s.drop 0 = ascii "$" ++ _ := hs.symm
    obtain ⟨p1, r1, h1⟩ := exists_reads h0
    rw [(expect_ok_iff _ _).mpr r1, ok_bind]
    by_cases hpre : asStr other <+: s.drop p1
    · rw [h1] at hpre
      obtain ⟨rfl, rfl⟩ := asStr_starts algorithm other tail hne hpre
      obtain ⟨p2, r2, h2⟩ := exists_reads (h1.trans (rfl : _ = asStr .argon2i ++ (ascii "d$" ++ tail)))
      have hv : ¬ ascii "$v=" <+: s.drop p2 := by
        rw [h2]
        simp [ascii]
      have hm : ¬ ascii "$m=" <+: s.drop p2 := by
        rw [h2]
        simp [ascii]
      rw [(expect_ok_iff _ _).mpr r2, ok_bind, decodeVersion, expectOpt_none _ hv]
      simp only [ok_bind, expect_error _ hm, error_bind]
    · rw [expect_error _ hpre, error_bind]

/-- A 64-bit host without vector units whose allocator never refuses. -/
def plainHost : Host := ⟨.bits64, .scalar, fun _ => true⟩

def leastString : List UInt8 := ascii "$argon2id$v=19$m=8,t=1,p=1$c29tZXNhbHQ$AAAAAA"

def leastDecoded : Decoded .bits64 where
  algorithm := .argon2id
  version := .v0x13
  params := Params.least
  salt := ascii "somesalt"
  hash := [0, 0, 0, 0]
  ad := []

theorem decodeString_leastString :
    decodeString plainHost leastString .argon2id = .ok leastDecoded := by
  decide

section Decode
variable {w : PointerWidth} (backend backend' : Backend) (alloc alloc' : ℕ → Bool)

theorem encodeStringAlloc_carries (halloc : (Host.mk w backend' alloc').Allocates)
    (algorithm : Algorithm) (version : Version) (params : Params w) (salt hash : List UInt8)
    (htag : hash.length = params.tagLenBytes) (s : List UInt8)
    (hs : encodeStringAlloc algorithm version params salt hash ⟨w, backend, alloc⟩ = .ok s)
    (hlen : s.length ≤ 0xFFFFFFFF) :
    ∃ d, decodeString ⟨w, backend', alloc'⟩ s algorithm = .ok d ∧
      d.algorithm = algorithm ∧ d.version = version ∧ d.params.mCost = params.mCost ∧
      d.params.tCost = params.tCost ∧ d.params.lanes = params.lanes ∧
      d.params.tagLenBytes = params.tagLenBytes ∧ d.salt = salt ∧ d.hash = hash ∧ d.ad = [] ∧
      d.params.threads = d.params.lanes := by
  obtain ⟨hvalid, rfl, hfits⟩ := encodeStringAlloc_ok algorithm version params salt hash
    ⟨w, backend, alloc⟩ s hs
  have hlens := ((validateInputs_ok_iff _ _ _ _ _ _ _ _ _ _).mp hvalid).1
  have hcosts := params.costs
  have hvalid' : validateInputs w params.outputLen.toNat 0 minSaltLength.toNat 0 0 params.mCost
      params.tCost params.lanes params.lanes = .ok () :=
    (validateInputs_ok_iff _ _ _ _ _ _ _ _ _ _).mpr
      ⟨params.lengths, { hcosts with threads_ge := hcosts.lanes_ge, threads_le := hcosts.lanes_le }⟩
  let d : Decoded w :=
    { algorithm, version, params := { params with threads := params.lanes, valid := hvalid' }
      salt, hash, ad := [] }
  have hd : Carries algorithm ((some version.asU32).getD Version.v0x10.asU32) d.params.mCost
      d.params.tCost d.params.lanes d.salt d.hash [] d :=
    ⟨rfl, rfl, rfl, rfl, rfl, rfl, htag.symm, rfl, rfl, rfl⟩
  exact ⟨d, decodeString_render ⟨w, backend', alloc'⟩ algorithm halloc (some version.asU32) d hd
    hlens hlen hfits.le, rfl, rfl, rfl, rfl, rfl, rfl, rfl, rfl, rfl, rfl⟩

/-- Decoding returns what was encoded, with one worker per lane; every other
algorithm refuses the string. -/
theorem decodeString_encodeStringAlloc (halloc : (Host.mk w backend' alloc').Allocates)
    (algorithm : Algorithm) (version : Version) (params : Params w) (salt hash : List UInt8)
    (htag : hash.length = params.tagLenBytes) (s : List UInt8)
    (hs : encodeStringAlloc algorithm version params salt hash ⟨w, backend, alloc⟩ = .ok s)
    (hlen : s.length ≤ 0xFFFFFFFF) :
    (∃ d, decodeString ⟨w, backend', alloc'⟩ s algorithm = .ok d ∧
      d.algorithm = algorithm ∧ d.version = version ∧ d.params.mCost = params.mCost ∧
      d.params.tCost = params.tCost ∧ d.params.lanes = params.lanes ∧
      d.params.tagLenBytes = params.tagLenBytes ∧ d.salt = salt ∧ d.hash = hash ∧ d.ad = [] ∧
      d.params.threads = d.params.lanes) ∧
    ∀ other, other ≠ algorithm →
      decodeString ⟨w, backend', alloc'⟩ s other = .error .decodingFail := by
  have hcarries := encodeStringAlloc_carries backend backend' alloc alloc' halloc algorithm version
    params salt hash htag s hs hlen
  obtain ⟨-, rfl, -⟩ := encodeStringAlloc_ok algorithm version params salt hash
    ⟨w, backend, alloc⟩ s hs
  exact ⟨hcarries, fun other hne => decodeString_other _ algorithm other _ hne⟩

theorem decodeString_encodeStringAlloc_least :
    ∃ s d, encodeStringAlloc .argon2id .v0x13 Params.least (ascii "somesalt") [0, 0, 0, 0]
        plainHost = .ok s ∧
      decodeString plainHost s .argon2id = .ok d ∧
      d.salt = ascii "somesalt" ∧ d.hash = [0, 0, 0, 0] := by
  have hs := encodeStringAlloc_eq .argon2id .v0x13 Params.least (ascii "somesalt") [0, 0, 0, 0]
    plainHost (by decide) (by decide) (by decide +kernel)
  obtain ⟨⟨d, hd, -, -, -, -, -, -, hsalt, hhash, -, -⟩, -⟩ :=
    decodeString_encodeStringAlloc .scalar .scalar (fun _ => true) (fun _ => true) (fun _ _ => rfl)
      .argon2id .v0x13 Params.least (ascii "somesalt") [0, 0, 0, 0] rfl _ hs (by decide)
  exact ⟨_, d, hs, hd, hsalt, hhash⟩

end Decode

section Canonical
variable (algorithm : Algorithm)

def CarriesVersion (s : List UInt8) : Prop :=
  (ascii "$" ++ (asStr algorithm ++ ascii "$v=")) <+: s

theorem carriesVersion_render (version : Option UInt32) (mCost tCost lanes : UInt32)
    (salt hash : List UInt8) :
    CarriesVersion algorithm (render algorithm version mCost tCost lanes salt hash) ↔
      version.isSome := by
  unfold CarriesVersion render
  rw [List.prefix_append_right_inj, List.prefix_append_right_inj]
  cases version with
  | none =>
    simp [versionField, ascii]
  | some v =>
    rw [versionField, List.append_assoc]
    exact iff_of_true (List.prefix_append _ _) rfl

theorem render_length_le (version : Option UInt32) (v : UInt32)
    (hv : v = version.getD Version.v0x10.asU32) (mCost tCost lanes : UInt32)
    (salt hash : List UInt8) :
    (render algorithm (some v) mCost tCost lanes salt hash).length ≤
      (render algorithm version mCost tCost lanes salt hash).length + 5 := by
  have hfive : (versionField (some Version.v0x10.asU32)).length = 5 := by decide
  simp only [render, List.length_append]
  cases version with
  | none =>
    rw [hv, Option.getD_none, hfive]
    omega
  | some v' =>
    rw [hv, Option.getD_some]
    omega

variable {w : PointerWidth} (backend backend' : Backend) (alloc alloc' : ℕ → Bool)

/-- An accepted string is the encoding of what it decodes to, up to an omitted
`$v=16`; so a decoded value has one string with the field and one without. -/
theorem decodeString_canonical (s : List UInt8) (hslice : s.length ≤ isizeMax w) (d : Decoded w)
    (h : decodeString ⟨w, backend, alloc⟩ s algorithm = .ok d)
    (hcap : reserveVec ⟨w, backend', alloc'⟩ (encodedLen algorithm d.params.passes
      d.params.memoryKib d.params.lanes d.salt.length d.hash.length) = .ok ()) :
    (∃ e, encodeStringAlloc algorithm d.version d.params d.salt d.hash ⟨w, backend', alloc'⟩ = .ok e ∧
      (s = e ∨ (d.version = .v0x10 ∧
        e = ascii "$" ++ asStr algorithm ++ ascii "$v=16" ++
          s.drop (ascii "$" ++ asStr algorithm).length ∧
        s = ascii "$" ++ asStr algorithm ++ s.drop (ascii "$" ++ asStr algorithm).length))) ∧
    ∀ s', decodeString ⟨w, backend, alloc⟩ s' algorithm = .ok d →
      (CarriesVersion algorithm s ↔ CarriesVersion algorithm s') → s' = s := by
  obtain ⟨hlen, hlens, version, hs, hd⟩ := decodeString_ok _ _ _ _ h
  have hvalid : validateForString d.params d.salt.length d.hash.length = .ok () :=
    (validateInputs_ok_iff _ _ _ _ _ _ _ _ _ _).mpr ⟨hlens, d.params.costs⟩
  have hbits : isizeMax w + 6 < 2 ^ w.bits := by cases w <;> decide
  refine ⟨⟨_, encodeStringAlloc_eq algorithm d.version d.params d.salt d.hash
    ⟨w, backend', alloc'⟩ hvalid ?_ ?_, ?_⟩, ?_⟩
  · have hle := render_length_le algorithm version d.version.asU32 hd.version_eq d.params.mCost
      d.params.tCost d.params.lanes d.salt d.hash
    rw [← hs] at hle
    change (render _ _ _ _ _ _ _).length + 1 < 2 ^ w.bits
    exact lt_of_le_of_lt (Nat.succ_le_succ hle) (by omega)
  · rw [← encodedLen_eq]
    exact hcap
  · cases version with
    | some v =>
      have hv : d.version.asU32 = v := hd.version_eq
      rw [← hv] at hs
      exact Or.inl hs
    | none =>
      have hv : d.version = .v0x10 := by
        have hver := hd.version_eq
        cases hd' : d.version with
        | v0x10 => rfl
        | v0x13 =>
          rw [hd'] at hver
          exact absurd hver (by decide)
      have hcut : s = ascii "$" ++ asStr algorithm ++ (ascii "$m=" ++ _) :=
        hs.trans (List.append_assoc _ _ _).symm
      have hdrop := congrArg (List.drop (ascii "$" ++ asStr algorithm).length) hcut
      rw [List.drop_left] at hdrop
      rw [hdrop]
      refine Or.inr ⟨hv, ?_, hcut⟩
      have hfield : ascii "$v=16" = versionField (some Version.v0x10.asU32) := by decide
      rw [hfield, phcString, hv, List.append_assoc, List.append_assoc]
      rfl
  · intro s' h' hcarry
    obtain ⟨-, -, version', hs', hd'⟩ := decodeString_ok _ _ _ _ h'
    rw [hs, hs', carriesVersion_render, carriesVersion_render] at hcarry
    have hver : version' = version := by
      cases version with
      | none =>
        cases version' with
        | none => rfl
        | some v' => simp at hcarry
      | some v =>
        cases version' with
        | none => simp at hcarry
        | some v' =>
          have hv : d.version.asU32 = v := hd.version_eq
          have hv' : d.version.asU32 = v' := hd'.version_eq
          rw [← hv, ← hv']
    rw [hs', hver, ← hs]

theorem decodeString_canonical_least :
    ∃ e, encodeStringAlloc .argon2id .v0x13 Params.least (ascii "somesalt") [0, 0, 0, 0]
        plainHost = .ok e ∧
      (leastString = e ∨ (Version.v0x13 = .v0x10 ∧
        e = ascii "$" ++ asStr .argon2id ++ ascii "$v=16" ++ leastString.drop 9 ∧
        leastString = ascii "$" ++ asStr .argon2id ++ leastString.drop 9)) := by
  have hcap : reserveVec plainHost (encodedLen .argon2id
      leastDecoded.params.passes leastDecoded.params.memoryKib leastDecoded.params.lanes
      leastDecoded.salt.length leastDecoded.hash.length) = .ok () := by
    rw [encodedLen_eq .argon2id .v0x13]
    decide
  exact (decodeString_canonical .argon2id .scalar .scalar (fun _ => true) (fun _ => true)
    leastString (by decide) leastDecoded decodeString_leastString hcap).1

end Canonical

end Argon2Rust.RoundTrip
