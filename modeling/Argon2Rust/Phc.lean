import Argon2Rust.RoundTrip
import Argon2Rust.Separated

set_option autoImplicit false

namespace Argon2Rust.Phc
open Parameters Base64 Cursor Encoding Decoding DecodeString Separated

def dollar : UInt8 := 36
def comma : UInt8 := 44
def equals : UInt8 := 61

/-- `memchr::memchr`, from the package of that name. -/
class Memchr where
  memchr : UInt8 → List UInt8 → Option ℕ

/-- What it is documented to return: the first index of the needle. -/
class LawfulMemchr [Memchr] : Prop where
  first_index : ∀ needle haystack, Memchr.memchr needle haystack = find haystack needle

@[reducible] def scan : Memchr := ⟨fun needle haystack => find haystack needle⟩

theorem scan_lawful : @LawfulMemchr scan := @LawfulMemchr.mk scan fun _ _ => rfl

section
variable [Memchr]

def findByte (haystack : List UInt8) (needle : UInt8) : Option ℕ := Memchr.memchr needle haystack

theorem findByte_eq [LawfulMemchr] (haystack : List UInt8) (needle : UInt8) :
    findByte haystack needle = find haystack needle := LawfulMemchr.first_index needle haystack

end

/-- The accumulators of `parse_phc_params`. -/
@[ext] structure PhcParams where
  memory : Option UInt32
  passes : Option UInt32
  lanes : Option UInt32
  ad : List UInt8

def parseParamU32 (src : List UInt8) : Except Error UInt32 := do
  let (value, consumed) ← okOr (decodeDecimal src)
  if consumed ≠ src.length ∨ value > 0xFFFFFFFF then .error .decodingFail
  else .ok value.toUInt32

section
variable [Memchr] (host : Host)

def parseField (acc : PhcParams) (field : List UInt8) : Except Error PhcParams := do
  let eq ← okOr (findByte field equals)
  let key := field.take eq
  let value := field.drop (eq + 1)
  if key = ascii "m" then do
    let memory ← parseParamU32 value
    .ok { acc with memory := some memory }
  else if key = ascii "t" then do
    let passes ← parseParamU32 value
    .ok { acc with passes := some passes }
  else if key = ascii "p" then do
    let lanes ← parseParamU32 value
    .ok { acc with lanes := some lanes }
  else if key = ascii "data" then do
    let ad ← decodeBase64 host value
    .ok { acc with ad := ad }
  else .ok acc

/-- The field up to the first comma, and what follows the comma. -/
def nextField (rest : List UInt8) : List UInt8 × List UInt8 :=
  match findByte rest comma with
  | some i => (rest.take i, rest.drop (i + 1))
  | none => (rest, [])

theorem nextField_lt (rest : List UInt8) (h : (nextField rest).2 ≠ []) :
    (nextField rest).2.length < rest.length := by
  unfold nextField at h ⊢
  cases hf : findByte rest comma with
  | none =>
    rw [hf] at h
    exact absurd rfl h
  | some i =>
    rw [hf] at h
    have hpos := List.length_pos_iff.mpr h
    simp only [List.length_drop] at hpos ⊢
    omega

/-- The loop of `parse_phc_params`; it also stops when nothing follows a comma. -/
def parseFields (acc : PhcParams) (rest : List UInt8) : Except Error PhcParams :=
  match parseField host acc (nextField rest).1 with
  | .error e => .error e
  | .ok acc =>
    if _h : (nextField rest).2 = [] then .ok acc
    else parseFields acc (nextField rest).2
termination_by rest.length
decreasing_by exact nextField_lt rest (by assumption)

def parsePhcParams (src : List UInt8) : Except Error (UInt32 × UInt32 × UInt32 × List UInt8) :=
  if src = [] then .error .decodingFail
  else do
    let acc ← parseFields host ⟨none, none, none, []⟩ src
    match acc.memory, acc.passes, acc.lanes with
    | some m, some t, some p => .ok (m, t, p, acc.ad)
    | _, _, _ => .error .decodingFail

def decodeAlgorithm (src : List UInt8) (pos : ℕ) : Except Error (Algorithm × ℕ) :=
  match expectOpt src pos (asStr .argon2id) with
  | some pos => .ok (.argon2id, pos)
  | none =>
    match expectOpt src pos (asStr .argon2i) with
    | some pos => .ok (.argon2i, pos)
    | none =>
      match expectOpt src pos (asStr .argon2d) with
      | some pos => .ok (.argon2d, pos)
      | none => .error .decodingFail

def decodePhc (encoded : List UInt8) : Except Error (Decoded host.width) :=
  if encoded.length > 0xFFFFFFFF then .error .decodingFail
  else do
    let pos ← expect encoded 0 (ascii "$")
    let (algorithm, pos) ← decodeAlgorithm encoded pos
    let (versionValue, pos) ← decodeVersion encoded pos
    let pos ← expect encoded pos (ascii "$")
    let paramEnd ← okOr (findByte (rest encoded pos) dollar)
    let (mCost, tCost, lanes, ad) ← parsePhcParams host ((rest encoded pos).take paramEnd)
    let pos := pos + paramEnd
    let pos ← expect encoded pos (ascii "$")
    let saltEnd ← okOr (findByte (rest encoded pos) dollar)
    let salt ← decodeBase64 host ((rest encoded pos).take saltEnd)
    let pos := pos + saltEnd
    let pos ← expect encoded pos (ascii "$")
    let hash ← decodeBase64 host (rest encoded pos)
    validateInputs host.width hash.length 0 salt.length 0 ad.length mCost tCost lanes lanes
    assemble host.width algorithm versionValue mCost tCost lanes salt hash ad

variable [LawfulMemchr]

theorem parseFields_last (acc : PhcParams) (field : List UInt8) (h : comma ∉ field) :
    parseFields host acc field = parseField host acc field := by
  have hnext : nextField field = (field, []) := by rw [nextField, findByte_eq, find_absent _ _ h]
  rw [parseFields, hnext]
  cases parseField host acc field with
  | error e => rfl
  | ok acc' => rfl

theorem parseFields_comma (acc : PhcParams) (field rest : List UInt8) (h : comma ∉ field) :
    parseFields host acc (field ++ comma :: rest) =
      (parseField host acc field >>= fun acc =>
        if rest = [] then .ok acc else parseFields host acc rest) := by
  have hnext : nextField (field ++ comma :: rest) = (field, rest) := by
    rw [nextField, findByte_eq, find_append _ _ _ h]
    simp only [List.take_left, ← List.drop_drop, List.drop_left]
    rfl
  rw [parseFields, hnext]
  cases parseField host acc field with
  | error e => rfl
  | ok acc' => rfl

theorem parseField_split (acc : PhcParams) (key value : List UInt8) (h : equals ∉ key) :
    parseField host acc (key ++ equals :: value) =
      if key = ascii "m" then
        parseParamU32 value >>= fun memory => .ok { acc with memory := some memory }
      else if key = ascii "t" then
        parseParamU32 value >>= fun passes => .ok { acc with passes := some passes }
      else if key = ascii "p" then
        parseParamU32 value >>= fun lanes => .ok { acc with lanes := some lanes }
      else if key = ascii "data" then
        decodeBase64 host value >>= fun ad => .ok { acc with ad := ad }
      else .ok acc := by
  have hkey : (key ++ equals :: value).take key.length = key := List.take_left
  have hvalue : (key ++ equals :: value).drop (key.length + 1) = value := by
    rw [← List.drop_drop, List.drop_left]
    rfl
  unfold parseField
  simp only [findByte_eq, find_append key value equals h, okOr, ok_bind, hkey, hvalue]

end

theorem parseParamU32_decimal (n : UInt32) : parseParamU32 (decimal n.toNat) = .ok n := by
  have hd : decodeDecimal (decimal n.toNat) = some (n.toUInt64, (decimal n.toNat).length) :=
    decodeDecimal_of_u32 n (List.append_nil _).symm stops_nil
  unfold parseParamU32
  simp only [hd, okOr, ok_bind, ne_eq, not_true_eq_false, toUInt64_not_gt n, or_self, if_false,
    UInt32.toUInt32_toUInt64]

/-- A string of the form both decoders read, with the parameter section left open. -/
def phcText (algorithm : Algorithm) (version : Option UInt32) (params salt hash : List UInt8) :
    List UInt8 :=
  ascii "$" ++ (asStr algorithm ++ (versionField version ++ (ascii "$" ++ (params ++ (ascii "$" ++
    (text salt ++ (ascii "$" ++ text hash)))))))

section Structure
variable {src : List UInt8} {pos next : ℕ}

theorem cut_ok [Memchr] [LawfulMemchr] (n : ℕ) (h : findByte (rest src pos) dollar = some n) :
    dollar ∉ (rest src pos).take n ∧ Reads src pos ((rest src pos).take n) (pos + n) := by
  rw [findByte_eq] at h
  obtain ⟨head, tail, hsrc, hnot, rfl⟩ := find_some _ _ _ h
  have hdrop : src.drop pos = head ++ dollar :: tail := hsrc
  rw [hsrc, List.take_left]
  exact ⟨hnot, reads_of_drop hdrop⟩

theorem cut_of_reads [Memchr] [LawfulMemchr] {text tail : List UInt8} (hnot : dollar ∉ text)
    (hr : Reads src pos text next) (htail : src.drop next = ascii "$" ++ tail) :
    findByte (rest src pos) dollar = some text.length ∧ (rest src pos).take text.length = text ∧
      pos + text.length = next := by
  have hsrc : rest src pos = text ++ dollar :: tail := hr.drop_eq.trans (by rw [htail]; rfl)
  rw [hsrc, findByte_eq]
  exact ⟨find_append text tail dollar hnot, List.take_left, hr.next_eq.symm⟩

/-- The section before a `$` starts with `v=` if the text does. -/
theorem prefix_section {params tail : List UInt8}
    (h : ascii "v=" <+: params ++ (ascii "$" ++ tail)) : ascii "v=" <+: params := by
  rcases List.prefix_or_prefix_of_prefix h (List.prefix_append params _) with hp | hp
  · exact hp
  · obtain ⟨rest, hrest⟩ := h
    obtain ⟨more, hmore⟩ := hp
    rw [← hmore, List.append_assoc, List.append_right_inj] at hrest
    cases more with
    | nil => rw [← hmore, List.append_nil]
    | cons c more =>
      have hc : c = dollar := (List.cons.inj hrest).1
      have hmem : dollar ∈ ascii "v=" := by
        rw [← hmore, hc]
        exact List.mem_append_right _ List.mem_cons_self
      exact absurd hmem (by decide)

theorem decodeAlgorithm_ok (algorithm : Algorithm)
    (h : decodeAlgorithm src pos = .ok (algorithm, next)) :
    Reads src pos (asStr algorithm) next := by
  unfold decodeAlgorithm at h
  cases h1 : expectOpt src pos (asStr .argon2id) with
  | some p =>
    rw [h1] at h
    cases h
    exact (expectOpt_some_iff _ _).mp h1
  | none =>
    rw [h1] at h
    cases h2 : expectOpt src pos (asStr .argon2i) with
    | some p =>
      rw [h2] at h
      cases h
      exact (expectOpt_some_iff _ _).mp h2
    | none =>
      rw [h2] at h
      cases h3 : expectOpt src pos (asStr .argon2d) with
      | some p =>
        rw [h3] at h
        cases h
        exact (expectOpt_some_iff _ _).mp h3
      | none =>
        rw [h3] at h
        cases h

theorem decodeAlgorithm_of_reads (algorithm : Algorithm) (tail : List UInt8)
    (hr : Reads src pos (asStr algorithm) next) (htail : src.drop next = ascii "$" ++ tail) :
    decodeAlgorithm src pos = .ok (algorithm, next) := by
  have hdrop := hr.drop_eq
  rw [htail] at hdrop
  unfold decodeAlgorithm
  cases algorithm with
  | argon2id => rw [(expectOpt_some_iff _ _).mpr hr]
  | argon2i =>
    have h1 : ¬ asStr .argon2id <+: src.drop pos := by
      rw [hdrop]
      simp [asStr, ascii]
    rw [expectOpt_none _ h1, (expectOpt_some_iff _ _).mpr hr]
  | argon2d =>
    have h1 : ¬ asStr .argon2id <+: src.drop pos := by
      rw [hdrop]
      simp [asStr, ascii]
    have h2 : ¬ asStr .argon2i <+: src.drop pos := by
      rw [hdrop]
      simp [asStr, ascii]
    rw [expectOpt_none _ h1, expectOpt_none _ h2, (expectOpt_some_iff _ _).mpr hr]

end Structure

theorem fits_bits (host : Host) (hw : host.width = .bits64) (src : List UInt8) (h : src.length ≤ 0xFFFFFFFF) :
    src.length * 3 < 2 ^ host.width.bits := by
  rw [hw]
  change _ < 2 ^ 64
  omega

section Accepted
variable [Memchr] [LawfulMemchr] (host : Host)

theorem decodePhc_ok (encoded : List UInt8) (d : Decoded host.width)
    (h : decodePhc host encoded = .ok d) :
    encoded.length ≤ 0xFFFFFFFF ∧ LengthsOk d.hash.length 0 d.salt.length 0 d.ad.length ∧
      ∃ (version : Option UInt32) (params : List UInt8),
        encoded = phcText d.algorithm version params d.salt d.hash ∧ dollar ∉ params ∧
        (version = none → ¬ ascii "v=" <+: params) ∧
        parsePhcParams host params = .ok (d.params.mCost, d.params.tCost, d.params.lanes, d.ad) ∧
        Carries d.algorithm (version.getD Version.v0x10.asU32) d.params.mCost d.params.tCost
          d.params.lanes d.salt d.hash d.ad d := by
  unfold decodePhc at h
  by_cases hlong : encoded.length > 0xFFFFFFFF
  · rw [if_pos hlong] at h
    cases h
  · rw [if_neg hlong] at h
    simp only [bind_ok_iff, expect_ok_iff, okOr_ok_iff, Prod.exists] at h
    obtain ⟨p1, r1, algorithm, p2, halg, v, p3, hv, p4, r4, n, hn, m, t, l, ad, hparams, p5, r5,
      k, hk, salt, hsalt, p6, r6, hash, hhash, u, hvalid, h⟩ := h
    have r2 := decodeAlgorithm_ok algorithm halg
    obtain ⟨version, rfl, r3, hnone⟩ := decodeVersion_ok v hv
    obtain ⟨hnotp, rp⟩ := cut_ok n hn
    obtain ⟨-, rs⟩ := cut_ok k hk
    have hsalt' := decodeBase64_ok host _ _ hsalt
    have hhash' := decodeBase64_ok host _ _ hhash
    generalize (rest encoded p4).take n = params at hparams hnotp rp
    rw [hsalt'] at rs
    have hread := r1.trans (r2.trans (r3.trans (r4.trans (rp.trans (r5.trans (rs.trans r6))))))
    have hwhole : encoded = phcText algorithm version params salt hash := by
      refine hread.start.trans ?_
      change _ ++ rest encoded p6 = _
      rw [hhash']
      simp only [phcText, List.append_assoc]
    have hlens := ((validateInputs_ok_iff _ _ _ _ _ _ _ _ _ _).mp hvalid).1
    rw [assemble_ok_iff _ _ _ _ _ _ _ _ hlens.out_le] at h
    obtain ⟨rfl, hver, rfl, rfl, rfl, hth, htag, rfl, rfl, rfl⟩ := h
    refine ⟨by omega, hlens, version, params, hwhole, hnotp, ?_, hparams,
      ⟨rfl, hver, rfl, rfl, rfl, hth, htag, rfl, rfl, rfl⟩⟩
    intro hver' hpre
    refine hnone hver' ?_
    rw [r3.drop_eq, r4.drop_eq, rp.drop_eq, hver']
    obtain ⟨tail, rfl⟩ := hpre
    exact ⟨tail ++ _, rfl⟩

theorem decodePhc_phcText (hw : host.width = .bits64) (halloc : host.Allocates) (version : Option UInt32)
    (params : List UInt8) (d : Decoded host.width)
    (hlen : (phcText d.algorithm version params d.salt d.hash).length ≤ 0xFFFFFFFF)
    (hlens : LengthsOk d.hash.length 0 d.salt.length 0 d.ad.length)
    (hnot : dollar ∉ params) (hnone : version = none → ¬ ascii "v=" <+: params)
    (hparams : parsePhcParams host params =
      .ok (d.params.mCost, d.params.tCost, d.params.lanes, d.ad))
    (hd : Carries d.algorithm (version.getD Version.v0x10.asU32) d.params.mCost d.params.tCost
      d.params.lanes d.salt d.hash d.ad d) :
    decodePhc host (phcText d.algorithm version params d.salt d.hash) = .ok d := by
  have hcosts := d.params.costs
  rw [hd.threads_eq] at hcosts
  have hvalid := (validateInputs_ok_iff host.width _ _ _ _ _ _ _ _ _).mpr ⟨hlens, hcosts⟩
  generalize hs : phcText d.algorithm version params d.salt d.hash = s at hlen ⊢
  have h0 : s.drop 0 = ascii "$" ++ _ := hs.symm
  obtain ⟨p1, r1, h1⟩ := exists_reads h0
  obtain ⟨p2, r2, h2⟩ := exists_reads h1
  obtain ⟨p3, r3, h3⟩ := exists_reads h2
  obtain ⟨p4, r4, h4⟩ := exists_reads h3
  obtain ⟨p5, r5, h5⟩ := exists_reads h4
  obtain ⟨p6, r6, h6⟩ := exists_reads h5
  obtain ⟨p7, r7, h7⟩ := exists_reads h6
  obtain ⟨p8, r8, h8⟩ := exists_reads h7
  have hsalt : dollar ∉ text d.salt := fun hmem =>
    absurd (text_alphabet d.salt dollar hmem) (by decide)
  have hmark : version = none → ¬ ascii "$v=" <+: s.drop p2 := by
    rintro hv ⟨tail, htail⟩
    rw [h2, hv] at htail
    have hcut : ascii "v=" ++ tail = params ++ (ascii "$" ++ (text d.salt ++ (ascii "$" ++
      text d.hash))) := List.cons_injective htail
    exact hnone hv (prefix_section ⟨tail, hcut⟩)
  obtain ⟨tail, htail⟩ : ∃ tail, s.drop p2 = ascii "$" ++ tail := by
    cases version with
    | none => exact ⟨_, h2⟩
    | some v => exact ⟨_, h2⟩
  have e2 := decodeAlgorithm_of_reads d.algorithm tail r2 htail
  have e3 := decodeVersion_of_reads version r3 hmark (by rw [h3]; exact stops_cons rfl _)
  obtain ⟨f5, t5, n5⟩ := cut_of_reads hnot r5 h5
  obtain ⟨f7, t7, n7⟩ := cut_of_reads hsalt r7 h7
  have hfits : ∀ bytes : List UInt8, (text bytes).length ≤ s.length →
      (text bytes).length * 3 < 2 ^ host.width.bits :=
    fun bytes hle => fits_bits host hw _ (hle.trans hlen)
  have hparts : (text d.salt).length ≤ s.length ∧ (text d.hash).length ≤ s.length := by
    rw [← hs]
    simp only [phcText, List.length_append]
    omega
  have e7 := decodeBase64_text host halloc d.salt (hfits _ hparts.1)
  have e8 := decodeBase64_text host halloc d.hash (hfits _ hparts.2)
  have hlast : rest s p8 = text d.hash := h8
  unfold decodePhc
  rw [if_neg (by omega)]
  simp only [(expect_ok_iff _ _).mpr r1, e2, e3, (expect_ok_iff _ _).mpr r4, f5, t5, n5, hparams,
    (expect_ok_iff _ _).mpr r6, f7, t7, n7, e7, (expect_ok_iff _ _).mpr r8, hlast, e8, hvalid,
    okOr, ok_bind]
  exact (assemble_ok_iff _ _ _ _ _ _ _ _ hlens.out_le d).mpr hd

end Accepted

end Argon2Rust.Phc
