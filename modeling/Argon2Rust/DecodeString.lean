import Argon2Rust.Decoding
import Argon2Rust.FirstFailure

set_option autoImplicit false

namespace Argon2Rust.DecodeString
open Parameters Numeral Base64 Cursor Encoding Decoding FirstFailure

structure Decoded (w : PointerWidth) where
  algorithm : Algorithm
  version : Version
  params : Params w
  salt : List UInt8
  hash : List UInt8
  ad : List UInt8
  deriving DecidableEq

/-- `$v=` is optional in both decoders and defaults to version 16. -/
def decodeVersion (src : List UInt8) (pos : ℕ) : Except Error (UInt32 × ℕ) :=
  match expectOpt src pos (ascii "$v=") with
  | some pos => decimalU32 src pos
  | none => .ok (Version.v0x10.asU32, pos)

section
variable (w : PointerWidth) (algorithm : Algorithm) (versionValue mCost tCost lanes : UInt32)
  (salt hash ad : List UInt8)

/-- The last steps of both decoders: the version and the parameters are rebuilt
from the values that were read. -/
def assemble : Except Error (Decoded w) := do
  let version ← okOr (Version.fromU32 versionValue)
  let params ← ParamsBuilder.build w
    { memory := mCost.toUInt64, passes := tCost, lanes := lanes, threads := some lanes
      tagLen := UInt64.ofNat hash.length }
  .ok { algorithm, version, params, salt, hash, ad }

variable {w}

structure Carries (d : Decoded w) : Prop where
  algorithm_eq : d.algorithm = algorithm
  version_eq : d.version.asU32 = versionValue
  mCost_eq : d.params.mCost = mCost
  tCost_eq : d.params.tCost = tCost
  lanes_eq : d.params.lanes = lanes
  threads_eq : d.params.threads = lanes
  tagLen_eq : d.params.tagLenBytes = hash.length
  salt_eq : d.salt = salt
  hash_eq : d.hash = hash
  ad_eq : d.ad = ad

theorem assemble_ok_iff (hlen : hash.length ≤ 0xFFFFFFFF) (d : Decoded w) :
    assemble w algorithm versionValue mCost tCost lanes salt hash ad = .ok d ↔
      Carries algorithm versionValue mCost tCost lanes salt hash ad d := by
  have hwide : (UInt64.ofNat hash.length).toNat = hash.length :=
    UInt64.toNat_ofNat_of_lt' (by change _ < 2 ^ 64; omega)
  unfold assemble
  constructor
  · intro h
    rw [bind_ok_iff] at h
    obtain ⟨version, hversion, h⟩ := h
    rw [bind_ok_iff] at h
    obtain ⟨params, hparams, h⟩ := h
    rw [okOr_ok_iff, Version.fromU32_eq_some] at hversion
    obtain ⟨hm, ht, hl, hth, ho⟩ := build_ok _ _ hparams
    rw [Except.ok.injEq] at h
    rw [← h]
    refine ⟨rfl, hversion.symm, ?_, ht, hl, hth, ?_, rfl, rfl, rfl⟩
    · rw [hm, UInt32.toUInt32_toUInt64]
    · change params.outputLen.toNat = _
      rw [ho, UInt64.toNat_toUInt32, hwide]
      omega
  · rintro ⟨rfl, hv, rfl, rfl, rfl, hth, htag, rfl, rfl, rfl⟩
    have hversion : Version.fromU32 versionValue = some d.version :=
      (Version.fromU32_eq_some _ _).mpr hv.symm
    have htag' : UInt64.ofNat d.hash.length = d.params.outputLen.toUInt64 := by
      apply UInt64.toNat_inj.mp
      rw [hwide, UInt32.toNat_toUInt64]
      exact htag.symm
    have hbuild : ParamsBuilder.build w
        { memory := d.params.mCost.toUInt64, passes := d.params.tCost, lanes := d.params.lanes
          threads := some d.params.lanes, tagLen := UInt64.ofNat d.hash.length } = .ok d.params :=
      build_eq_ok _ d.params rfl rfl rfl hth.symm htag'
    rw [hversion]
    simp only [okOr, ok_bind, hbuild]

end

/-- `decode_string`: `threads` is set to `lanes`, and there is never associated data. -/
def decodeString (host : Host) (encoded : List UInt8) (algorithm : Algorithm) :
    Except Error (Decoded host.width) :=
  if encoded.length > 0xFFFFFFFF then .error .decodingFail
  else do
    let pos ← expect encoded 0 (ascii "$")
    let pos ← expect encoded pos (asStr algorithm)
    let (versionValue, pos) ← decodeVersion encoded pos
    let pos ← expect encoded pos (ascii "$m=")
    let (mCost, pos) ← decimalU32 encoded pos
    let pos ← expect encoded pos (ascii ",t=")
    let (tCost, pos) ← decimalU32 encoded pos
    let pos ← expect encoded pos (ascii ",p=")
    let (lanes, pos) ← decimalU32 encoded pos
    let pos ← expect encoded pos (ascii "$")
    let (salt, pos) ← decodeBin encoded pos host
    let pos ← expect encoded pos (ascii "$")
    let (hash, pos) ← decodeBin encoded pos host
    validateInputs host.width hash.length 0 salt.length 0 0 mCost tCost lanes lanes
    if pos ≠ encoded.length then .error .decodingFail
    else assemble host.width algorithm versionValue mCost tCost lanes salt hash []

section
variable {src : List UInt8} {pos next : ℕ}

theorem decodeVersion_ok (v : UInt32) (h : decodeVersion src pos = .ok (v, next)) :
    ∃ version : Option UInt32, version.getD Version.v0x10.asU32 = v ∧
      Reads src pos (versionField version) next ∧
      (version = none → ¬ ascii "$v=" <+: src.drop pos) := by
  unfold decodeVersion at h
  cases ho : expectOpt src pos (ascii "$v=") with
  | none =>
    rw [ho, Except.ok.injEq, Prod.mk.injEq] at h
    obtain ⟨rfl, rfl⟩ := h
    refine ⟨none, rfl, ⟨rfl, rfl⟩, ?_⟩
    rintro - hpre
    rw [(expectOpt_some_iff _ _).mpr (reads_iff_starts.mpr ⟨hpre, rfl⟩)] at ho
    cases ho
  | some mid =>
    rw [ho] at h
    have hmark := (expectOpt_some_iff _ _).mp ho
    have hnum := (decimalU32_ok_iff _ _).mp h
    exact ⟨some v, rfl, hmark.trans hnum.1, fun hv => nomatch hv⟩

theorem decodeVersion_of_reads (version : Option UInt32)
    (hr : Reads src pos (versionField version) next)
    (hnone : version = none → ¬ ascii "$v=" <+: src.drop pos)
    (hs : Stops isAsciiDigit (src.drop next)) :
    decodeVersion src pos = .ok (version.getD Version.v0x10.asU32, next) := by
  unfold decodeVersion
  cases version with
  | none =>
    rw [expectOpt_none _ (hnone rfl), hr.next_eq]
    rfl
  | some v =>
    have hdrop := hr.drop_eq
    rw [versionField, List.append_assoc] at hdrop
    obtain ⟨mid, hmark, hmid⟩ := exists_reads hdrop
    rw [(expectOpt_some_iff _ _).mpr hmark]
    refine (decimalU32_ok_iff _ _).mpr ⟨⟨hmid, ?_⟩, hs⟩
    rw [hr.next_eq, versionField, List.length_append, hmark.next_eq, Nat.add_assoc]
    rfl

end

structure Fields where
  versionValue : UInt32
  mCost : UInt32
  tCost : UInt32
  lanes : UInt32
  salt : List UInt8
  hash : List UInt8

def readFields (host : Host) (encoded : List UInt8) (algorithm : Algorithm) :
    Except Error (Fields × ℕ) := do
  let pos ← expect encoded 0 (ascii "$")
  let pos ← expect encoded pos (asStr algorithm)
  let (versionValue, pos) ← decodeVersion encoded pos
  let pos ← expect encoded pos (ascii "$m=")
  let (mCost, pos) ← decimalU32 encoded pos
  let pos ← expect encoded pos (ascii ",t=")
  let (tCost, pos) ← decimalU32 encoded pos
  let pos ← expect encoded pos (ascii ",p=")
  let (lanes, pos) ← decimalU32 encoded pos
  let pos ← expect encoded pos (ascii "$")
  let (salt, pos) ← decodeBin encoded pos host
  let pos ← expect encoded pos (ascii "$")
  let (hash, pos) ← decodeBin encoded pos host
  .ok (⟨versionValue, mCost, tCost, lanes, salt, hash⟩, pos)

def Fields.judge (f : Fields) (w : PointerWidth) (algorithm : Algorithm) (atEnd : Bool) :
    Except Error (Decoded w) := do
  validateInputs w f.hash.length 0 f.salt.length 0 0 f.mCost f.tCost f.lanes f.lanes
  if atEnd = false then .error .decodingFail
  else assemble w algorithm f.versionValue f.mCost f.tCost f.lanes f.salt f.hash []

variable (host : Host) (algorithm : Algorithm)

theorem decodeString_eq (encoded : List UInt8) (hlen : encoded.length ≤ 0xFFFFFFFF) :
    decodeString host encoded algorithm =
      (readFields host encoded algorithm >>= fun r =>
        r.1.judge host.width algorithm (r.2 == encoded.length)) := by
  have hend : ∀ pos : ℕ, (pos == encoded.length) = false ↔ pos ≠ encoded.length := by
    intro pos
    exact beq_eq_false_iff_ne
  unfold decodeString readFields Fields.judge
  rw [if_neg (by omega)]
  simp only [bind_assoc, ok_bind, hend]

section Failures
variable {p : Error → Prop} (hp : p .decodingFail) (src : List UInt8) (pos : ℕ)
include hp

theorem expect_fails (text : List UInt8) : OnlyFails p (expect src pos text) := by
  unfold expect
  split
  · exact OnlyFails.ok _
  · exact OnlyFails.error hp

theorem decimalU32_fails : OnlyFails p (decimalU32 src pos) := by
  unfold decimalU32
  split
  · exact OnlyFails.error hp
  · split
    · exact OnlyFails.error hp
    · exact OnlyFails.ok _

theorem decodeVersion_fails : OnlyFails p (decodeVersion src pos) := by
  unfold decodeVersion
  split
  · exact decimalU32_fails hp src _
  · exact OnlyFails.ok _

variable (hreserve : ∀ cap ≤ src.length / 4 * 3 + 3, OnlyFails p (reserveVec host cap))
include hreserve

theorem decodeBin_fails : OnlyFails p (decodeBin src pos host) := by
  have hle : (rest src pos).length ≤ src.length := by
    rw [rest, List.length_drop]
    omega
  unfold decodeBin
  apply OnlyFails.bind (hreserve _ (by omega))
  intro _
  apply OnlyFails.bind
  · rcases @fromBase64Raw_cases host.backend ((rest src pos).length / 4 * 3 + 3) (rest src pos)
      (by omega) with ⟨bytes, tail, -, -, hraw⟩ | herr
    · rw [hraw]
      exact OnlyFails.ok _
    · rw [herr]
      exact OnlyFails.error hp
  · rintro ⟨written, consumed⟩
    dsimp only
    split
    · exact OnlyFails.error hp
    · exact OnlyFails.ok _

theorem readFields_fails : OnlyFails p (readFields host src algorithm) := by
  unfold readFields
  apply OnlyFails.bind (expect_fails hp _ _ _)
  intro p1
  apply OnlyFails.bind (expect_fails hp _ _ _)
  intro p2
  apply OnlyFails.bind (decodeVersion_fails hp _ _)
  rintro ⟨v, p3⟩
  apply OnlyFails.bind (expect_fails hp _ _ _)
  intro p4
  apply OnlyFails.bind (decimalU32_fails hp _ _)
  rintro ⟨m, p5⟩
  apply OnlyFails.bind (expect_fails hp _ _ _)
  intro p6
  apply OnlyFails.bind (decimalU32_fails hp _ _)
  rintro ⟨t, p7⟩
  apply OnlyFails.bind (expect_fails hp _ _ _)
  intro p8
  apply OnlyFails.bind (decimalU32_fails hp _ _)
  rintro ⟨l, p9⟩
  apply OnlyFails.bind (expect_fails hp _ _ _)
  intro p10
  apply OnlyFails.bind (decodeBin_fails host hp _ _ hreserve)
  rintro ⟨salt, p11⟩
  apply OnlyFails.bind (expect_fails hp _ _ _)
  intro p12
  apply OnlyFails.bind (decodeBin_fails host hp _ _ hreserve)
  rintro ⟨hash, p13⟩
  exact OnlyFails.ok _

end Failures

/-- The two reservations that decoding these fields makes: the first is sized by
both texts, since nothing after the salt has been looked at yet. -/
def Reserves (host : Host) (salt hash : List UInt8) : Prop :=
  reserveVec host ((text salt ++ (ascii "$" ++ text hash)).length / 4 * 3 + 3) = .ok () ∧
    reserveVec host ((text hash).length / 4 * 3 + 3) = .ok ()

theorem binCapacity_le {w : PointerWidth} (n : ℕ) (h : n ≤ isizeMax w) :
    n / 4 * 3 + 3 ≤ isizeMax w := by
  unfold isizeMax at h ⊢
  cases w with
  | bits32 =>
    simp only [PointerWidth.bits] at h ⊢
    omega
  | bits64 =>
    simp only [PointerWidth.bits] at h ⊢
    omega

theorem reserves_of_allocates (halloc : host.Allocates) (salt hash : List UInt8)
    (hfits : (text salt ++ (ascii "$" ++ text hash)).length / 4 * 3 + 3 ≤ isizeMax host.width) :
    Reserves host salt hash := by
  have hle : (text hash).length ≤ (text salt ++ (ascii "$" ++ text hash)).length := by
    rw [List.length_append, List.length_append]
    omega
  exact ⟨reserveVec_ok host halloc _ hfits, reserveVec_ok host halloc _ (by omega)⟩

def Fields.render (f : Fields) (version : Option UInt32) : List UInt8 :=
  Encoding.render algorithm version f.mCost f.tCost f.lanes f.salt f.hash

/-- What `readFields` needs of the string: the text of the fields, and then nothing
that would prolong the last one. -/
structure Fields.At (f : Fields) (version : Option UInt32) (tail encoded : List UInt8) : Prop where
  version_eq : version.getD Version.v0x10.asU32 = f.versionValue
  encoded_eq : encoded = f.render algorithm version ++ tail
  stops : Stops isAlphabet tail
  salt_le : f.salt.length ≤ 0xFFFFFFFF
  hash_le : f.hash.length ≤ 0xFFFFFFFF
  reserves_salt :
    reserveVec host ((text f.salt ++ (ascii "$" ++ (text f.hash ++ tail))).length / 4 * 3 + 3) =
      .ok ()
  reserves_hash : reserveVec host ((text f.hash ++ tail).length / 4 * 3 + 3) = .ok ()

theorem readFields_ok (encoded : List UInt8) (f : Fields) (next : ℕ)
    (h : readFields host encoded algorithm = .ok (f, next)) :
    ∃ version, f.At host algorithm version (encoded.drop next) encoded ∧
      next = (f.render algorithm version).length := by
  unfold readFields at h
  simp only [bind_ok_iff, expect_ok_iff, Prod.exists, decimalU32_ok_iff] at h
  obtain ⟨p1, r1, p2, r2, v, p3, hv, p4, r4, m, p5, ⟨r5, -⟩, p6, r6, t, p7, ⟨r7, -⟩, p8, r8,
    l, p9, ⟨r9, -⟩, p10, r10, salt, p11, hsalt, p12, r12, hash, p13, hhash, h⟩ := h
  rw [Except.ok.injEq, Prod.mk.injEq] at h
  obtain ⟨rfl, rfl⟩ := h
  obtain ⟨version, rfl, r3, -⟩ := decodeVersion_ok v hv
  obtain ⟨r11, -, hsaltlen, hres⟩ := (decodeBin_ok_iff host salt p11).mp hsalt
  obtain ⟨r13, hstops, hhashlen, hres'⟩ := (decodeBin_ok_iff host hash p13).mp hhash
  have hread := r1.trans (r2.trans (r3.trans (r4.trans (r5.trans (r6.trans (r7.trans
    (r8.trans (r9.trans (r10.trans (r11.trans (r12.trans r13)))))))))))
  have hrest' : rest encoded p12 = text hash ++ encoded.drop p13 := r13.drop_eq
  have hrest : rest encoded p10 = text salt ++ (ascii "$" ++ (text hash ++ encoded.drop p13)) := by
    rw [← hrest']
    exact r11.drop_eq.trans (congrArg (text salt ++ ·) r12.drop_eq)
  rw [hrest] at hres
  rw [hrest'] at hres'
  exact ⟨version, ⟨rfl, hread.start, hstops, hsaltlen, hhashlen, hres, hres'⟩,
    hread.next_eq.trans (Nat.zero_add _)⟩

theorem Fields.At.readFields {f : Fields} {version : Option UInt32} {tail encoded : List UInt8}
    (h : f.At host algorithm version tail encoded) :
    readFields host encoded algorithm = .ok (f, (f.render algorithm version).length) := by
  obtain ⟨hver, hs, hstops, hsalt, hhash, hres, hres'⟩ := h
  obtain ⟨v, m, t, l, salt, hash⟩ := f
  obtain rfl : version.getD Version.v0x10.asU32 = v := hver
  have h0 : encoded.drop 0 = _ := hs
  simp only [Fields.render, Encoding.render, List.append_assoc] at h0
  obtain ⟨p1, r1, h1⟩ := exists_reads h0
  obtain ⟨p2, r2, h2⟩ := exists_reads h1
  obtain ⟨p3, r3, h3⟩ := exists_reads h2
  obtain ⟨p4, r4, h4⟩ := exists_reads h3
  obtain ⟨p5, r5, h5⟩ := exists_reads h4
  obtain ⟨p6, r6, h6⟩ := exists_reads h5
  obtain ⟨p7, r7, h7⟩ := exists_reads h6
  obtain ⟨p8, r8, h8⟩ := exists_reads h7
  obtain ⟨p9, r9, h9⟩ := exists_reads h8
  obtain ⟨p10, r10, h10⟩ := exists_reads h9
  obtain ⟨p11, r11, h11⟩ := exists_reads h10
  obtain ⟨p12, r12, h12⟩ := exists_reads h11
  obtain ⟨p13, r13, h13⟩ := exists_reads h12
  have hnone : version = none → ¬ ascii "$v=" <+: encoded.drop p2 := by
    rintro rfl ⟨more, hmore⟩
    rw [h2] at hmore
    simp [ascii, versionField] at hmore
  have e3 := decodeVersion_of_reads version r3 hnone (by rw [h3]; exact stops_cons rfl _)
  have e5 := (decimalU32_ok_iff _ _).mpr ⟨r5, by rw [h5]; exact stops_cons rfl _⟩
  have e7 := (decimalU32_ok_iff _ _).mpr ⟨r7, by rw [h7]; exact stops_cons rfl _⟩
  have e9 := (decimalU32_ok_iff _ _).mpr ⟨r9, by rw [h9]; exact stops_cons rfl _⟩
  have e11 := (decodeBin_ok_iff host salt p11).mpr
    ⟨r11, by rw [h11]; exact stops_cons (by decide) _, hsalt, by rw [rest, h10]; exact hres⟩
  have e13 := (decodeBin_ok_iff host hash p13).mpr
    ⟨r13, by rw [h13]; exact hstops, hhash, by rw [rest, h12]; exact hres'⟩
  have hread := r1.trans (r2.trans (r3.trans (r4.trans (r5.trans (r6.trans (r7.trans
    (r8.trans (r9.trans (r10.trans (r11.trans (r12.trans r13)))))))))))
  have hend : p13 = (Fields.render algorithm
      ⟨version.getD Version.v0x10.asU32, m, t, l, salt, hash⟩ version).length :=
    hread.next_eq.trans (Nat.zero_add _)
  unfold DecodeString.readFields
  simp only [(expect_ok_iff _ _).mpr r1, (expect_ok_iff _ _).mpr r2, e3,
    (expect_ok_iff _ _).mpr r4, e5, (expect_ok_iff _ _).mpr r6, e7, (expect_ok_iff _ _).mpr r8,
    e9, (expect_ok_iff _ _).mpr r10, e11, (expect_ok_iff _ _).mpr r12, e13, ok_bind]
  rw [hend]

theorem Fields.judge_ok_iff (f : Fields) (w : PointerWidth) (atEnd : Bool)
    (hhash : f.hash.length ≤ 0xFFFFFFFF) (d : Decoded w) :
    f.judge w algorithm atEnd = .ok d ↔
      LengthsOk f.hash.length 0 f.salt.length 0 0 ∧ atEnd = true ∧
        Carries algorithm f.versionValue f.mCost f.tCost f.lanes f.salt f.hash [] d := by
  unfold Fields.judge
  rw [bind_ok_iff]
  cases atEnd with
  | false =>
    rw [if_pos rfl]
    exact iff_of_false (fun ⟨_, _, h⟩ => nomatch h) (fun ⟨_, h, _⟩ => nomatch h)
  | true =>
    rw [if_neg (by decide)]
    constructor
    · rintro ⟨u, hvalid, h⟩
      exact ⟨((validateInputs_ok_iff _ _ _ _ _ _ _ _ _ _).mp hvalid).1, rfl,
        (assemble_ok_iff _ _ _ _ _ _ _ _ hhash d).mp h⟩
    · rintro ⟨hlens, -, hd⟩
      have hcosts := d.params.costs
      rw [hd.threads_eq, hd.mCost_eq, hd.tCost_eq, hd.lanes_eq] at hcosts
      exact ⟨(), (validateInputs_ok_iff _ _ _ _ _ _ _ _ _ _).mpr ⟨hlens, hcosts⟩,
        (assemble_ok_iff _ _ _ _ _ _ _ _ hhash d).mpr hd⟩

theorem decodeString_ok_iff (encoded : List UInt8) (d : Decoded host.width) :
    decodeString host encoded algorithm = .ok d ↔
      encoded.length ≤ 0xFFFFFFFF ∧ LengthsOk d.hash.length 0 d.salt.length 0 0 ∧
        Reserves host d.salt d.hash ∧ ∃ version : Option UInt32,
          encoded = render algorithm version d.params.mCost d.params.tCost d.params.lanes
            d.salt d.hash ∧
          Carries algorithm (version.getD Version.v0x10.asU32) d.params.mCost d.params.tCost
            d.params.lanes d.salt d.hash [] d := by
  by_cases hlen : encoded.length ≤ 0xFFFFFFFF
  · rw [decodeString_eq host algorithm encoded hlen, bind_ok_iff]
    constructor
    · rintro ⟨⟨f, next⟩, hf, hjudge⟩
      obtain ⟨version, hat, -⟩ := readFields_ok host algorithm encoded f next hf
      obtain ⟨hlens, hend, hd⟩ := (f.judge_ok_iff algorithm _ _ hat.hash_le d).mp hjudge
      have hnext' : next = encoded.length := beq_iff_eq.mp hend
      have htail : encoded.drop next = [] := by
        rw [hnext', List.drop_length]
      have hs := hat.encoded_eq
      have hres := hat.reserves_salt
      have hres' := hat.reserves_hash
      have hver := hat.version_eq
      rw [htail, List.append_nil] at hs hres hres'
      obtain ⟨v, m, t, l, salt, hash⟩ := f
      obtain ⟨ha, hv, rfl, rfl, rfl, hth, htag, rfl, rfl, had⟩ := hd
      exact ⟨hlen, hlens, ⟨hres, hres'⟩, version, hs,
        ⟨ha, hv.trans hver.symm, rfl, rfl, rfl, hth, htag, rfl, rfl, had⟩⟩
    · rintro ⟨-, hlens, hres, version, hs, hd⟩
      let f : Fields := ⟨version.getD Version.v0x10.asU32, d.params.mCost, d.params.tCost,
        d.params.lanes, d.salt, d.hash⟩
      have hat : f.At host algorithm version [] encoded :=
        ⟨rfl, hs.trans (List.append_nil _).symm, stops_nil, hlens.salt_le, hlens.out_le,
          by rw [List.append_nil]; exact hres.1, by rw [List.append_nil]; exact hres.2⟩
      refine ⟨_, hat.readFields, (f.judge_ok_iff algorithm _ _ hlens.out_le d).mpr
        ⟨hlens, ?_, hd⟩⟩
      rw [beq_iff_eq, hs]
      rfl
  · refine iff_of_false (fun h => ?_) (fun h => hlen h.1)
    unfold decodeString at h
    rw [if_pos (by omega)] at h
    cases h

theorem decodeString_ok (encoded : List UInt8) (d : Decoded host.width)
    (h : decodeString host encoded algorithm = .ok d) :
    encoded.length ≤ 0xFFFFFFFF ∧ LengthsOk d.hash.length 0 d.salt.length 0 0 ∧
      ∃ version : Option UInt32,
        encoded = render algorithm version d.params.mCost d.params.tCost d.params.lanes
          d.salt d.hash ∧
        Carries algorithm (version.getD Version.v0x10.asU32) d.params.mCost d.params.tCost
          d.params.lanes d.salt d.hash [] d := by
  obtain ⟨hlen, hlens, -, hd⟩ := (decodeString_ok_iff host algorithm encoded d).mp h
  exact ⟨hlen, hlens, hd⟩

theorem decodeString_render (halloc : host.Allocates) (version : Option UInt32)
    (d : Decoded host.width)
    (hd : Carries algorithm (version.getD Version.v0x10.asU32) d.params.mCost d.params.tCost
      d.params.lanes d.salt d.hash [] d)
    (hlens : LengthsOk d.hash.length 0 d.salt.length 0 0)
    (hlen : (render algorithm version d.params.mCost d.params.tCost d.params.lanes
      d.salt d.hash).length ≤ 0xFFFFFFFF)
    (hfits : (render algorithm version d.params.mCost d.params.tCost d.params.lanes
      d.salt d.hash).length ≤ isizeMax host.width) :
    decodeString host (render algorithm version d.params.mCost d.params.tCost d.params.lanes
      d.salt d.hash) algorithm = .ok d := by
  refine (decodeString_ok_iff host algorithm _ d).mpr ⟨hlen, hlens, ?_, version, rfl, hd⟩
  refine reserves_of_allocates host halloc d.salt d.hash ?_
  refine binCapacity_le _ (le_trans ?_ hfits)
  simp only [render, List.length_append]
  omega

end Argon2Rust.DecodeString
