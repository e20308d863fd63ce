import Argon2Rust.OneShot

set_option autoImplicit false

namespace Argon2Rust.HashVerify
open Parameters Base64 Cursor Encoding Decoding DecodeString RoundTrip Blake2 Segment IndexAlpha
open Hash Verification OneShot Independence TagCorrectness FirstFailure

section Compare

set_option maxRecDepth 2000 in
/-- The branch-free verdict on an accumulated difference. -/
theorem verdict_iff (d : UInt8) :
    ((((1 : Int32) &&& ((d.toUInt32.toInt32 - 1) >>> 8)) - 1 == 0) = true) ↔ d = 0 := by
  have hall : ∀ i < 256, (((1 : Int32) &&&
      (((UInt8.ofNat i).toUInt32.toInt32 - 1) >>> 8)) - 1 == 0) = decide (UInt8.ofNat i = 0) := by
    decide
  have h := hall d.toNat d.toNat_lt
  simp only [UInt8.ofNat_toNat] at h
  rw [h, decide_eq_true_iff]

theorem xor_eq_zero_iff (x y : UInt8) : x ^^^ y = 0 ↔ x = y := by
  rw [← UInt8.toBitVec_inj, ← UInt8.toBitVec_inj, UInt8.toBitVec_xor]
  exact BitVec.xor_eq_zero_iff

theorem or_eq_zero_iff (x y : UInt8) : x ||| y = 0 ↔ x = 0 ∧ y = 0 := by
  rw [← UInt8.toBitVec_inj, ← UInt8.toBitVec_inj, ← UInt8.toBitVec_inj, UInt8.toBitVec_or]
  exact BitVec.or_eq_zero_iff

theorem foldl_difference_iff (a b : List UInt8) (hlen : a.length = b.length) (d : UInt8) :
    (a.zip b).foldl (fun d xy => d ||| (xy.1 ^^^ xy.2)) d = 0 ↔ d = 0 ∧ a = b := by
  induction a generalizing b d with
  | nil =>
    cases b with
    | nil => simp
    | cons y b => cases hlen
  | cons x a ih =>
    cases b with
    | nil => cases hlen
    | cons y b =>
      rw [List.zip_cons_cons, List.foldl_cons, ih b (Nat.succ.inj hlen), or_eq_zero_iff,
        xor_eq_zero_iff, List.cons.injEq, and_assoc]

theorem constantTimeEq_iff (a b : List UInt8) : constantTimeEq a b = true ↔ a = b := by
  unfold constantTimeEq
  by_cases hlen : a.length = b.length
  · rw [if_neg (not_not.mpr hlen)]
    dsimp only
    rw [verdict_iff, foldl_difference_iff a b hlen]
    exact and_iff_right rfl
  · rw [if_pos hlen]
    constructor
    · intro h
      cases h
    · intro h
      exact absurd (congrArg List.length h) hlen

end Compare

section Errors

def NoMismatch (e : Error) : Prop := e ≠ .verifyMismatch

theorem validateInputs_fails (w : PointerWidth) (outLen pwdLen saltLen secretLen adLen : ℕ)
    (mCost tCost lanes threads : UInt32) :
    OnlyFails NoMismatch
      (validateInputs w outLen pwdLen saltLen secretLen adLen mCost tCost lanes threads) := by
  unfold validateInputs
  repeat' apply OnlyFails.ite
  all_goals first | exact OnlyFails.ok () | exact OnlyFails.error fun h => nomatch h

theorem reserveVec_fails (host : Host) (cap : ℕ) : OnlyFails NoMismatch (reserveVec host cap) :=
  OnlyFails.ite (OnlyFails.ok ()) (OnlyFails.ite (OnlyFails.ok ())
    (OnlyFails.error fun h => nomatch h))

theorem arenaNew_fails (w : PointerWidth) (alloc : ℕ → Bool) (blocks : ℕ) :
    OnlyFails NoMismatch (Arena.new w alloc blocks) := by
  refine OnlyFails.bind (fun e he => ?_) fun bytes =>
    OnlyFails.ite (OnlyFails.ok _) (OnlyFails.error fun h => nomatch h)
  rw [checkedLayout_error w he]
  exact fun h => nomatch h

theorem build_fails (w : PointerWidth) (b : ParamsBuilder) : OnlyFails NoMismatch (b.build w) := by
  have hvalid := validateInputs_fails w (asUsize w b.tagLen) 0 minSaltLength.toNat 0 0
    b.memory.toUInt32 b.passes b.lanes (b.threads.getD b.lanes)
  unfold ParamsBuilder.build
  split
  · exact OnlyFails.error fun h => nomatch h
  · refine OnlyFails.ite (OnlyFails.error fun h => nomatch h)
      (OnlyFails.ite (OnlyFails.error fun h => nomatch h) ?_)
    dsimp only
    split
    · rename_i e he
      exact OnlyFails.error (hvalid e he)
    · exact OnlyFails.ok _

theorem assemble_fails (w : PointerWidth) (algorithm : Algorithm)
    (versionValue mCost tCost lanes : UInt32) (salt hash ad : List UInt8) : OnlyFails NoMismatch
      (assemble w algorithm versionValue mCost tCost lanes salt hash ad) := by
  refine OnlyFails.bind ?_ fun _ => OnlyFails.bind (build_fails _ _) fun _ => OnlyFails.ok _
  cases Version.fromU32 versionValue with
  | none => exact OnlyFails.error fun h => nomatch h
  | some version => exact OnlyFails.ok version

variable (host : Host)

theorem decodeString_fails (encoded : List UInt8) (algorithm : Algorithm) :
    OnlyFails NoMismatch (decodeString host encoded algorithm) := by
  by_cases hlen : encoded.length > 0xFFFFFFFF
  · unfold decodeString
    rw [if_pos hlen]
    exact OnlyFails.error fun h => nomatch h
  · rw [decodeString_eq host algorithm encoded (by omega)]
    refine OnlyFails.bind (readFields_fails host algorithm (fun h => nomatch h) encoded
      fun cap _ => reserveVec_fails host cap) fun r => ?_
    exact OnlyFails.bind (validateInputs_fails _ _ _ _ _ _ _ _ _ _) fun _ =>
      OnlyFails.ite (OnlyFails.error fun h => nomatch h) (assemble_fails _ _ _ _ _ _ _ _ _)

theorem hashWithAd_fails (compress : CompressFn) (scheduler : Scheduler)
    (argon2 : Argon2 host.width) (x : Inputs) :
    OnlyFails NoMismatch (argon2.hashWithAd host compress (pooledFill scheduler) x) := by
  refine OnlyFails.bind (OnlyFails.bind (reserveVec_fails host _) fun _ => OnlyFails.ok _)
    fun out => ?_
  unfold Argon2.hashIntoWithAd
  rw [hashOwned_eq]
  exact OnlyFails.bind (OnlyFails.bind (validateInputs_fails _ _ _ _ _ _ _ _ _ _) fun _ =>
      OnlyFails.ite (OnlyFails.error fun h => nomatch h) (OnlyFails.ok _)) fun blocks =>
    OnlyFails.bind (arenaNew_fails _ _ _) fun _ => OnlyFails.ok _

end Errors

section Verify
variable (host : Host) (compress : CompressFn)

theorem verifyEncodedWithAd_eq (fill : Instance → Arena → Except Error Arena)
    (encoded pwd secret ad : List UInt8) (algorithm : Algorithm)
    (hpwd : ¬ pwd.length > maxPwdLength.toNat) :
    Argon2.verifyEncodedWithAd host compress fill encoded pwd secret ad algorithm =
      (decodeString host encoded algorithm >>= fun d =>
        (ofDecoded d).hashWithAd host compress fill (decodedInputs d pwd secret ad) >>= fun tag =>
          if constantTimeEq tag d.hash then .ok () else .error .verifyMismatch) := by
  unfold Argon2.verifyEncodedWithAd Argon2.hashWithAd
  rw [if_neg hpwd]
  cases decodeString host encoded algorithm with
  | error e => rfl
  | ok d =>
    rw [ok_bind, ok_bind]
    dsimp only
    cases tryZeroedVec host (ofDecoded d).params.tagLenBytes with
    | error e => rfl
    | ok out => rfl

theorem hashWithAd_ok (scheduler : Scheduler) (argon2 : Argon2 host.width) (x : Inputs)
    (tag : List UInt8)
    (h : argon2.hashWithAd host compress (pooledFill scheduler) x = .ok tag) :
    LengthsOk argon2.params.tagLenBytes x.pwd.length x.salt.length x.secret.length x.ad.length ∧
      tag = rfcTag compress argon2.algorithm argon2.version argon2.params x := by
  unfold Argon2.hashWithAd Argon2.hashIntoWithAd at h
  rw [bind_ok_iff] at h
  obtain ⟨out, -, h⟩ := h
  rw [hashOwned_eq, bind_ok_iff] at h
  obtain ⟨blocks, hblocks, h⟩ := h
  rw [bind_ok_iff] at h
  obtain ⟨-, -, h⟩ := h
  exact ⟨((validateAndSize_ok_iff _ _ _ _).mp hblocks).1, (Except.ok.inj h).symm⟩

/-- The verdict on every string and all inputs. -/
theorem verifyEncodedWithAd_iff (scheduler : Scheduler) (encoded pwd secret ad : List UInt8)
    (algorithm : Algorithm) :
    (Argon2.verifyEncodedWithAd host compress (pooledFill scheduler) encoded pwd secret ad
        algorithm = .ok () ↔
      ∃ d, decodeString host encoded algorithm = .ok d ∧
        (ofDecoded d).hashWithAd host compress (pooledFill scheduler)
          (decodedInputs d pwd secret ad) = .ok d.hash) ∧
    (Argon2.verifyEncodedWithAd host compress (pooledFill scheduler) encoded pwd secret ad
        algorithm = .error .verifyMismatch ↔
      ∃ d tag, decodeString host encoded algorithm = .ok d ∧
        (ofDecoded d).hashWithAd host compress (pooledFill scheduler)
          (decodedInputs d pwd secret ad) = .ok tag ∧ tag ≠ d.hash) := by
  by_cases hpwd : pwd.length > maxPwdLength.toNat
  · -- the early length check decides what the hash would have refused anyway
    have hnone : ∀ (d : Decoded host.width) (tag : List UInt8),
        ¬ (ofDecoded d).hashWithAd host compress (pooledFill scheduler)
          (decodedInputs d pwd secret ad) = .ok tag := by
      intro d tag h
      have hle := (hashWithAd_ok host compress scheduler _ _ tag h).1.pwd_le
      exact absurd hle (not_le.mpr hpwd)
    unfold Argon2.verifyEncodedWithAd
    rw [if_pos hpwd]
    refine ⟨iff_of_false (fun h => nomatch h) ?_, iff_of_false (fun h => nomatch h) ?_⟩
    · rintro ⟨d, -, h⟩
      exact hnone d _ h
    · rintro ⟨d, tag, -, h, -⟩
      exact hnone d tag h
  · rw [verifyEncodedWithAd_eq host compress _ encoded pwd secret ad algorithm hpwd]
    cases hd : decodeString host encoded algorithm with
    | error e =>
      rw [error_bind]
      refine ⟨iff_of_false (fun h => nomatch h) ?_, iff_of_false (fun h => ?_) ?_⟩
      · rintro ⟨d, h, -⟩
        cases h
      · rw [Except.error.inj h] at hd
        exact decodeString_fails host encoded algorithm _ hd rfl
      · rintro ⟨d, tag, h, -⟩
        cases h
    | ok d =>
      rw [ok_bind]
      cases htag : (ofDecoded d).hashWithAd host compress (pooledFill scheduler)
          (decodedInputs d pwd secret ad) with
      | error e =>
        rw [error_bind]
        refine ⟨iff_of_false (fun h => nomatch h) ?_, iff_of_false (fun h => ?_) ?_⟩
        · rintro ⟨d', h, htag'⟩
          cases h
          rw [htag] at htag'
          cases htag'
        · rw [Except.error.inj h] at htag
          exact hashWithAd_fails host compress scheduler (ofDecoded d) _ _ htag rfl
        · rintro ⟨d', tag, h, htag', -⟩
          cases h
          rw [htag] at htag'
          cases htag'
      | ok tag =>
        rw [ok_bind]
        have heq := constantTimeEq_iff tag d.hash
        constructor
        · constructor
          · intro h
            by_cases hc : constantTimeEq tag d.hash = true
            · exact ⟨d, rfl, htag.trans (congrArg Except.ok (heq.mp hc))⟩
            · rw [if_neg hc] at h
              cases h
          · rintro ⟨d', h, htag'⟩
            cases h
            rw [if_pos (heq.mpr (Except.ok.inj (htag.symm.trans htag')))]
        · constructor
          · intro h
            by_cases hc : constantTimeEq tag d.hash = true
            · rw [if_pos hc] at h
              cases h
            · exact ⟨d, tag, rfl, htag, fun h => hc (heq.mpr h)⟩
          · rintro ⟨d', tag', h, htag', hne⟩
            cases h
            have hsame : tag = tag' := Except.ok.inj (htag.symm.trans htag')
            rw [if_neg fun hc => hne (hsame ▸ heq.mp hc)]

end Verify

section RoundTrip
variable {w : PointerWidth} (compress : CompressFn) (backend backend' : Backend)
  (alloc alloc' : ℕ → Bool)

theorem rfcTag_sameCosts (algorithm : Algorithm) (version : Version) {p p' : Params w}
    (h : SameCosts p p') (x : Inputs) :
    rfcTag compress algorithm version p x = rfcTag compress algorithm version p' x := by
  obtain ⟨m, t, l, thr, o, hv⟩ := p
  obtain ⟨m', t', l', thr', o', hv'⟩ := p'
  obtain ⟨hm, ht, hl, ho⟩ := h
  dsimp only at hm ht hl ho
  subst hm ht hl ho
  rfl

theorem rfcTag_length (algorithm : Algorithm) (version : Version) (p : Params w) (x : Inputs) :
    (rfcTag compress algorithm version p x).length = p.tagLenBytes := by
  have hlen := p.lengths
  have hge := hlen.out_ge
  rw [rfcTag_eq]
  exact hPrime_length compress _ _ (by omega) hlen.out_le

theorem arenaNew_of_allocates (halloc : (Host.mk w backend' alloc').Allocates) {blocks : ℕ}
    {arena : Arena} (h : Arena.new w alloc blocks = .ok arena) :
    Arena.new w alloc' blocks = .ok (Array.replicate blocks Compression.Block.zero) := by
  obtain ⟨bytes, hlayout, -⟩ := (bind_ok_iff _ _ _).mp h
  obtain ⟨⟨-, -, hle⟩, rfl⟩ := (checkedLayout_ok_iff w blocks bytes).mp hlayout
  have hfits : blocks * blockSize ≤ isizeMax w := by
    unfold isizeMax
    unfold arenaAlign at hle
    omega
  unfold Arena.new
  rw [hlayout, ok_bind, if_pos (halloc _ hfits)]

/-- A hash that one host computed is computed again, for parameters of the same
costs, by a host that never refuses an allocation. -/
theorem hashWithAd_again (halloc : (Host.mk w backend' alloc').Allocates)
    (scheduler scheduler' : Scheduler) (argon2 argon2' : Argon2 w)
    (halg : argon2'.algorithm = argon2.algorithm) (hver : argon2'.version = argon2.version)
    (hcosts : SameCosts argon2'.params argon2.params) (x : Inputs) (tag : List UInt8)
    (h : Argon2.hashWithAd ⟨w, backend, alloc⟩ compress (pooledFill scheduler) argon2 x = .ok tag) :
    Argon2.hashWithAd ⟨w, backend', alloc'⟩ compress (pooledFill scheduler') argon2' x = .ok tag := by
  have htagLen : argon2'.params.tagLenBytes = argon2.params.tagLenBytes :=
    congrArg UInt32.toNat hcosts.outputLen_eq
  unfold Argon2.hashWithAd Argon2.hashIntoWithAd tryZeroedVec at h ⊢
  rw [bind_ok_iff] at h
  obtain ⟨out, hout, h⟩ := h
  rw [bind_ok_iff] at hout
  obtain ⟨u, hres, hout⟩ := hout
  have hcap := reserveVec_le _ _ hres
  rw [Except.ok.injEq] at hout
  rw [htagLen, reserveVec_ok _ halloc _ hcap, ok_bind, ok_bind, hout]
  rw [hashOwned_eq, bind_ok_iff] at h
  obtain ⟨blocks, hblocks, h⟩ := h
  rw [bind_ok_iff] at h
  obtain ⟨arena, harena, h⟩ := h
  have hsized : validateAndSize argon2'.params x out = .ok blocks := by
    have hmem : argon2'.params.memoryLayout = argon2.params.memoryLayout :=
      memoryLayout_sameCosts hcosts
    unfold validateAndSize at hblocks ⊢
    rw [validateFor_sameCosts hcosts, htagLen, hmem]
    exact hblocks
  rw [hashOwned_eq, hsized, ok_bind, arenaNew_of_allocates backend' alloc alloc' halloc harena,
    ok_bind, halg, hver, rfcTag_sameCosts compress _ _ hcosts]
  exact h

theorem verifyEncodedWithAd_hashEncodedWithAd (halloc : (Host.mk w backend' alloc').Allocates)
    (scheduler scheduler' : Scheduler) (argon2 : Argon2 w) (x : Inputs) (s : List UInt8)
    (hs : Argon2.hashEncodedWithAd ⟨w, backend, alloc⟩ compress (pooledFill scheduler) argon2 x =
      .ok s) (hlen : s.length ≤ 0xFFFFFFFF) :
    Argon2.verifyEncodedWithAd ⟨w, backend', alloc'⟩ compress (pooledFill scheduler') s x.pwd
      x.secret x.ad argon2.algorithm = .ok () := by
  unfold Argon2.hashEncodedWithAd at hs
  rw [bind_ok_iff] at hs
  obtain ⟨tag, htag, hs⟩ := hs
  obtain ⟨-, htagEq⟩ := hashWithAd_ok ⟨w, backend, alloc⟩ compress scheduler argon2 x tag htag
  have htagLen : tag.length = argon2.params.tagLenBytes := by
    rw [htagEq]
    exact rfcTag_length compress _ _ _ _
  obtain ⟨d, hd, halg, hver, hm, ht, hl, ho, hsalt, hhash, -, -⟩ :=
    encodeStringAlloc_carries backend backend' alloc alloc' halloc argon2.algorithm
      argon2.version argon2.params x.salt tag htagLen s hs hlen
  refine (verifyEncodedWithAd_iff _ compress scheduler' s x.pwd x.secret x.ad _).1.mpr ⟨d, hd, ?_⟩
  have hcosts : SameCosts d.params argon2.params := ⟨hm, ht, hl, UInt32.toNat_inj.mp ho⟩
  have hinputs : decodedInputs d x.pwd x.secret x.ad = x := by
    unfold decodedInputs
    rw [hsalt]
  rw [hinputs, hhash]
  exact hashWithAd_again compress backend backend' alloc alloc' halloc scheduler scheduler' argon2
    (ofDecoded d) halg hver hcosts x tag htag

/-- Hash then verify, the verdict on every string, and the comparison behind it. -/
theorem hash_then_verify (scheduler scheduler' : Scheduler) :
    ((Host.mk w backend' alloc').Allocates → ∀ (argon2 : Argon2 w) (x : Inputs) (s : List UInt8),
      Argon2.hashEncodedWithAd ⟨w, backend, alloc⟩ compress (pooledFill scheduler) argon2 x =
        .ok s → s.length ≤ 0xFFFFFFFF →
      Argon2.verifyEncodedWithAd ⟨w, backend', alloc'⟩ compress (pooledFill scheduler') s x.pwd
        x.secret x.ad argon2.algorithm = .ok ()) ∧
    (∀ (s pwd secret ad : List UInt8) (algorithm : Algorithm),
      (Argon2.verifyEncodedWithAd ⟨w, backend', alloc'⟩ compress (pooledFill scheduler') s pwd
          secret ad algorithm = .ok () ↔
        ∃ d, decodeString ⟨w, backend', alloc'⟩ s algorithm = .ok d ∧
          Argon2.hashWithAd ⟨w, backend', alloc'⟩ compress (pooledFill scheduler') (ofDecoded d)
            (decodedInputs d pwd secret ad) = .ok d.hash) ∧
      (Argon2.verifyEncodedWithAd ⟨w, backend', alloc'⟩ compress (pooledFill scheduler') s pwd
          secret ad algorithm = .error .verifyMismatch ↔
        ∃ d tag, decodeString ⟨w, backend', alloc'⟩ s algorithm = .ok d ∧
          Argon2.hashWithAd ⟨w, backend', alloc'⟩ compress (pooledFill scheduler') (ofDecoded d)
            (decodedInputs d pwd secret ad) = .ok tag ∧ tag ≠ d.hash)) ∧
    ∀ a b : List UInt8, constantTimeEq a b = true ↔ a = b := by
  refine ⟨?_, ?_, constantTimeEq_iff⟩
  · intro halloc argon2 x s hs hlen
    exact verifyEncodedWithAd_hashEncodedWithAd compress backend backend' alloc alloc' halloc
      scheduler scheduler' argon2 x s hs hlen
  · intro s pwd secret ad algorithm
    exact verifyEncodedWithAd_iff _ compress scheduler' s pwd secret ad algorithm

end RoundTrip

section Least
variable (x : Inputs)

def leastArgon2 : Argon2 plainHost.width := ⟨.argon2id, .v0x13, Params.least⟩

def leastTag : List UInt8 := rfcTag compressScalar .argon2id .v0x13 Params.least x

def leastEncoded : List UInt8 := phcString .argon2id .v0x13 Params.least x.salt (leastTag x)

theorem leastTag_length : (leastTag x).length = 4 :=
  rfcTag_length compressScalar .argon2id .v0x13 Params.least x

theorem leastEncoded_length :
    (leastEncoded x).length = b64LenUsize x.salt.length + 34 := by
  have h := encodedLen_eq .argon2id .v0x13 Params.least x.salt (leastTag x)
  have hone : ∀ n : UInt32, n < 10 → numLen n = 1 := fun n hn => by
    rw [numLen, numLenLoop, dif_neg (UInt32.not_le.mpr hn)]
  have htwo : numLen Version.v0x13.asU32 = 2 := by
    rw [numLen_eq]
    decide
  have htag : b64LenUsize 4 = 6 := rfl
  unfold encodedLen at h
  rw [leastTag_length, hone Params.least.passes (by decide), hone Params.least.memoryKib (by decide),
    hone Params.least.lanes (by decide), htwo, htag] at h
  change 15 + 8 + 1 + 1 + 1 + b64LenUsize x.salt.length + 6 + 2 + 1 = _ at h
  unfold leastEncoded
  omega

theorem hashEncodedWithAd_least (scheduler : Scheduler)
    (hsized : validateAndSize Params.least x [0, 0, 0, 0] = .ok 8)
    (hstring : validateForString Params.least x.salt.length 4 = .ok ())
    (hsalt : x.salt.length ≤ 64) :
    leastArgon2.hashEncodedWithAd plainHost compressScalar (pooledFill scheduler) x =
      .ok (leastEncoded x) := by
  have hout : tryZeroedVec plainHost leastArgon2.params.tagLenBytes = .ok [0, 0, 0, 0] := by decide
  have hlayout : checkedLayout plainHost.width 8 = .ok 8192 := by decide
  have htag : leastArgon2.hashWithAd plainHost compressScalar (pooledFill scheduler) x =
      .ok (leastTag x) := by
    have hsized' : validateAndSize leastArgon2.params x [0, 0, 0, 0] = .ok 8 := hsized
    unfold Argon2.hashWithAd Argon2.hashIntoWithAd
    rw [hout, ok_bind, hashOwned_eq, hsized', ok_bind, Arena.new, hlayout]
    rfl
  have hlen := leastEncoded_length x
  have htext : b64LenUsize x.salt.length ≤ 96 := by
    unfold b64LenUsize
    split_ifs <;> omega
  have hfits : (leastEncoded x).length + 1 ≤ 200 := by omega
  have hs := encodeStringAlloc_eq .argon2id .v0x13 Params.least x.salt (leastTag x) plainHost
    (by rw [leastTag_length]; exact hstring) (lt_of_le_of_lt hfits (by decide))
    (reserveVec_ok plainHost (fun _ _ => rfl) _ (hfits.trans (by decide)))
  unfold Argon2.hashEncodedWithAd
  rw [htag, ok_bind]
  exact hs

end Least

theorem hash_then_verify_least :
    ∀ scheduler scheduler' : Scheduler, ∃ s,
      Argon2.hashEncodedWithAd plainHost compressScalar (pooledFill scheduler)
        ⟨.argon2id, .v0x13, Params.least⟩ ⟨ascii "password", ascii "somesalt", [], []⟩ = .ok s ∧
      Argon2.verifyEncodedWithAd plainHost compressScalar (pooledFill scheduler') s
        (ascii "password") [] [] .argon2id = .ok () := by
  intro scheduler scheduler'
  let x : Inputs := ⟨ascii "password", ascii "somesalt", [], []⟩
  have hencoded := hashEncodedWithAd_least x scheduler (by decide) (by decide) (by decide)
  have hsalt : b64LenUsize (ascii "somesalt").length = 11 := by decide
  have hlen : (leastEncoded x).length = 11 + 34 :=
    (leastEncoded_length x).trans (congrArg (· + 34) hsalt)
  exact ⟨_, hencoded, (hash_then_verify compressScalar .scalar .scalar (fun _ => true)
    (fun _ => true) scheduler scheduler').1 (fun _ _ => rfl) leastArgon2 x _ hencoded
    (by rw [hlen]; decide)⟩

end Argon2Rust.HashVerify
