import Argon2Rust.Encoding

set_option autoImplicit false

namespace Argon2Rust.Decoding
open Parameters Numeral Base64 Cursor Encoding

def isAsciiDigit (c : UInt8) : Bool := 48 ≤ c && c ≤ 57

def digitOf (c : UInt8) : ℕ := c.toNat - 48

theorem digit_iff (c : UInt8) : isAsciiDigit c = true ↔ 48 ≤ c.toNat ∧ c.toNat ≤ 57 := by
  unfold isAsciiDigit
  rw [Bool.and_eq_true, decide_eq_true_eq, decide_eq_true_eq, UInt8.le_iff_toNat_le,
    UInt8.le_iff_toNat_le]
  rfl

theorem digitByte_toNat (d : ℕ) (h : d < 10) : (digitByte d).toNat = 48 + d :=
  UInt8.toNat_ofNat_of_lt' (by change _ < 256; omega)

theorem digitByte_digitOf (c : UInt8) (h : isAsciiDigit c = true) : digitByte (digitOf c) = c := by
  have hc := (digit_iff c).mp h
  apply UInt8.toNat_inj.mp
  unfold digitOf
  rw [digitByte_toNat _ (by omega)]
  omega

theorem decimal_digits (n : ℕ) : ∀ c ∈ decimal n, isAsciiDigit c = true := by
  intro c hc
  obtain ⟨d, hd, rfl⟩ := List.mem_map.mp hc
  have hlt := numeral_lt (by decide) n d hd
  rw [digit_iff, digitByte_toNat d hlt]
  omega

theorem decimal_map_digitOf (n : ℕ) : (decimal n).map digitOf = numeral 10 n := by
  rw [decimal, List.map_map]
  refine (List.map_congr_left fun d hd => ?_).trans (List.map_id _)
  have hlt := numeral_lt (by decide) n d hd
  change (digitByte d).toNat - 48 = d
  rw [digitByte_toNat d hlt]
  omega

def decimalLoop : List UInt8 → UInt64 → ℕ → Option (UInt64 × ℕ)
  | [], acc, i => some (acc, i)
  | c :: src, acc, i =>
    if isAsciiDigit c = false then some (acc, i)
    else
      let digit := (c - 48).toUInt64
      if acc > 0xFFFFFFFFFFFFFFFF / 10 then none
      else
        let acc := acc * 10
        if digit > 0xFFFFFFFFFFFFFFFF - acc then none
        else decimalLoop src (acc + digit) (i + 1)

def decodeDecimal (src : List UInt8) : Option (UInt64 × ℕ) :=
  match decimalLoop src 0 0 with
  | none => none
  | some (acc, i) =>
    if i = 0 then none
    else if src.head? = some 48 ∧ i ≠ 1 then none
    else some (acc, i)

theorem decimalLoop_stops (src : List UInt8) (h : Stops isAsciiDigit src) (acc : UInt64) (i : ℕ) :
    decimalLoop src acc i = some (acc, i) := by
  cases src with
  | nil => rfl
  | cons c src => rw [decimalLoop, if_pos (h c rfl)]

theorem quotient_guard (acc : UInt64) :
    acc > 0xFFFFFFFFFFFFFFFF / 10 ↔ 2 ^ 64 ≤ 10 * acc.toNat := by
  have hmax : ((0xFFFFFFFFFFFFFFFF : UInt64) / 10).toNat = 1844674407370955161 := by decide
  rw [gt_iff_lt, UInt64.lt_iff_toNat_lt, hmax]
  omega

theorem max_sub_toNat (acc : UInt64) :
    (0xFFFFFFFFFFFFFFFF - acc).toNat = 0xFFFFFFFFFFFFFFFF - acc.toNat :=
  UInt64.toNat_sub_of_le _ _ (UInt64.le_iff_toNat_le.mpr (Nat.le_of_lt_succ acc.toNat_lt))

theorem difference_guard (digit acc : UInt64) :
    digit > 0xFFFFFFFFFFFFFFFF - acc ↔ 2 ^ 64 ≤ acc.toNat + digit.toNat := by
  have hacc := acc.toNat_lt
  rw [gt_iff_lt, UInt64.lt_iff_toNat_lt, max_sub_toNat]
  omega

theorem digit_toNat (c : UInt8) (h : isAsciiDigit c = true) :
    (c - 48).toUInt64.toNat = digitOf c := by
  have hle : (48 : UInt8) ≤ c := UInt8.le_iff_toNat_le.mpr ((digit_iff c).mp h).1
  rw [UInt8.toNat_toUInt64, UInt8.toNat_sub_of_le _ _ hle]
  rfl

theorem times_ten_toNat {acc : UInt64} (h : ¬ 2 ^ 64 ≤ 10 * acc.toNat) :
    (acc * 10).toNat = 10 * acc.toNat := by
  have hten : (10 : UInt64).toNat = 10 := rfl
  rw [UInt64.toNat_mul, hten, Nat.mod_eq_of_lt (by omega), Nat.mul_comm]

/-- The overflow checks make the loop exact: it fails as soon as the value leaves
`u64`, from where it can never come back. -/
theorem decimalLoop_run (run : List UInt8) (hrun : ∀ c ∈ run, isAsciiDigit c = true)
    (src : List UInt8) (hsrc : Stops isAsciiDigit src) (acc : UInt64) (i : ℕ) :
    decimalLoop (run ++ src) acc i =
      if valueFrom 10 acc.toNat (run.map digitOf) < 2 ^ 64 then
        some (UInt64.ofNat (valueFrom 10 acc.toNat (run.map digitOf)), i + run.length)
      else none := by
  induction run generalizing acc i with
  | nil =>
    have hacc := acc.toNat_lt
    rw [List.nil_append, decimalLoop_stops src hsrc, List.map_nil, valueFrom_nil, if_pos hacc,
      UInt64.ofNat_toNat]
    rfl
  | cons c run ih =>
    have hc := hrun c List.mem_cons_self
    have hrest := ih (fun c' hc' => hrun c' (List.mem_cons_of_mem c hc'))
    have hle := le_valueFrom (by decide : 1 < 10) (10 * acc.toNat + digitOf c) (run.map digitOf)
    rw [List.cons_append, decimalLoop, if_neg (by simp [hc]),
      List.map_cons, valueFrom_cons]
    by_cases hover : 2 ^ 64 ≤ 10 * acc.toNat
    · rw [if_pos ((quotient_guard acc).mpr hover), if_neg (by omega)]
    · have hmul := times_ten_toNat hover
      have hguard := difference_guard (c - 48).toUInt64 (acc * 10)
      rw [hmul, digit_toNat c hc] at hguard
      rw [if_neg fun h => hover ((quotient_guard acc).mp h)]
      by_cases hdig : 2 ^ 64 ≤ 10 * acc.toNat + digitOf c
      · rw [if_pos (hguard.mpr hdig), if_neg (by omega)]
      · have hadd : (acc * 10 + (c - 48).toUInt64).toNat = 10 * acc.toNat + digitOf c := by
          rw [UInt64.toNat_add, hmul, digit_toNat c hc, Nat.mod_eq_of_lt (by omega)]
        rw [if_neg fun h => hdig (hguard.mp h), hrest, hadd, List.length_cons, Nat.add_assoc i,
          Nat.add_comm 1]

theorem head?_run {src : List UInt8} (hne : (src.takeWhile isAsciiDigit) ≠ []) :
    src.head? = (src.takeWhile isAsciiDigit).head? := by
  cases src with
  | nil => rfl
  | cons c src =>
    rw [List.takeWhile_cons] at hne ⊢
    by_cases hc : isAsciiDigit c = true
    · rw [if_pos hc]
      rfl
    · rw [if_neg hc] at hne
      exact absurd rfl hne

theorem canonical_run (src : List UInt8) (hne : (src.takeWhile isAsciiDigit).length ≠ 0) :
    Canonical ((src.takeWhile isAsciiDigit).map digitOf) ↔
      ¬ (src.head? = some 48 ∧ (src.takeWhile isAsciiDigit).length ≠ 1) := by
  have hnil : src.takeWhile isAsciiDigit ≠ [] := fun h => hne (by rw [h]; rfl)
  obtain ⟨c, run, hrun⟩ := List.exists_cons_of_ne_nil hnil
  have hc : isAsciiDigit c = true := mem_run c (by rw [hrun]; exact List.mem_cons_self)
  have hzero : digitOf c = 0 ↔ c = 48 := by
    have hd := (digit_iff c).mp hc
    rw [← UInt8.toNat_inj]
    change c.toNat - 48 = 0 ↔ c.toNat = 48
    omega
  unfold Canonical
  rw [head?_run hnil, hrun, List.map_cons, List.head?_cons, List.head?_cons,
    Option.some.injEq, Option.some.injEq, hzero, List.length_cons, List.length_cons,
    List.length_map, not_and_not_right]
  exact and_iff_right (List.cons_ne_nil _ _)

/-- Everything the loop and the checks say about a text, in terms of its maximal digit run. -/
theorem decodeDecimal_run (src : List UInt8) :
    decodeDecimal src =
      if Canonical ((src.takeWhile isAsciiDigit).map digitOf) ∧
          value 10 ((src.takeWhile isAsciiDigit).map digitOf) < 2 ^ 64 then
        some (UInt64.ofNat (value 10 ((src.takeWhile isAsciiDigit).map digitOf)),
          (src.takeWhile isAsciiDigit).length)
      else none := by
  have hloop := decimalLoop_run (src.takeWhile isAsciiDigit) mem_run
    (src.dropWhile isAsciiDigit) (stops_dropWhile src) 0 0
  rw [List.takeWhile_append_dropWhile, Nat.zero_add] at hloop
  change decimalLoop src 0 0 = if value 10 _ < 2 ^ 64 then some (UInt64.ofNat (value 10 _), _)
    else none at hloop
  unfold decodeDecimal
  rw [hloop]
  by_cases hlt : value 10 ((src.takeWhile isAsciiDigit).map digitOf) < 2 ^ 64
  · rw [if_pos hlt]
    dsimp only
    by_cases hne : (src.takeWhile isAsciiDigit).length = 0
    · have hnil : src.takeWhile isAsciiDigit = [] := List.length_eq_zero_iff.mp hne
      rw [if_pos hne, if_neg]
      rintro ⟨⟨hcons, -⟩, -⟩
      exact hcons (by rw [hnil]; rfl)
    · have hmin := canonical_run src hne
      rw [if_neg hne]
      by_cases hlead : src.head? = some 48 ∧ (src.takeWhile isAsciiDigit).length ≠ 1
      · rw [if_pos hlead, if_neg fun h => hmin.mp h.1 hlead]
      · rw [if_neg hlead, if_pos ⟨hmin.mpr hlead, hlt⟩]
  · rw [if_neg hlt, if_neg fun h => hlt h.2]

theorem decodeDecimal_eq_some (src : List UInt8) (v : UInt64) (k : ℕ) :
    decodeDecimal src = some (v, k) ↔
      ∃ tail, src = decimal v.toNat ++ tail ∧ Stops isAsciiDigit tail ∧
        k = (decimal v.toNat).length := by
  rw [decodeDecimal_run]
  constructor
  · intro h
    by_cases hrun : Canonical ((src.takeWhile isAsciiDigit).map digitOf) ∧
        value 10 ((src.takeWhile isAsciiDigit).map digitOf) < 2 ^ 64
    · rw [if_pos hrun, Option.some.injEq, Prod.mk.injEq] at h
      obtain ⟨rfl, rfl⟩ := h
      have hdigits : ∀ d ∈ (src.takeWhile isAsciiDigit).map digitOf, d < 10 := by
        intro d hd
        obtain ⟨c, hc, rfl⟩ := List.mem_map.mp hd
        have hcd := (digit_iff c).mp (mem_run c hc)
        unfold digitOf
        omega
      have hdec : decimal (value 10 ((src.takeWhile isAsciiDigit).map digitOf)) =
          src.takeWhile isAsciiDigit := by
        rw [decimal, numeral_value (by decide) _ hdigits hrun.1, List.map_map]
        refine (List.map_congr_left fun c hc => ?_).trans (List.map_id _)
        exact digitByte_digitOf c (mem_run c hc)
      rw [UInt64.toNat_ofNat_of_lt' hrun.2, hdec]
      exact ⟨src.dropWhile isAsciiDigit, List.takeWhile_append_dropWhile.symm,
        stops_dropWhile src, rfl⟩
    · rw [if_neg hrun] at h
      cases h
  · rintro ⟨tail, rfl, htail, rfl⟩
    rw [run_append (decimal_digits v.toNat) htail, decimal_map_digitOf, value_numeral,
      if_pos ⟨numeral_canonical v.toNat, v.toNat_lt⟩, UInt64.ofNat_toNat]

theorem decodeDecimal_of_u32 (v : UInt32) {src tail : List UInt8}
    (hsrc : src = decimal v.toNat ++ tail) (htail : Stops isAsciiDigit tail) :
    decodeDecimal src = some (v.toUInt64, (decimal v.toNat).length) := by
  refine (decodeDecimal_eq_some _ _ _).mpr ⟨tail, ?_, htail, ?_⟩
  · rw [UInt32.toNat_toUInt64]
    exact hsrc
  · rw [UInt32.toNat_toUInt64]

theorem toUInt64_not_gt (v : UInt32) : ¬ v.toUInt64 > 0xFFFFFFFF := by
  intro hlt
  have hv := v.toNat_lt
  have hgt := UInt64.lt_iff_toNat_lt.mp hlt
  rw [UInt32.toNat_toUInt64] at hgt
  change 0xFFFFFFFF < v.toNat at hgt
  omega

def okOr {α : Type} : Option α → Except Error α
  | some a => .ok a
  | none => .error .decodingFail

theorem okOr_ok_iff {α : Type} (o : Option α) (a : α) : okOr o = .ok a ↔ o = some a := by
  cases o with
  | none => simp [okOr]
  | some b => simp [okOr]

section
variable (src : List UInt8) (pos : ℕ)

def rest : List UInt8 := src.drop pos

def expect (text : List UInt8) : Except Error ℕ :=
  if text.isPrefixOf (rest src pos) then .ok (pos + text.length) else .error .decodingFail

def expectOpt (text : List UInt8) : Option ℕ :=
  if text.isPrefixOf (rest src pos) then some (pos + text.length) else none

def decimalU32 : Except Error (UInt32 × ℕ) :=
  match decodeDecimal (rest src pos) with
  | none => .error .decodingFail
  | some (value, consumed) =>
    if value > 0xFFFFFFFF then .error .decodingFail
    else .ok (value.toUInt32, pos + consumed)

def decodeBin (host : Host) : Except Error (List UInt8 × ℕ) := do
  let tail := rest src pos
  let maxLen := tail.length / 4 * 3 + 3
  reserveVec host maxLen
  let buf := fromBase64Raw host.backend maxLen tail
  let (written, consumed) ← buf.2
  if written > 0xFFFFFFFF then .error .decodingFail
  else .ok (buf.1.take written, pos + consumed)

variable {src pos}

theorem expect_ok_iff (text : List UInt8) (next : ℕ) :
    expect src pos text = .ok next ↔ Reads src pos text next := by
  unfold expect rest
  rw [reads_iff_starts, ← List.isPrefixOf_iff_prefix]
  by_cases h : text.isPrefixOf (src.drop pos) = true
  · rw [if_pos h, Except.ok.injEq]
    exact ⟨fun hn => ⟨h, hn.symm⟩, fun hn => hn.2.symm⟩
  · rw [if_neg h]
    exact iff_of_false (fun hn => nomatch hn) (fun hn => h hn.1)

theorem expect_error (text : List UInt8) (h : ¬ text <+: src.drop pos) :
    expect src pos text = .error .decodingFail := by
  unfold expect rest
  rw [if_neg (by rwa [List.isPrefixOf_iff_prefix])]

theorem expectOpt_some_iff (text : List UInt8) (next : ℕ) :
    expectOpt src pos text = some next ↔ Reads src pos text next := by
  unfold expectOpt rest
  rw [reads_iff_starts, ← List.isPrefixOf_iff_prefix]
  by_cases h : text.isPrefixOf (src.drop pos) = true
  · rw [if_pos h, Option.some.injEq]
    exact ⟨fun hn => ⟨h, hn.symm⟩, fun hn => hn.2.symm⟩
  · rw [if_neg h]
    exact iff_of_false (fun hn => nomatch hn) (fun hn => h hn.1)

theorem expectOpt_none (text : List UInt8) (h : ¬ text <+: src.drop pos) :
    expectOpt src pos text = none := by
  unfold expectOpt rest
  rw [if_neg (by rwa [List.isPrefixOf_iff_prefix])]

theorem decimalU32_ok_iff (v : UInt32) (next : ℕ) :
    decimalU32 src pos = .ok (v, next) ↔
      Reads src pos (decimal v.toNat) next ∧ Stops isAsciiDigit (src.drop next) := by
  have hv := v.toNat_lt
  constructor
  · intro h
    unfold decimalU32 at h
    cases hd : decodeDecimal (rest src pos) with
    | none =>
      rw [hd] at h
      cases h
    | some r =>
      obtain ⟨value, consumed⟩ := r
      obtain ⟨tail, hsrc, htail, hk⟩ := (decodeDecimal_eq_some _ _ _).mp hd
      rw [hd] at h
      dsimp only at h
      by_cases hbig : value > 0xFFFFFFFF
      · rw [if_pos hbig] at h
        cases h
      · have hle : ¬ (0xFFFFFFFF : UInt64).toNat < value.toNat :=
          fun hlt => hbig (UInt64.lt_iff_toNat_lt.mpr hlt)
        have hmax : (0xFFFFFFFF : UInt64).toNat = 0xFFFFFFFF := rfl
        rw [if_neg hbig, Except.ok.injEq, Prod.mk.injEq] at h
        obtain ⟨rfl, rfl⟩ := h
        have hnat : value.toUInt32.toNat = value.toNat := by
          rw [UInt64.toNat_toUInt32]
          omega
        rw [hnat, hk, drop_add_length hsrc]
        exact ⟨reads_of_drop hsrc, htail⟩
  · rintro ⟨hr, hs⟩
    have hd : decodeDecimal (rest src pos) = some (v.toUInt64, (decimal v.toNat).length) :=
      decodeDecimal_of_u32 v hr.drop_eq hs
    unfold decimalU32
    rw [hd]
    dsimp only
    rw [if_neg (toUInt64_not_gt v), UInt32.toUInt32_toUInt64, hr.next_eq]

variable (host : Host)

/-- A field is read as the bytes it is the text of; the buffer is sized by all that is left. -/
theorem decodeBin_ok_iff (bytes : List UInt8) (next : ℕ) :
    decodeBin src pos host = .ok (bytes, next) ↔
      Reads src pos (text bytes) next ∧ Stops isAlphabet (src.drop next) ∧
        bytes.length ≤ 0xFFFFFFFF ∧ reserveVec host ((rest src pos).length / 4 * 3 + 3) = .ok () := by
  unfold decodeBin
  dsimp only
  constructor
  · intro h
    cases hr : reserveVec host ((rest src pos).length / 4 * 3 + 3) with
    | error e =>
      rw [hr] at h
      cases h
    | ok u =>
      rw [hr, ok_bind] at h
      rcases @fromBase64Raw_cases host.backend ((rest src pos).length / 4 * 3 + 3) (rest src pos)
        (by omega) with ⟨out, tail, hsrc, htail, hraw⟩ | herr
      · rw [hraw] at h
        simp only [ok_bind] at h
        by_cases hbig : out.length > 0xFFFFFFFF
        · rw [if_pos hbig] at h
          cases h
        · rw [if_neg hbig, List.take_length, Except.ok.injEq, Prod.mk.injEq] at h
          obtain ⟨rfl, rfl⟩ := h
          rw [drop_add_length hsrc]
          exact ⟨reads_of_drop hsrc, htail, by omega, rfl⟩
      · rw [herr] at h
        cases h
  · rintro ⟨hread, hstop, hlen, hr⟩
    have hsrc : rest src pos = text bytes ++ src.drop next := hread.drop_eq
    have htext : (text bytes).length ≤ (rest src pos).length := by
      rw [hsrc, List.length_append]
      omega
    have hl := text_length bytes
    rw [b64LenUsize_eq, Sextets.encodedLength] at hl
    have hraw := @fromBase64Raw_text host.backend ((rest src pos).length / 4 * 3 + 3) bytes _ hstop
      (by omega)
    rw [← hsrc] at hraw
    rw [hr, ok_bind, hraw]
    simp only [ok_bind]
    rw [if_neg (by omega), List.take_length, hread.next_eq]

end

end Argon2Rust.Decoding
