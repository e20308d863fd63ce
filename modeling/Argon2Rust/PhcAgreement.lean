import Argon2Rust.PhcGrammar

set_option autoImplicit false

namespace Argon2Rust.PhcAgreement
open Parameters Base64 Cursor Encoding Decoding DecodeString RoundTrip Separated Phc
  PhcGrammar

theorem dollar_not_mem_joinFields {fields : List Field} (h : ∀ f ∈ fields, dollar ∉ f.text) :
    dollar ∉ joinFields fields := by
  intro hmem
  rcases mem_join _ _ _ hmem with heq | ⟨text, htext, hmem⟩
  · exact absurd heq (by decide)
  · obtain ⟨f, hf, rfl⟩ := List.mem_map.mp htext
    exact h f hf hmem

section
variable (host : Host)

def effect (f : Field) : Except Error (PhcParams → PhcParams) :=
  if f.key = ascii "m" then do
    let memory ← parseParamU32 f.value
    .ok fun acc => { acc with memory := some memory }
  else if f.key = ascii "t" then do
    let passes ← parseParamU32 f.value
    .ok fun acc => { acc with passes := some passes }
  else if f.key = ascii "p" then do
    let lanes ← parseParamU32 f.value
    .ok fun acc => { acc with lanes := some lanes }
  else if f.key = ascii "data" then do
    let ad ← decodeBase64 host f.value
    .ok fun acc => { acc with ad := ad }
  else .ok id

section
variable [Memchr] [LawfulMemchr]

theorem parseField_effect (acc : PhcParams) (f : Field) :
    parseField host acc f.text = effect host f >>= fun update => .ok (update acc) := by
  unfold effect
  rw [parseField_text]
  split_ifs
  · simp only [bind_assoc, ok_bind]
  · simp only [bind_assoc, ok_bind]
  · simp only [bind_assoc, ok_bind]
  · simp only [bind_assoc, ok_bind]
  · rfl

end

/-- A known field sets one accumulator, chosen by its key; the others do nothing. -/
theorem effect_cases (f : Field) (update : PhcParams → PhcParams)
    (h : effect host f = .ok update) :
    (f.key = ascii "m" ∧ ∃ v, update = fun acc => { acc with memory := v }) ∨
    (f.key = ascii "t" ∧ ∃ v, update = fun acc => { acc with passes := v }) ∨
    (f.key = ascii "p" ∧ ∃ v, update = fun acc => { acc with lanes := v }) ∨
    (f.key = ascii "data" ∧ ∃ v, update = fun acc => { acc with ad := v }) ∨
    update = id := by
  unfold effect at h
  split_ifs at h with hm ht hp hdata
  · obtain ⟨v, -, hv⟩ := (bind_ok_iff _ _ _).mp h
    cases hv
    exact Or.inl ⟨hm, some v, rfl⟩
  · obtain ⟨v, -, hv⟩ := (bind_ok_iff _ _ _).mp h
    cases hv
    exact Or.inr (Or.inl ⟨ht, some v, rfl⟩)
  · obtain ⟨v, -, hv⟩ := (bind_ok_iff _ _ _).mp h
    cases hv
    exact Or.inr (Or.inr (Or.inl ⟨hp, some v, rfl⟩))
  · obtain ⟨v, -, hv⟩ := (bind_ok_iff _ _ _).mp h
    cases hv
    exact Or.inr (Or.inr (Or.inr (Or.inl ⟨hdata, v, rfl⟩)))
  · cases h
    exact Or.inr (Or.inr (Or.inr (Or.inr rfl)))

theorem effect_unknown (f : Field) (h : ¬ f.Known) : effect host f = .ok id := by
  unfold Field.Known at h
  simp only [List.mem_cons, List.not_mem_nil, or_false, not_or] at h
  unfold effect
  rw [if_neg h.1, if_neg h.2.1, if_neg h.2.2.1, if_neg h.2.2.2]

theorem parseField_unknown [Memchr] [LawfulMemchr] (f : Field) (h : ¬ f.Known) (acc : PhcParams) :
    parseField host acc f.text = .ok acc := by
  rw [parseField_effect, effect_unknown host f h]
  rfl

def Exchangeable (f g : Field) : Prop := f.key ≠ g.key ∨ ¬ f.Known ∨ ¬ g.Known

theorem Exchangeable.symm (f g : Field) (h : Exchangeable f g) : Exchangeable g f := by
  rcases h with h | h | h
  · exact Or.inl h.symm
  · exact Or.inr (Or.inr h)
  · exact Or.inr (Or.inl h)

theorem effect_comm (f g : Field) (hfg : f.key ≠ g.key) (u v : PhcParams → PhcParams)
    (hu : effect host f = .ok u) (hv : effect host g = .ok v) (acc : PhcParams) :
    v (u acc) = u (v acc) := by
  rcases effect_cases host f u hu with ⟨hf, x, rfl⟩ | ⟨hf, x, rfl⟩ | ⟨hf, x, rfl⟩ | ⟨hf, x, rfl⟩ | rfl <;>
    rcases effect_cases host g v hv with ⟨hg, y, rfl⟩ | ⟨hg, y, rfl⟩ | ⟨hg, y, rfl⟩ | ⟨hg, y, rfl⟩ | rfl <;>
    first
      | rfl
      | exact absurd (hf.trans hg.symm) hfg

theorem parseField_swap [Memchr] [LawfulMemchr] (f g : Field) (acc out : PhcParams) (hfg : Exchangeable f g)
    (h : (parseField host acc f.text >>= fun acc => parseField host acc g.text) = .ok out) :
    (parseField host acc g.text >>= fun acc => parseField host acc f.text) = .ok out := by
  simp only [parseField_effect, bind_ok_iff, Except.ok.injEq] at h ⊢
  obtain ⟨mid, ⟨u, hu, rfl⟩, v, hv, rfl⟩ := h
  refine ⟨v acc, ⟨v, hv, rfl⟩, u, hu, ?_⟩
  rcases hfg with hne | hunknown | hunknown
  · exact (effect_comm host f g hne u v hu hv acc).symm
  · rw [effect_unknown host f hunknown] at hu
    cases hu
    rfl
  · rw [effect_unknown host g hunknown] at hv
    cases hv
    rfl

theorem parsePhcParams_join [Memchr] [LawfulMemchr] (fields : List Field)
    (r : UInt32 × UInt32 × UInt32 × List UInt8) :
    parsePhcParams host (joinFields fields) = .ok r ↔
      fields ≠ [] ∧
        fields.foldlM (fun acc f => parseField host acc f.text) ⟨none, none, none, []⟩ =
          .ok ⟨some r.1, some r.2.1, some r.2.2.1, r.2.2.2⟩ := by
  by_cases hne : fields = []
  · rw [hne]
    exact iff_of_false (fun h => nomatch h) (fun h => h.1 rfl)
  · have hjoin := parseFields_join host fields hne [] (Or.inl rfl) ⟨none, none, none, []⟩
    rw [List.append_nil] at hjoin
    rw [parsePhcParams_eq_ok, hjoin, and_iff_right hne]

/-- Rearranging a section and adding fields with unknown keys changes nothing. -/
theorem parsePhcParams_perm [Memchr] [LawfulMemchr] (fields extra fields' : List Field)
    (hkeys : (fields.map Field.key).Nodup) (hextra : ∀ f ∈ extra, ¬ f.Known)
    (hperm : fields'.Perm (fields ++ extra)) (r : UInt32 × UInt32 × UInt32 × List UInt8)
    (h : parsePhcParams host (joinFields fields) = .ok r) :
    parsePhcParams host (joinFields fields') = .ok r := by
  rw [parsePhcParams_join] at h ⊢
  obtain ⟨hne, hfold⟩ := h
  have hpair : (fields ++ extra).Pairwise Exchangeable := by
    rw [List.pairwise_append]
    refine ⟨?_, ?_, ?_⟩
    · exact (List.pairwise_map.mp hkeys).imp Or.inl
    · exact List.pairwise_of_forall_mem_list fun f hf g hg => Or.inr (Or.inl (hextra f hf))
    · exact fun f hf g hg => Or.inr (Or.inr (hextra g hg))
  constructor
  · rintro rfl
    exact hne (List.append_eq_nil_iff.mp hperm.nil_eq.symm).1
  · refine foldlM_perm (fun f g x y hfg => parseField_swap host f g x y hfg) Exchangeable.symm
      hperm.symm hpair _ _ ?_
    rw [foldlM_append_ignored fields extra fun f hf x => parseField_unknown host f (hextra f hf) x]
    exact hfold

end

section Standard

theorem not_mem_decimal (c : UInt8) (n : ℕ) (h : isAsciiDigit c = false) : c ∉ decimal n := by
  intro hmem
  rw [decimal_digits n c hmem] at h
  cases h

def numberField (key : List UInt8) (hkey : equals ∉ key ∧ comma ∉ key) (n : UInt32) : Field where
  key := key
  value := decimal n.toNat
  key_clean := hkey
  value_clean := not_mem_decimal _ _ rfl

def standardFields (mCost tCost lanes : UInt32) : List Field :=
  [numberField (ascii "m") (by decide) mCost, numberField (ascii "t") (by decide) tCost,
    numberField (ascii "p") (by decide) lanes]

theorem dollar_not_mem_standard (mCost tCost lanes : UInt32) :
    dollar ∉ joinFields (standardFields mCost tCost lanes) := by
  have hnumber : ∀ key hkey n, dollar ∉ key → dollar ∉ (numberField key hkey n).text := by
    intro key hkey n hnot
    simp only [Field.text, numberField, List.mem_append, List.mem_cons, not_or]
    exact ⟨hnot, by decide, not_mem_decimal dollar n.toNat rfl⟩
  refine dollar_not_mem_joinFields fun f hf => ?_
  simp only [standardFields, List.mem_cons, List.not_mem_nil, or_false] at hf
  rcases hf with rfl | rfl | rfl <;> exact hnumber _ _ _ (by decide)

theorem render_eq_phcText (algorithm : Algorithm) (version : Option UInt32)
    (mCost tCost lanes : UInt32) (salt hash : List UInt8) :
    render algorithm version mCost tCost lanes salt hash =
      phcText algorithm version (joinFields (standardFields mCost tCost lanes)) salt hash := by
  simp [render, phcText, joinFields, standardFields, numberField, Field.text, join, ascii, comma,
    equals]

theorem parsePhcParams_standard [Memchr] [LawfulMemchr] (host : Host) (mCost tCost lanes : UInt32) :
    parsePhcParams host (joinFields (standardFields mCost tCost lanes)) =
      .ok (mCost, tCost, lanes, []) := by
  rw [parsePhcParams_join]
  refine ⟨List.cons_ne_nil _ _, ?_⟩
  have hm : ∀ hkey acc, parseField host acc (numberField (ascii "m") hkey mCost).text =
      .ok { acc with memory := some mCost } := by
    intro hkey acc
    have h : (numberField (ascii "m") hkey mCost).key = ascii "m" := rfl
    rw [parseField_effect, effect, if_pos h]
    simp only [numberField, parseParamU32_decimal, ok_bind]
  have ht : ∀ hkey acc, parseField host acc (numberField (ascii "t") hkey tCost).text =
      .ok { acc with passes := some tCost } := by
    intro hkey acc
    have h : (numberField (ascii "t") hkey tCost).key = ascii "t" := rfl
    rw [parseField_effect, effect, if_neg (by rw [h]; decide), if_pos h]
    simp only [numberField, parseParamU32_decimal, ok_bind]
  have hp : ∀ hkey acc, parseField host acc (numberField (ascii "p") hkey lanes).text =
      .ok { acc with lanes := some lanes } := by
    intro hkey acc
    have h : (numberField (ascii "p") hkey lanes).key = ascii "p" := rfl
    rw [parseField_effect, effect, if_neg (by rw [h]; decide), if_neg (by rw [h]; decide), if_pos h]
    simp only [numberField, parseParamU32_decimal, ok_bind]
  simp only [standardFields, List.foldlM_cons, List.foldlM_nil, hm, ht, hp, ok_bind]
  rfl

end Standard

section Agreement
variable [Memchr] [LawfulMemchr] (host : Host) (hw : host.width = .bits64) (halloc : host.Allocates)
include hw halloc

/-- `decode_phc` returns what `decode_string` returns wherever that accepts. -/
theorem decodePhc_of_decodeString (algorithm : Algorithm) (s : List UInt8)
    (d : Decoded host.width) (h : decodeString host s algorithm = .ok d) :
    decodePhc host s = .ok d := by
  obtain ⟨hlen, hlens, version, hs, hd⟩ := decodeString_ok _ _ _ _ h
  obtain rfl := hd.algorithm_eq
  have had : d.ad = [] := hd.ad_eq
  rw [render_eq_phcText] at hs
  rw [hs] at hlen ⊢
  refine decodePhc_phcText host hw halloc version _ d hlen (by rw [had]; exact hlens)
    (dollar_not_mem_standard _ _ _) ?_ ?_ (by rw [had]; exact hd)
  · rintro - ⟨tail, htail⟩
    simp [joinFields, standardFields, numberField, Field.text, join, ascii] at htail
  · rw [had]
    exact parsePhcParams_standard host _ _ _

/-- The two decoders agree, and `decode_phc` ignores the order of the fields and any
field it does not know, as long as a section without a `$v=` before it does not
begin with `v=`. -/
theorem decoders_agree (s : List UInt8) (d : Decoded host.width) :
    (∀ algorithm, decodeString host s algorithm = .ok d → decodePhc host s = .ok d) ∧
    (decodePhc host s = .ok d →
      ∃ (version : Option UInt32) (params : List UInt8),
        s = phcText d.algorithm version params d.salt d.hash ∧ dollar ∉ params ∧
        ∀ fields extra fields' : List Field, params = joinFields fields →
          (fields.map Field.key).Nodup → (∀ f ∈ extra, ¬ f.Known ∧ dollar ∉ f.text) →
          fields'.Perm (fields ++ extra) →
          (version.isSome ∨ ¬ ascii "v=" <+: joinFields fields') →
          (phcText d.algorithm version (joinFields fields') d.salt d.hash).length ≤ 0xFFFFFFFF →
          decodePhc host (phcText d.algorithm version (joinFields fields') d.salt d.hash) = .ok d) := by
  refine ⟨fun algorithm => decodePhc_of_decodeString host hw halloc algorithm s d, ?_⟩
  intro h
  obtain ⟨-, hlens, version, params, hs, hnot, -, hparams, hd⟩ := decodePhc_ok host s d h
  refine ⟨version, params, hs, hnot, ?_⟩
  rintro fields extra fields' rfl hkeys hextra hperm hv hlen
  have hclean : dollar ∉ joinFields fields' := dollar_not_mem_joinFields fun f hf hmem => by
    rcases List.mem_append.mp (hperm.mem_iff.mp hf) with hold | hnew
    · exact hnot (mem_join_of_mem (List.mem_map_of_mem hold) hmem)
    · exact (hextra f hnew).2 hmem
  refine decodePhc_phcText host hw halloc version _ d hlen hlens hclean ?_
    (parsePhcParams_perm host fields extra fields' hkeys (fun f hf => (hextra f hf).1) hperm _
      hparams) hd
  intro hnone
  rcases hv with hsome | hv
  · rw [hnone] at hsome
    cases hsome
  · exact hv

end Agreement

theorem phcText_inj {algorithm : Algorithm} {version version' : Option UInt32}
    {params params' salt hash : List UInt8} (hp : dollar ∉ params) (hp' : dollar ∉ params')
    (h : phcText algorithm version params salt hash = phcText algorithm version' params' salt hash) :
    versionField version = versionField version' ∧ params = params' := by
  have hassoc : ∀ version params, versionField version ++ (ascii "$" ++ (params ++ (ascii "$" ++
      (text salt ++ (ascii "$" ++ text hash))))) = (versionField version ++ dollar :: params) ++
        (ascii "$" ++ (text salt ++ (ascii "$" ++ text hash))) := by
    intro version params
    rw [List.append_assoc]
    rfl
  have hparts := List.append_cancel_left (List.append_cancel_left h)
  rw [hassoc, hassoc] at hparts
  exact last_unique hp hp' (List.append_cancel_right hparts)

section Runs

local instance : Memchr := scan

local instance : LawfulMemchr := scan_lawful

def keyidField : Field := ⟨ascii "keyid", ascii "x", by decide, by decide⟩

def rearranged : List Field :=
  [numberField (ascii "p") (by decide) 1, keyidField] ++
    [numberField (ascii "m") (by decide) 8, numberField (ascii "t") (by decide) 1]

/-- The fields in another order, with one that the decoder does not know among them. -/
theorem decoders_agree_least :
    decodePhc plainHost leastString = .ok leastDecoded ∧
      decodePhc plainHost (ascii "$argon2id$v=19$p=1,keyid=x,m=8,t=1$c29tZXNhbHQ$AAAAAA") =
        .ok leastDecoded := by
  obtain ⟨hleft, hright⟩ := decoders_agree plainHost rfl (fun _ _ => rfl) leastString leastDecoded
  have hphc := hleft .argon2id decodeString_leastString
  obtain ⟨version, params, hs, hnot, hall⟩ := hright hphc
  have hstandard : leastString = phcText .argon2id (some 19) (joinFields (standardFields 8 1 1))
      (ascii "somesalt") [0, 0, 0, 0] := by decide +kernel
  obtain ⟨hversion, rfl⟩ := phcText_inj hnot (dollar_not_mem_standard 8 1 1)
    (hs.symm.trans hstandard)
  have htext : phcText .argon2id version (joinFields rearranged) (ascii "somesalt") [0, 0, 0, 0] =
      ascii "$argon2id$v=19$p=1,keyid=x,m=8,t=1$c29tZXNhbHQ$AAAAAA" := by
    unfold phcText
    rw [hversion]
    decide +kernel
  have hlen : (phcText .argon2id version (joinFields rearranged) (ascii "somesalt")
      [0, 0, 0, 0]).length ≤ 0xFFFFFFFF := by
    rw [htext]
    decide
  have hsome : version.isSome := by
    cases version with
    | none => exact absurd hversion (by decide +kernel)
    | some v => rfl
  have hpermuted := hall (standardFields 8 1 1) [keyidField] rearranged rfl (by decide)
    (fun f hf => by rw [List.mem_singleton.mp hf]; decide) List.perm_append_comm (Or.inl hsome) hlen
  exact ⟨hphc, (congrArg (decodePhc plainHost) htext).symm.trans hpermuted⟩

def versionedField : Field where
  key := ascii "v"
  value := ascii "1"
  key_clean := by decide
  value_clean := by decide

def olderString : List UInt8 := ascii "$argon2id$m=8,t=1,p=1$c29tZXNhbHQ$AAAAAA"

def olderDecoded : Decoded .bits64 := { leastDecoded with version := .v0x10 }

/-- Inserted in front of a section without a `$v=` before it, the field is read as a
version and the string is refused. -/
theorem leading_v_is_refused :
    olderString = phcText .argon2id none (joinFields (standardFields 8 1 1))
      (ascii "somesalt") [0, 0, 0, 0] ∧
    decodePhc plainHost olderString = .ok olderDecoded ∧
    ((standardFields 8 1 1).map Field.key).Nodup ∧ ¬ versionedField.Known ∧
    ascii "$argon2id$v=1,m=8,t=1,p=1$c29tZXNhbHQ$AAAAAA" =
      phcText .argon2id none (joinFields (versionedField :: standardFields 8 1 1))
        (ascii "somesalt") [0, 0, 0, 0] ∧
    decodePhc plainHost (ascii "$argon2id$v=1,m=8,t=1,p=1$c29tZXNhbHQ$AAAAAA") =
      .error .decodingFail := by
  refine ⟨?_, ?_, ?_, ?_, ?_, ?_⟩ <;> decide +kernel

end Runs

end Argon2Rust.PhcAgreement
