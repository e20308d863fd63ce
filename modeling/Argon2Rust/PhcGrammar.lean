import Argon2Rust.Phc

set_option autoImplicit false

namespace Argon2Rust.PhcGrammar
open Parameters Base64 Cursor Encoding Decoding Separated Phc

@[ext] structure Field where
  key : List UInt8
  value : List UInt8
  key_clean : equals ∉ key ∧ comma ∉ key
  value_clean : comma ∉ value

def Field.text (e : Field) : List UInt8 := e.key ++ equals :: e.value

def Field.Known (e : Field) : Prop := e.key ∈ [ascii "m", ascii "t", ascii "p", ascii "data"]

instance (e : Field) : Decidable e.Known := List.instDecidableMemOfLawfulBEq _ _

def joinFields (fields : List Field) : List UInt8 := join comma (fields.map Field.text)

def lastValue (key : List UInt8) (fields : List Field) : Option (List UInt8) :=
  ((fields.filter fun e => e.key = key).getLast?).map Field.value

/-- The numbers are minimal numerals of 32 bits and the associated data is Base64. -/
structure Field.WellFormed (e : Field) : Prop where
  number : e.key ∈ [ascii "m", ascii "t", ascii "p"] → ∃ n : UInt32, e.value = decimal n.toNat
  data : e.key = ascii "data" → ∃ ad, e.value = Base64.text ad

/-- The grammar of a parameter section, with the values it carries. -/
def Section (src : List UInt8) (r : UInt32 × UInt32 × UInt32 × List UInt8) : Prop :=
  ∃ fields : List Field, fields ≠ [] ∧ src = joinFields fields ∧
    (∀ e ∈ fields, e.WellFormed) ∧
    lastValue (ascii "m") fields = some (decimal r.1.toNat) ∧
    lastValue (ascii "t") fields = some (decimal r.2.1.toNat) ∧
    lastValue (ascii "p") fields = some (decimal r.2.2.1.toNat) ∧
    (lastValue (ascii "data") fields).getD [] = Base64.text r.2.2.2

/-- The tripled length of every data value fits `usize`. -/
def DataFits (w : PointerWidth) (fields : List Field) : Prop :=
  ∀ e ∈ fields, e.key = ascii "data" → e.value.length * 3 < 2 ^ w.bits

theorem Field.text_ne_nil (e : Field) : e.text ≠ [] :=
  List.append_ne_nil_of_right_ne_nil _ (List.cons_ne_nil _ _)

theorem Field.comma_not_mem (e : Field) : comma ∉ e.text := by
  unfold Field.text
  simp only [List.mem_append, List.mem_cons, not_or]
  exact ⟨e.key_clean.2, by decide, e.value_clean⟩

theorem Field.find_equals (e : Field) : find e.text equals = some e.key.length :=
  find_append e.key e.value equals e.key_clean.1

theorem Field.take_key (e : Field) : e.text.take e.key.length = e.key := List.take_left

theorem Field.drop_key (e : Field) : e.text.drop (e.key.length + 1) = e.value := by
  rw [← List.drop_drop, Field.text, List.drop_left]
  rfl

theorem Field.text_injective : Function.Injective Field.text := by
  intro e f h
  have hlen : e.key.length = f.key.length := by
    have hf := e.find_equals
    rw [h, f.find_equals, Option.some.injEq] at hf
    exact hf.symm
  have hkey := e.take_key
  have hvalue := e.drop_key
  rw [h, hlen, f.take_key] at hkey
  rw [h, hlen, f.drop_key] at hvalue
  exact Field.ext hkey.symm hvalue.symm

theorem exists_field (field : List UInt8) (hcomma : comma ∉ field) (i : ℕ)
    (h : find field equals = some i) : ∃ e : Field, e.text = field := by
  obtain ⟨head, tail, rfl, hnot, -⟩ := find_some _ _ _ h
  simp only [List.mem_append, List.mem_cons, not_or] at hcomma
  exact ⟨⟨head, tail, ⟨hnot, hcomma.1⟩, hcomma.2.2⟩, rfl⟩

section Join

theorem joinFields_cons (e f : Field) (fields : List Field) :
    joinFields (e :: f :: fields) = e.text ++ comma :: joinFields (f :: fields) := rfl

theorem joinFields_ne_nil (fields : List Field) (h : fields ≠ []) : joinFields fields ≠ [] := by
  cases fields with
  | nil => exact absurd rfl h
  | cons e fields => exact join_ne_nil comma e.text _ e.text_ne_nil

/-- The fields of a joined section, found again by its commas. -/
theorem joinFields_injective (xs ys : List Field) (hx : xs ≠ []) (hy : ys ≠ [])
    (h : joinFields xs = joinFields ys) : xs = ys := by
  induction xs generalizing ys with
  | nil => exact absurd rfl hx
  | cons e xs ih =>
    cases ys with
    | nil => exact absurd rfl hy
    | cons f ys =>
      cases xs with
      | nil =>
        cases ys with
        | nil => rw [Field.text_injective h]
        | cons g ys =>
          have hmem : comma ∈ e.text := by
            rw [show e.text = f.text ++ comma :: joinFields (g :: ys) from h]
            exact List.mem_append_right _ List.mem_cons_self
          exact absurd hmem e.comma_not_mem
      | cons e' xs =>
        cases ys with
        | nil =>
          have hmem : comma ∈ f.text := by
            rw [show f.text = e.text ++ comma :: joinFields (e' :: xs) from h.symm]
            exact List.mem_append_right _ List.mem_cons_self
          exact absurd hmem f.comma_not_mem
        | cons g ys =>
          rw [joinFields_cons, joinFields_cons] at h
          have hfind := find_append e.text (joinFields (e' :: xs)) comma e.comma_not_mem
          rw [h, find_append f.text _ comma f.comma_not_mem, Option.some.injEq] at hfind
          obtain ⟨htext, hrest⟩ := List.append_inj h hfind.symm
          rw [Field.text_injective htext,
            ih (g :: ys) (List.cons_ne_nil _ _) (List.cons_ne_nil _ _) (List.cons.inj hrest).2]

theorem joinFields_ne_trailing (fields : List Field) (s : List UInt8) (h : fields ≠ []) :
    joinFields fields ≠ s ++ [comma] := by
  induction fields generalizing s with
  | nil => exact absurd rfl h
  | cons e fields ih =>
    cases fields with
    | nil =>
      intro heq
      refine e.comma_not_mem ?_
      rw [show e.text = s ++ [comma] from heq]
      exact List.mem_append_right _ List.mem_cons_self
    | cons f fields =>
      intro heq
      rw [joinFields_cons] at heq
      have hne := joinFields_ne_nil (f :: fields) (List.cons_ne_nil _ _)
      obtain ⟨init, last, hsnoc⟩ := (List.eq_nil_or_concat' (joinFields (f :: fields))).resolve_left hne
      have hlast : last = comma := by
        have hc := congrArg List.getLast? heq
        rw [hsnoc, List.getLast?_concat, ← List.cons_append, ← List.append_assoc,
          List.getLast?_concat, Option.some.injEq] at hc
        exact hc
      refine ih init (List.cons_ne_nil _ _) ?_
      rw [hsnoc, hlast]

end Join

section Loop
variable [Memchr] [LawfulMemchr] (host : Host)

theorem parseField_find (acc out : PhcParams) (field : List UInt8)
    (h : parseField host acc field = .ok out) : ∃ i, find field equals = some i := by
  unfold parseField at h
  obtain ⟨i, hi, -⟩ := (bind_ok_iff _ _ _).mp h
  exact ⟨i, (findByte_eq field equals).symm.trans ((okOr_ok_iff _ _).mp hi)⟩

theorem parseFields_reads (src : List UInt8) (acc out : PhcParams)
    (h : parseFields host acc src = .ok out) :
    ∃ fields : List Field, fields ≠ [] ∧
      (src = joinFields fields ∨ src = joinFields fields ++ [comma]) ∧
      fields.foldlM (fun acc e => parseField host acc e.text) acc = .ok out := by
  cases hfind : find src comma with
  | none =>
    have hcomma := not_mem_of_find src comma hfind
    rw [parseFields_last host acc src hcomma] at h
    obtain ⟨i, hi⟩ := parseField_find host acc out src h
    obtain ⟨e, rfl⟩ := exists_field src hcomma i hi
    refine ⟨[e], List.cons_ne_nil e [], Or.inl rfl, ?_⟩
    rw [List.foldlM_cons, h]
    rfl
  | some k =>
    obtain ⟨field, rest, rfl, hcomma, -⟩ := find_some src comma k hfind
    rw [parseFields_comma host acc field rest hcomma, bind_ok_iff] at h
    obtain ⟨mid, hmid, h⟩ := h
    obtain ⟨i, hi⟩ := parseField_find host acc mid field hmid
    obtain ⟨e, rfl⟩ := exists_field field hcomma i hi
    by_cases hrest : rest = []
    · rw [if_pos hrest] at h
      refine ⟨[e], List.cons_ne_nil e [], Or.inr (by rw [hrest]; rfl), ?_⟩
      rw [List.foldlM_cons, hmid]
      exact h
    · rw [if_neg hrest] at h
      obtain ⟨fields, hne, hsrc, hfold⟩ := parseFields_reads rest mid out h
      obtain ⟨f, tail, rfl⟩ := List.exists_cons_of_ne_nil hne
      refine ⟨e :: f :: tail, List.cons_ne_nil e _, ?_, ?_⟩
      · rcases hsrc with hsrc | hsrc
        · exact Or.inl (by rw [hsrc, joinFields_cons])
        · exact Or.inr (by rw [hsrc, joinFields_cons, List.append_assoc, List.cons_append])
      · rw [List.foldlM_cons, hmid]
        exact hfold
termination_by src.length
decreasing_by
  rw [‹src = _›, List.length_append, List.length_cons]
  omega

/-- On a section the loop is the fold over its fields, also with a comma at the end. -/
theorem parseFields_join (fields : List Field) (hne : fields ≠ []) (tail : List UInt8)
    (htail : tail = [] ∨ tail = [comma]) (acc : PhcParams) :
    parseFields host acc (joinFields fields ++ tail) =
      fields.foldlM (fun acc e => parseField host acc e.text) acc := by
  induction fields generalizing acc with
  | nil => exact absurd rfl hne
  | cons e fields ih =>
    cases fields with
    | nil =>
      have hlast : parseFields host acc (e.text ++ tail) = parseField host acc e.text := by
        rcases htail with rfl | rfl
        · rw [List.append_nil, parseFields_last host acc e.text e.comma_not_mem]
        · rw [parseFields_comma host acc e.text [] e.comma_not_mem]
          cases parseField host acc e.text <;> rfl
      rw [List.foldlM_cons]
      refine hlast.trans ?_
      cases parseField host acc e.text <;> rfl
    | cons f fields =>
      have hjoin := joinFields_ne_nil (f :: fields) (List.cons_ne_nil f fields)
      rw [joinFields_cons, List.append_assoc, List.cons_append,
        parseFields_comma host acc e.text _ e.comma_not_mem, List.foldlM_cons]
      refine bind_congr fun acc' => ?_
      rw [if_neg (List.append_ne_nil_of_left_ne_nil hjoin _)]
      exact ih (List.cons_ne_nil f fields) acc'

theorem parseFields_ok_iff (src : List UInt8) (acc out : PhcParams) :
    parseFields host acc src = .ok out ↔
      ∃ fields : List Field, fields ≠ [] ∧
        (src = joinFields fields ∨ src = joinFields fields ++ [comma]) ∧
        fields.foldlM (fun acc e => parseField host acc e.text) acc = .ok out := by
  constructor
  · exact parseFields_reads host src acc out
  · rintro ⟨fields, hne, rfl | rfl, hfold⟩
    · have hjoin := parseFields_join host fields hne [] (Or.inl rfl) acc
      rw [List.append_nil] at hjoin
      exact hjoin.trans hfold
    · exact (parseFields_join host fields hne [comma] (Or.inr rfl) acc).trans hfold

theorem parsePhcParams_eq_ok (src : List UInt8) (r : UInt32 × UInt32 × UInt32 × List UInt8) :
    parsePhcParams host src = .ok r ↔
      parseFields host ⟨none, none, none, []⟩ src =
        .ok ⟨some r.1, some r.2.1, some r.2.2.1, r.2.2.2⟩ := by
  unfold parsePhcParams
  by_cases hnil : src = []
  · rw [if_pos hnil, hnil, parseFields_last host _ [] List.not_mem_nil]
    unfold parseField
    rw [findByte_eq]
    exact iff_of_false (fun h => nomatch h) (fun h => nomatch h)
  · rw [if_neg hnil]
    obtain ⟨m, t, p, ad⟩ := r
    cases parseFields host ⟨none, none, none, []⟩ src with
    | error e => exact iff_of_false (fun h => nomatch h) (fun h => nomatch h)
    | ok acc =>
      obtain ⟨memory, passes, lanes, ad'⟩ := acc
      rw [ok_bind]
      cases memory <;> cases passes <;> cases lanes <;> simp

end Loop

section Values

theorem parseParamU32_ok_iff (value : List UInt8) (n : UInt32) :
    parseParamU32 value = .ok n ↔ value = decimal n.toNat := by
  constructor
  · intro h
    unfold parseParamU32 at h
    obtain ⟨⟨v, k⟩, hv, h⟩ := (bind_ok_iff _ _ _).mp h
    obtain ⟨tail, hsrc, -, hk⟩ := (decodeDecimal_eq_some _ _ _).mp ((okOr_ok_iff _ _).mp hv)
    dsimp only at h
    by_cases hbad : k ≠ value.length ∨ v > 0xFFFFFFFF
    · rw [if_pos hbad] at h
      cases h
    · rw [not_or, not_not] at hbad
      have hnil : tail = [] := by
        have hl := congrArg List.length hsrc
        rw [List.length_append] at hl
        exact List.length_eq_zero_iff.mp (by omega)
      have hle : ¬ (0xFFFFFFFF : UInt64).toNat < v.toNat :=
        fun hlt => hbad.2 (UInt64.lt_iff_toNat_lt.mpr hlt)
      have hmax : (0xFFFFFFFF : UInt64).toNat = 0xFFFFFFFF := rfl
      rw [if_neg (not_or.mpr ⟨not_not.mpr hbad.1, hbad.2⟩), Except.ok.injEq] at h
      rw [hsrc, hnil, List.append_nil, ← h, UInt64.toNat_toUInt32, Nat.mod_eq_of_lt (by omega)]
  · rintro rfl
    exact parseParamU32_decimal n

theorem decimal_injective {m n : UInt32} (h : decimal m.toNat = decimal n.toNat) : m = n := by
  have hm := parseParamU32_decimal m
  rw [h, parseParamU32_decimal, Except.ok.injEq] at hm
  exact hm.symm

theorem lastValue_concat (key : List UInt8) (fields : List Field) (e : Field) :
    lastValue key (fields ++ [e]) = if e.key = key then some e.value else lastValue key fields := by
  unfold lastValue
  rw [List.filter_append]
  by_cases h : e.key = key
  · rw [if_pos h, List.filter_cons_of_pos (by simpa using h), List.filter_nil,
      List.getLast?_concat, Option.map_some]
  · rw [if_neg h, List.filter_cons_of_neg (by simpa using h), List.filter_nil, List.append_nil]

/-- The accumulators hold what the last fields of their keys say. -/
structure Holds (fields : List Field) (acc : PhcParams) : Prop where
  memory : lastValue (ascii "m") fields = acc.memory.map fun n => decimal n.toNat
  passes : lastValue (ascii "t") fields = acc.passes.map fun n => decimal n.toNat
  lanes : lastValue (ascii "p") fields = acc.lanes.map fun n => decimal n.toNat
  ad : (lastValue (ascii "data") fields).getD [] = Base64.text acc.ad

theorem Holds.nil : Holds [] ⟨none, none, none, []⟩ := ⟨rfl, rfl, rfl, rfl⟩

theorem Holds.unique {fields : List Field} {acc acc' : PhcParams} (h : Holds fields acc)
    (h' : Holds fields acc') : acc = acc' := by
  have hinj : Function.Injective fun n : UInt32 => decimal n.toNat := fun _ _ => decimal_injective
  refine PhcParams.ext ?_ ?_ ?_ ?_
  · exact Option.map_injective hinj (h.memory.symm.trans h'.memory)
  · exact Option.map_injective hinj (h.passes.symm.trans h'.passes)
  · exact Option.map_injective hinj (h.lanes.symm.trans h'.lanes)
  · exact text_injective (h.ad.symm.trans h'.ad)

theorem Field.wellFormed_number {e : Field} (h : e.key ≠ ascii "data") (n : UInt32)
    (hv : e.value = decimal n.toNat) : e.WellFormed :=
  ⟨fun _ => ⟨n, hv⟩, fun hdata => absurd hdata h⟩

theorem dataFits_other {w : PointerWidth} {e : Field} (h : e.key ≠ ascii "data") :
    DataFits w [e] := by
  intro f hf hdata
  rw [List.mem_singleton.mp hf] at hdata
  exact absurd hdata h

variable [Memchr] [LawfulMemchr] (host : Host)

theorem parseField_text (acc : PhcParams) (e : Field) :
    parseField host acc e.text =
      if e.key = ascii "m" then
        parseParamU32 e.value >>= fun memory => .ok { acc with memory := some memory }
      else if e.key = ascii "t" then
        parseParamU32 e.value >>= fun passes => .ok { acc with passes := some passes }
      else if e.key = ascii "p" then
        parseParamU32 e.value >>= fun lanes => .ok { acc with lanes := some lanes }
      else if e.key = ascii "data" then
        decodeBase64 host e.value >>= fun ad => .ok { acc with ad := ad }
      else .ok acc := by
  exact parseField_split host acc e.key e.value e.key_clean.1

/-- What one accepted field was, and what the accumulators hold after it. -/
theorem Holds.step {fields : List Field} {acc out : PhcParams} (hacc : Holds fields acc)
    (e : Field) (h : parseField host acc e.text = .ok out) :
    (e.WellFormed ∧ DataFits host.width [e]) ∧ Holds (fields ++ [e]) out := by
  have hset (key : List UInt8) (hk : e.key = key) :
      lastValue key (fields ++ [e]) = some e.value := by rw [lastValue_concat, if_pos hk]
  have hkeep (key : List UInt8) (hk : e.key ≠ key) :
      lastValue key (fields ++ [e]) = lastValue key fields := by rw [lastValue_concat, if_neg hk]
  rw [parseField_text] at h
  by_cases hm : e.key = ascii "m"
  · rw [if_pos hm] at h
    obtain ⟨n, hn, h⟩ := (bind_ok_iff _ _ _).mp h
    cases h
    have hv := (parseParamU32_ok_iff _ n).mp hn
    have hdata : e.key ≠ ascii "data" := by rw [hm]; decide
    refine ⟨⟨Field.wellFormed_number hdata n hv, dataFits_other hdata⟩, ?_, ?_, ?_, ?_⟩
    · rw [hset _ hm, hv]
      rfl
    · rw [hkeep _ (by rw [hm]; decide), hacc.passes]
    · rw [hkeep _ (by rw [hm]; decide), hacc.lanes]
    · rw [hkeep _ hdata, hacc.ad]
  rw [if_neg hm] at h
  by_cases ht : e.key = ascii "t"
  · rw [if_pos ht] at h
    obtain ⟨n, hn, h⟩ := (bind_ok_iff _ _ _).mp h
    cases h
    have hv := (parseParamU32_ok_iff _ n).mp hn
    have hdata : e.key ≠ ascii "data" := by rw [ht]; decide
    refine ⟨⟨Field.wellFormed_number hdata n hv, dataFits_other hdata⟩, ?_, ?_, ?_, ?_⟩
    · rw [hkeep _ hm, hacc.memory]
    · rw [hset _ ht, hv]
      rfl
    · rw [hkeep _ (by rw [ht]; decide), hacc.lanes]
    · rw [hkeep _ hdata, hacc.ad]
  rw [if_neg ht] at h
  by_cases hp : e.key = ascii "p"
  · rw [if_pos hp] at h
    obtain ⟨n, hn, h⟩ := (bind_ok_iff _ _ _).mp h
    cases h
    have hv := (parseParamU32_ok_iff _ n).mp hn
    have hdata : e.key ≠ ascii "data" := by rw [hp]; decide
    refine ⟨⟨Field.wellFormed_number hdata n hv, dataFits_other hdata⟩, ?_, ?_, ?_, ?_⟩
    · rw [hkeep _ hm, hacc.memory]
    · rw [hkeep _ ht, hacc.passes]
    · rw [hset _ hp, hv]
      rfl
    · rw [hkeep _ hdata, hacc.ad]
  rw [if_neg hp] at h
  have hnumber : e.key ∉ [ascii "m", ascii "t", ascii "p"] := by
    simp only [List.mem_cons, List.not_mem_nil, or_false, not_or]
    exact ⟨hm, ht, hp⟩
  by_cases hdata : e.key = ascii "data"
  · rw [if_pos hdata] at h
    obtain ⟨ad, had, h⟩ := (bind_ok_iff _ _ _).mp h
    cases h
    obtain ⟨hv, hfits, -⟩ := (decodeBase64_ok_iff host _ ad).mp had
    refine ⟨⟨⟨fun hk => absurd hk hnumber, fun _ => ⟨ad, hv⟩⟩, ?_⟩, ?_, ?_, ?_, ?_⟩
    · intro f hf _
      rwa [List.mem_singleton.mp hf]
    · rw [hkeep _ hm, hacc.memory]
    · rw [hkeep _ ht, hacc.passes]
    · rw [hkeep _ hp, hacc.lanes]
    · rw [hset _ hdata, Option.getD_some, hv]
  · rw [if_neg hdata] at h
    cases h
    refine ⟨⟨⟨fun hk => absurd hk hnumber, fun hk => absurd hk hdata⟩, dataFits_other hdata⟩,
      ?_, ?_, ?_, ?_⟩
    · rw [hkeep _ hm, hacc.memory]
    · rw [hkeep _ ht, hacc.passes]
    · rw [hkeep _ hp, hacc.lanes]
    · rw [hkeep _ hdata, hacc.ad]

theorem exists_parseField (halloc : host.Allocates) (acc : PhcParams) (e : Field)
    (hw : e.WellFormed) (hfits : e.key = ascii "data" → e.value.length * 3 < 2 ^ host.width.bits) :
    ∃ out, parseField host acc e.text = .ok out := by
  have hnumber (hk : e.key ∈ [ascii "m", ascii "t", ascii "p"]) :
      ∃ n, parseParamU32 e.value = .ok n := by
    obtain ⟨n, hn⟩ := hw.number hk
    exact ⟨n, (parseParamU32_ok_iff _ n).mpr hn⟩
  rw [parseField_text]
  split_ifs with hm ht hp hdata
  · obtain ⟨n, hn⟩ := hnumber (by rw [hm]; decide)
    exact ⟨_, by rw [hn, ok_bind]⟩
  · obtain ⟨n, hn⟩ := hnumber (by rw [ht]; decide)
    exact ⟨_, by rw [hn, ok_bind]⟩
  · obtain ⟨n, hn⟩ := hnumber (by rw [hp]; decide)
    exact ⟨_, by rw [hn, ok_bind]⟩
  · obtain ⟨ad, had⟩ := hw.data hdata
    have hd := decodeBase64_text host halloc ad (by rw [← had]; exact hfits hdata)
    exact ⟨_, by rw [had, hd, ok_bind]⟩
  · exact ⟨acc, rfl⟩

theorem exists_foldFields (halloc : host.Allocates) (fields : List Field) (acc : PhcParams)
    (hwell : ∀ e ∈ fields, e.WellFormed) (hfits : DataFits host.width fields) :
    ∃ out, fields.foldlM (fun acc e => parseField host acc e.text) acc = .ok out := by
  induction fields generalizing acc with
  | nil => exact ⟨acc, rfl⟩
  | cons e fields ih =>
    obtain ⟨mid, hmid⟩ := exists_parseField host halloc acc e (hwell e List.mem_cons_self)
      (hfits e List.mem_cons_self)
    obtain ⟨out, hout⟩ := ih mid (fun f hf => hwell f (List.mem_cons_of_mem e hf))
      (fun f hf => hfits f (List.mem_cons_of_mem e hf))
    exact ⟨out, by rw [List.foldlM_cons, hmid, ok_bind, hout]⟩

theorem foldFields_holds (fields : List Field) (out : PhcParams)
    (h : fields.foldlM (fun acc e => parseField host acc e.text) ⟨none, none, none, []⟩ = .ok out) :
    (∀ e ∈ fields, e.WellFormed) ∧ DataFits host.width fields ∧ Holds fields out := by
  induction fields using List.reverseRecOn generalizing out with
  | nil =>
    cases h
    exact ⟨fun e he => (nomatch he), fun e he => (nomatch he), Holds.nil⟩
  | append_singleton fields e ih =>
    rw [List.foldlM_append, bind_ok_iff] at h
    obtain ⟨mid, hmid, hlast⟩ := h
    rw [List.foldlM_cons, bind_ok_iff] at hlast
    obtain ⟨out', hlast, ⟨⟩⟩ := hlast
    obtain ⟨hwell, hfits, hholds⟩ := ih mid hmid
    obtain ⟨⟨hw, hf⟩, hout⟩ := hholds.step host e hlast
    refine ⟨fun f hf' => ?_, fun f hf' => ?_, hout⟩
    · rcases List.mem_append.mp hf' with hmem | hmem
      · exact hwell f hmem
      · rwa [List.mem_singleton.mp hmem]
    · rcases List.mem_append.mp hf' with hmem | hmem
      · exact hfits f hmem
      · exact hf f hmem

theorem foldFields_ok_iff (halloc : host.Allocates) (fields : List Field) (out : PhcParams) :
    fields.foldlM (fun acc e => parseField host acc e.text) ⟨none, none, none, []⟩ = .ok out ↔
      (∀ e ∈ fields, e.WellFormed) ∧ DataFits host.width fields ∧ Holds fields out := by
  constructor
  · exact foldFields_holds host fields out
  · rintro ⟨hwell, hfits, hout⟩
    obtain ⟨out', h⟩ := exists_foldFields host halloc fields ⟨none, none, none, []⟩ hwell hfits
    rw [h, hout.unique (foldFields_holds host fields out' h).2.2]

end Values

section Acceptance

/-- `fields` are well formed, name all three numbers, and carry `r`. -/
structure Carry (fields : List Field) (r : UInt32 × UInt32 × UInt32 × List UInt8) : Prop where
  wellFormed : ∀ e ∈ fields, e.WellFormed
  holds : Holds fields ⟨some r.1, some r.2.1, some r.2.2.1, r.2.2.2⟩

theorem section_iff (src : List UInt8) (r : UInt32 × UInt32 × UInt32 × List UInt8) :
    Section src r ↔ ∃ fields : List Field, fields ≠ [] ∧ src = joinFields fields ∧
      Carry fields r := by
  refine exists_congr fun fields => and_congr_right fun _ => and_congr_right fun _ => ?_
  exact ⟨fun h => ⟨h.1, h.2.1, h.2.2.1, h.2.2.2.1, h.2.2.2.2⟩,
    fun h => ⟨h.1, h.2.memory, h.2.passes, h.2.lanes, h.2.ad⟩⟩

variable [Memchr] [LawfulMemchr] (host : Host)

/-- What `parse_phc_params` accepts, and with which values. -/
theorem parsePhcParams_ok_iff (halloc : host.Allocates) (src : List UInt8)
    (r : UInt32 × UInt32 × UInt32 × List UInt8) :
    parsePhcParams host src = .ok r ↔
      ∃ fields : List Field, fields ≠ [] ∧
        (src = joinFields fields ∨ src = joinFields fields ++ [comma]) ∧
        Carry fields r ∧ DataFits host.width fields := by
  rw [parsePhcParams_eq_ok, parseFields_ok_iff]
  refine exists_congr fun fields => and_congr_right fun _ => and_congr_right fun _ => ?_
  rw [foldFields_ok_iff host halloc]
  exact ⟨fun h => ⟨⟨h.1, h.2.2⟩, h.2.1⟩, fun h => ⟨h.1.1, h.2, h.1.2⟩⟩

def Sentence (src : List UInt8) : Prop := ∃ r, Section src r

/-- The data values of the section fit, whichever way it is written as fields. -/
def SectionFits (w : PointerWidth) (src : List UInt8) : Prop :=
  ∀ fields, fields ≠ [] → src = joinFields fields → DataFits w fields

/-- The parser decides the grammar at `src` exactly when `src` is not an accepted section
with one comma after it and, if it is in the grammar, its data values fit `usize`. -/
theorem parsePhcParams_grammar (halloc : host.Allocates) (src : List UInt8) :
    (∀ r, parsePhcParams host src = .ok r ↔ Section src r) ↔
      (∀ s, src = s ++ [comma] → Sentence s → ¬ SectionFits host.width s) ∧
        (Sentence src → SectionFits host.width src) := by
  constructor
  · intro h
    refine ⟨?_, ?_⟩
    · rintro s rfl ⟨r, hr⟩ hfits
      obtain ⟨fields, hne, rfl, hcarry⟩ := (section_iff s r).mp hr
      have hok := (parsePhcParams_ok_iff host halloc _ r).mpr
        ⟨fields, hne, Or.inr rfl, hcarry, hfits fields hne rfl⟩
      obtain ⟨fields', hne', hsrc, -⟩ := (section_iff _ r).mp ((h r).mp hok)
      exact joinFields_ne_trailing fields' _ hne' hsrc.symm
    · rintro ⟨r, hr⟩ fields hne hsrc
      obtain ⟨fields', hne', hsrc', -, hfits⟩ :=
        (parsePhcParams_ok_iff host halloc src r).mp ((h r).mpr hr)
      rcases hsrc' with hjoin | hjoin
      · rwa [joinFields_injective fields fields' hne hne' (hsrc.symm.trans hjoin)]
      · exact absurd (hsrc.symm.trans hjoin) (joinFields_ne_trailing fields _ hne)
  · rintro ⟨htrailing, hfits⟩ r
    constructor
    · intro hok
      obtain ⟨fields, hne, hsrc, hcarry, hdata⟩ := (parsePhcParams_ok_iff host halloc src r).mp hok
      rcases hsrc with hjoin | hjoin
      · exact (section_iff src r).mpr ⟨fields, hne, hjoin, hcarry⟩
      · refine absurd ?_ (htrailing _ hjoin ⟨r, (section_iff _ r).mpr ⟨fields, hne, rfl, hcarry⟩⟩)
        intro fields' hne' heq
        rwa [← joinFields_injective fields fields' hne hne' heq]
    · intro hr
      obtain ⟨fields, hne, hjoin, hcarry⟩ := (section_iff src r).mp hr
      exact (parsePhcParams_ok_iff host halloc src r).mpr
        ⟨fields, hne, Or.inl hjoin, hcarry, hfits ⟨r, hr⟩ fields hne hjoin⟩

end Acceptance

section Runs

local instance : Memchr := scan

local instance : LawfulMemchr := scan_lawful

theorem parsePhcParams_grammar_plain :
    (∀ r, parsePhcParams ⟨.bits64, .scalar, fun _ => true⟩ (ascii "m=8,t=1,p=1") = .ok r ↔
        Section (ascii "m=8,t=1,p=1") r) ↔
      (∀ s, ascii "m=8,t=1,p=1" = s ++ [comma] → Sentence s → ¬ SectionFits .bits64 s) ∧
        (Sentence (ascii "m=8,t=1,p=1") → SectionFits .bits64 (ascii "m=8,t=1,p=1")) :=
  parsePhcParams_grammar ⟨.bits64, .scalar, fun _ => true⟩ (fun _ _ => rfl) (ascii "m=8,t=1,p=1")

/-- A comma after the last field is accepted, though no section ends in one. -/
theorem parsePhcParams_trailing :
    parsePhcParams ⟨.bits64, .scalar, fun _ => true⟩ (ascii "m=8,t=1,p=1,") = .ok (8, 1, 1, []) ∧
      ¬ Section (ascii "m=8,t=1,p=1,") (8, 1, 1, []) := by
  have hdigit (n : ℕ) (hn : n < 10) (c : UInt8) (hc : digitByte n = c) : [c] = decimal n := by
    rw [decimal_of_lt n hn, hc]
  have h8 : ascii "8" = decimal (8 : UInt32).toNat := hdigit 8 (by decide) 56 (by decide)
  have h1 : ascii "1" = decimal (1 : UInt32).toNat := hdigit 1 (by decide) 49 (by decide)
  have hm : ascii "m" ≠ ascii "data" := by decide
  have ht : ascii "t" ≠ ascii "data" := by decide
  have hp : ascii "p" ≠ ascii "data" := by decide
  refine ⟨(parsePhcParams_ok_iff _ (fun _ _ => rfl) _ _).mpr
    ⟨[⟨ascii "m", ascii "8", by decide, by decide⟩, ⟨ascii "t", ascii "1", by decide, by decide⟩,
      ⟨ascii "p", ascii "1", by decide, by decide⟩], List.cons_ne_nil _ _, Or.inr (by decide),
      ⟨?_, ?_⟩, ?_⟩, ?_⟩
  · simp only [List.mem_cons, List.not_mem_nil, or_false]
    rintro e (rfl | rfl | rfl)
    · exact Field.wellFormed_number hm 8 h8
    · exact Field.wellFormed_number ht 1 h1
    · exact Field.wellFormed_number hp 1 h1
  · exact ⟨congrArg some h8, congrArg some h1, congrArg some h1, rfl⟩
  · simp only [DataFits, List.mem_cons, List.not_mem_nil, or_false]
    rintro e (rfl | rfl | rfl) hdata
    · exact absurd hdata hm
    · exact absurd hdata ht
    · exact absurd hdata hp
  · rintro ⟨fields, hne, hsrc, -⟩
    exact joinFields_ne_trailing fields (ascii "m=8,t=1,p=1") hne hsrc.symm

end Runs

end Argon2Rust.PhcGrammar
