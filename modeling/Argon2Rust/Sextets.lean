import Mathlib.Tactic

set_option autoImplicit false

namespace Argon2Rust.Sextets

def sextets : List UInt8 → List ℕ
  | [] => []
  | [a] => [a.toNat / 4, a.toNat % 4 * 16]
  | [a, b] => [a.toNat / 4, a.toNat % 4 * 16 + b.toNat / 16, b.toNat % 16 * 4]
  | a :: b :: c :: bytes =>
    a.toNat / 4 :: (a.toNat % 4 * 16 + b.toNat / 16) :: (b.toNat % 16 * 4 + c.toNat / 64) ::
      c.toNat % 64 :: sextets bytes

def octet₁ (p q : ℕ) : UInt8 := UInt8.ofNat (p * 4 + q / 16)
def octet₂ (q r : ℕ) : UInt8 := UInt8.ofNat (q % 16 * 16 + r / 4)
def octet₃ (r s : ℕ) : UInt8 := UInt8.ofNat (r % 4 * 64 + s)

def octets : List ℕ → Option (List UInt8)
  | [] => some []
  | [_] => none
  | [p, q] => if q % 16 = 0 then some [octet₁ p q] else none
  | [p, q, r] => if r % 4 = 0 then some [octet₁ p q, octet₂ q r] else none
  | p :: q :: r :: s :: values =>
    (octets values).map fun bytes => octet₁ p q :: octet₂ q r :: octet₃ r s :: bytes

theorem octet₁_toNat (p q : ℕ) (hp : p < 64) (hq : q < 64) :
    (octet₁ p q).toNat = p * 4 + q / 16 := UInt8.toNat_ofNat_of_lt' (by change _ < 256; omega)

theorem octet₂_toNat (q r : ℕ) (hr : r < 64) :
    (octet₂ q r).toNat = q % 16 * 16 + r / 4 :=
  UInt8.toNat_ofNat_of_lt' (by change _ < 256; omega)

theorem octet₃_toNat (r s : ℕ) (hs : s < 64) :
    (octet₃ r s).toNat = r % 4 * 64 + s := UInt8.toNat_ofNat_of_lt' (by change _ < 256; omega)

theorem sextets_lt (bytes : List UInt8) : ∀ v ∈ sextets bytes, v < 64 := by
  induction bytes using sextets.induct with
  | case1 => simp [sextets]
  | case2 a =>
    have ha := a.toNat_lt
    simp only [sextets, List.mem_cons, List.not_mem_nil, or_false]
    rintro v (rfl | rfl) <;> omega
  | case3 a b =>
    have ha := a.toNat_lt
    have hb := b.toNat_lt
    simp only [sextets, List.mem_cons, List.not_mem_nil, or_false]
    rintro v (rfl | rfl | rfl) <;> omega
  | case4 a b c bytes ih =>
    have ha := a.toNat_lt
    have hb := b.toNat_lt
    have hc := c.toNat_lt
    simp only [sextets, List.mem_cons]
    rintro v (rfl | rfl | rfl | rfl | h)
    · omega
    · omega
    · omega
    · omega
    · exact ih v h

def encodedLength (n : ℕ) : ℕ := (4 * n + 2) / 3

theorem sextets_length (bytes : List UInt8) :
    (sextets bytes).length = encodedLength bytes.length := by
  induction bytes using sextets.induct with
  | case1 => rfl
  | case2 a => simp [sextets, encodedLength]
  | case3 a b => simp [sextets, encodedLength]
  | case4 a b c bytes ih =>
    simp only [sextets, List.length_cons, ih]
    unfold encodedLength
    omega

theorem octets_sextets (bytes : List UInt8) : octets (sextets bytes) = some bytes := by
  induction bytes using sextets.induct with
  | case1 => rfl
  | case2 a =>
    have ha := a.toNat_lt
    have h₁ : octet₁ (a.toNat / 4) (a.toNat % 4 * 16) = a :=
      UInt8.toNat_inj.mp (by rw [octet₁_toNat _ _ (by omega) (by omega)]; omega)
    rw [sextets, octets, if_pos (by omega), h₁]
  | case3 a b =>
    have ha := a.toNat_lt
    have hb := b.toNat_lt
    have h₁ : octet₁ (a.toNat / 4) (a.toNat % 4 * 16 + b.toNat / 16) = a :=
      UInt8.toNat_inj.mp (by rw [octet₁_toNat _ _ (by omega) (by omega)]; omega)
    have h₂ : octet₂ (a.toNat % 4 * 16 + b.toNat / 16) (b.toNat % 16 * 4) = b :=
      UInt8.toNat_inj.mp (by rw [octet₂_toNat _ _ (by omega)]; omega)
    rw [sextets, octets, if_pos (by omega), h₁, h₂]
  | case4 a b c bytes ih =>
    have ha := a.toNat_lt
    have hb := b.toNat_lt
    have hc := c.toNat_lt
    have h₁ : octet₁ (a.toNat / 4) (a.toNat % 4 * 16 + b.toNat / 16) = a :=
      UInt8.toNat_inj.mp (by rw [octet₁_toNat _ _ (by omega) (by omega)]; omega)
    have h₂ : octet₂ (a.toNat % 4 * 16 + b.toNat / 16) (b.toNat % 16 * 4 + c.toNat / 64) = b :=
      UInt8.toNat_inj.mp (by rw [octet₂_toNat _ _ (by omega)]; omega)
    have h₃ : octet₃ (b.toNat % 16 * 4 + c.toNat / 64) (c.toNat % 64) = c :=
      UInt8.toNat_inj.mp (by rw [octet₃_toNat _ _ (by omega)]; omega)
    rw [sextets, octets, ih, Option.map_some, h₁, h₂, h₃]

theorem octets_group (a b c : UInt8) :
    [octet₁ (a.toNat / 4) (a.toNat % 4 * 16 + b.toNat / 16),
      octet₂ (a.toNat % 4 * 16 + b.toNat / 16) (b.toNat % 16 * 4 + c.toNat / 64),
      octet₃ (b.toNat % 16 * 4 + c.toNat / 64) (c.toNat % 64)] = [a, b, c] :=
  Option.some.inj (octets_sextets [a, b, c])

/-- Whatever `octets` accepts is the regrouping of its result. -/
theorem sextets_of_octets (values : List ℕ) (bytes : List UInt8) (hlt : ∀ v ∈ values, v < 64)
    (h : octets values = some bytes) : sextets bytes = values := by
  induction values using octets.induct generalizing bytes with
  | case1 =>
    rw [octets, Option.some.injEq] at h
    rw [← h]
    rfl
  | case2 v => cases h
  | case3 p q hq =>
    have hpl := hlt p (by simp)
    have hql := hlt q (by simp)
    rw [octets, if_pos hq, Option.some.injEq] at h
    rw [← h, sextets, octet₁_toNat p q hpl hql]
    congr 1
    · omega
    · congr 1
      omega
  | case4 p q hq =>
    rw [octets, if_neg hq] at h
    cases h
  | case5 p q r hr =>
    have hpl := hlt p (by simp)
    have hql := hlt q (by simp)
    have hrl := hlt r (by simp)
    rw [octets, if_pos hr, Option.some.injEq] at h
    rw [← h, sextets, octet₁_toNat p q hpl hql, octet₂_toNat q r hrl]
    congr 1
    · omega
    · congr 1
      · omega
      · congr 1
        omega
  | case6 p q r hr =>
    rw [octets, if_neg hr] at h
    cases h
  | case7 p q r s values ih =>
    have hpl := hlt p (by simp)
    have hql := hlt q (by simp)
    have hrl := hlt r (by simp)
    have hsl := hlt s (by simp)
    rw [octets, Option.map_eq_some_iff] at h
    obtain ⟨tail, htail, rfl⟩ := h
    have hrest := ih tail (fun v hv => hlt v (by simp [hv])) htail
    rw [sextets, hrest, octet₁_toNat p q hpl hql, octet₂_toNat q r hrl, octet₃_toNat r s hsl]
    congr 1
    · omega
    · congr 1
      · omega
      · congr 1
        · omega
        · congr 1
          omega

/-- Whole groups of three bytes can be regrouped on their own. -/
theorem sextets_append (xs ys : List UInt8) (h : 3 ∣ xs.length) :
    sextets (xs ++ ys) = sextets xs ++ sextets ys := by
  induction xs using sextets.induct with
  | case1 => rfl
  | case2 a => simp at h
  | case3 a b => simp at h
  | case4 a b c xs ih =>
    have hlen : 3 ∣ xs.length := by
      simp only [List.length_cons] at h
      omega
    simp only [List.cons_append, sextets, ih hlen]

end Argon2Rust.Sextets
