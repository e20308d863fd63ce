import Mathlib.Data.List.GetD
import Argon2Rust.Base64Blocks
import Argon2Rust.ByteLanes

set_option autoImplicit false

namespace Argon2Rust.Base64Quads
open Sextets Base64 Base64Blocks ByteLanes

def listQuad (l : List UInt8) (j : ℕ) : Quad :=
  ⟨l.getD (4 * j) 0, l.getD (4 * j + 1) 0, l.getD (4 * j + 2) 0, l.getD (4 * j + 3) 0⟩

def sextetQuad (a b c : UInt8) : Quad :=
  ⟨UInt8.ofNat (a.toNat / 4), UInt8.ofNat (a.toNat % 4 * 16 + b.toNat / 16),
    UInt8.ofNat (b.toNat % 16 * 4 + c.toNat / 64), UInt8.ofNat (c.toNat % 64)⟩

def charQuad (a b c : UInt8) : Quad :=
  ⟨charOf (a.toNat / 4), charOf (a.toNat % 4 * 16 + b.toNat / 16),
    charOf (b.toNat % 16 * 4 + c.toNat / 64), charOf (c.toNat % 64)⟩

/-- The three bytes of four sextets, the last one lowest. -/
def octetQuad (p q r s : ℕ) : Quad := ⟨octet₃ r s, octet₂ q r, octet₁ p q, 0⟩

def inRange (low high c : UInt8) : UInt8 := geByte c low &&& leByte c high

def validByte (c : UInt8) : UInt8 :=
  (inRange 65 90 c ||| inRange 97 122 c) ||| ((inRange 48 57 c ||| eqByte c 43) ||| eqByte c 47)

section Bytes

theorem translates {encode : UInt8 → UInt8}
    (h : ∀ v < 64, (encode (UInt8.ofNat v)).toNat = charValue v) (v : ℕ) (hv : v < 64) :
    encode (UInt8.ofNat v) = charOf v := by
  apply UInt8.toNat_inj.mp
  rw [h v hv, charOf_toNat v hv]

/-- A byte-wise decoder that is right on the bytes it accepts reads the alphabet. -/
theorem reads_alphabet {accepts : UInt8 → Prop} {decode : UInt8 → UInt8}
    (h : ∀ v < 256, accepts (UInt8.ofNat v) →
      sextetValue v ≠ 255 ∧ (decode (UInt8.ofNat v)).toNat = sextetValue v)
    (c : UInt8) (hc : accepts c) : isAlphabet c = true ∧ (decode c).toNat = sextetOf c := by
  have hbyte := h c.toNat c.toNat_lt
  rw [UInt8.ofNat_toNat] at hbyte
  rw [isAlphabet_iff, sextetOf_toNat]
  exact hbyte hc

end Bytes

section Text

theorem listQuad_toList {n : ℕ} (x : Register n) (j : ℕ) : listQuad x.toList j = quad x j := by
  unfold listQuad quad
  rw [toList_getD, toList_getD, toList_getD, toList_getD]

theorem map_sextetQuad {f : UInt8 → UInt8} (hf : ∀ v < 64, f (UInt8.ofNat v) = charOf v)
    (a b c : UInt8) : (sextetQuad a b c).map f = charQuad a b c := by
  have ha := a.toNat_lt
  have hb := b.toNat_lt
  have hc := c.toNat_lt
  unfold sextetQuad Quad.map charQuad
  rw [hf _ (by omega), hf _ (by omega), hf _ (by omega), hf _ (by omega)]

theorem listQuad_succ (p q r s : UInt8) (l : List UInt8) (j : ℕ) :
    listQuad (p :: q :: r :: s :: l) (j + 1) = listQuad l j := by
  unfold listQuad
  rw [show 4 * (j + 1) = 4 * j + 4 by omega]
  rfl

theorem getD_group (a b c : UInt8) (l : List UInt8) (i : ℕ) :
    (a :: b :: c :: l).getD (i + 3) 0 = l.getD i 0 := rfl

/-- A list is a text as soon as each of its quads is the text of its three bytes. -/
theorem text_of_quads (out bytes : List UInt8) (m : ℕ) (hout : out.length = 4 * m)
    (hbytes : bytes.length = 3 * m)
    (h : ∀ j < m, listQuad out j =
      charQuad (bytes.getD (3 * j) 0) (bytes.getD (3 * j + 1) 0) (bytes.getD (3 * j + 2) 0)) :
    out = text bytes := by
  induction m generalizing out bytes with
  | zero =>
    rw [List.length_eq_zero_iff.mp hout, List.length_eq_zero_iff.mp hbytes]
    rfl
  | succ m ih =>
    match bytes, out with
    | a :: b :: c :: bytes, p :: q :: r :: s :: out =>
      have hfirst := h 0 (by omega)
      have hrest := ih out bytes (by simp only [List.length_cons] at hout; omega)
        (by simp only [List.length_cons] at hbytes; omega) (fun j hj => by
          have hnext := h (j + 1) (by omega)
          rw [listQuad_succ, show 3 * (j + 1) = 3 * j + 3 by omega,
            show 3 * j + 3 + 1 = 3 * j + 1 + 3 by omega,
            show 3 * j + 3 + 2 = 3 * j + 2 + 3 by omega, getD_group, getD_group, getD_group]
            at hnext
          exact hnext)
      change Quad.mk p q r s = charQuad a b c at hfirst
      rw [charQuad, Quad.mk.injEq] at hfirst
      obtain ⟨hp, hq, hr, hs⟩ := hfirst
      rw [text_group, hp, hq, hr, hs, hrest]
    | [], _ => simp only [List.length_nil] at hbytes; omega
    | [_], _ => simp only [List.length_cons, List.length_nil] at hbytes; omega
    | [_, _], _ => simp only [List.length_cons, List.length_nil] at hbytes; omega
    | _, [] => simp only [List.length_nil] at hout; omega
    | _, [_] => simp only [List.length_cons, List.length_nil] at hout; omega
    | _, [_, _] => simp only [List.length_cons, List.length_nil] at hout; omega
    | _, [_, _, _] => simp only [List.length_cons, List.length_nil] at hout; omega

theorem getD_take (l : List UInt8) (k i : ℕ) (h : i < k) : (l.take k).getD i 0 = l.getD i 0 := by
  rw [List.getD_eq_getElem?_getD, List.getD_eq_getElem?_getD, List.getElem?_take_of_lt h]

theorem encoded_text (out input : List UInt8) (m : ℕ) (hout : out.length = 4 * m)
    (hinput : 3 * m ≤ input.length)
    (h : ∀ j < m, listQuad out j =
      charQuad (input.getD (3 * j) 0) (input.getD (3 * j + 1) 0) (input.getD (3 * j + 2) 0)) :
    out = text (input.take (3 * m)) := by
  refine text_of_quads out _ m hout (List.length_take_of_le hinput) fun j hj => ?_
  rw [getD_take _ _ _ (by omega), getD_take _ _ _ (by omega), getD_take _ _ _ (by omega)]
  exact h j hj

theorem charQuad_octets {c₀ c₁ c₂ c₃ : UInt8} (h₀ : isAlphabet c₀ = true)
    (h₁ : isAlphabet c₁ = true) (h₂ : isAlphabet c₂ = true) (h₃ : isAlphabet c₃ = true) :
    charQuad (octet₁ (sextetOf c₀) (sextetOf c₁)) (octet₂ (sextetOf c₁) (sextetOf c₂))
      (octet₃ (sextetOf c₂) (sextetOf c₃)) = ⟨c₀, c₁, c₂, c₃⟩ := by
  obtain ⟨hlt₀, hc₀⟩ := alphabet c₀ h₀
  obtain ⟨hlt₁, hc₁⟩ := alphabet c₁ h₁
  obtain ⟨hlt₂, hc₂⟩ := alphabet c₂ h₂
  obtain ⟨hlt₃, hc₃⟩ := alphabet c₃ h₃
  unfold charQuad
  rw [octet₁_toNat _ _ hlt₀ hlt₁, octet₂_toNat _ _ hlt₂, octet₃_toNat _ _ hlt₃]
  refine Quad.ext ?_ ?_ ?_ ?_
  · refine (congrArg charOf ?_).trans hc₀
    omega
  · refine (congrArg charOf ?_).trans hc₁
    omega
  · refine (congrArg charOf ?_).trans hc₂
    omega
  · refine (congrArg charOf ?_).trans hc₃
    omega

theorem decoded_text (out input : List UInt8) (m : ℕ) (hout : out.length = 3 * m)
    (hinput : input.length = 4 * m) (hvalid : ∀ l < 4 * m, isAlphabet (input.getD l 0) = true)
    (h : ∀ j < m, octetQuad (sextetOf (input.getD (4 * j) 0)) (sextetOf (input.getD (4 * j + 1) 0))
        (sextetOf (input.getD (4 * j + 2) 0)) (sextetOf (input.getD (4 * j + 3) 0)) =
      ⟨out.getD (3 * j + 2) 0, out.getD (3 * j + 1) 0, out.getD (3 * j) 0, 0⟩) :
    text out = input := by
  refine (text_of_quads input out m hinput hout fun j hj => ?_).symm
  have hquad := h j hj
  rw [octetQuad, Quad.mk.injEq] at hquad
  obtain ⟨h₃, h₂, h₁, -⟩ := hquad
  rw [← h₁, ← h₂, ← h₃, charQuad_octets (hvalid _ (by omega)) (hvalid _ (by omega))
    (hvalid _ (by omega)) (hvalid _ (by omega))]
  rfl

theorem translated_lt {c v : UInt8} (h : isAlphabet c = true ∧ v.toNat = sextetOf c) :
    v.toNat < 64 := by
  rw [h.2]
  exact (alphabet c h.1).1

/-- A decoder's output, out of the register that its quads were merged in. -/
theorem merged_text {n m : ℕ} {values merged : Register n} {out input : List UInt8}
    (hout : out.length = 3 * m) (hinput : input.length = 4 * m)
    (hlane : ∀ l < 4 * m, isAlphabet (input.getD l 0) = true ∧
      (lane values l).toNat = sextetOf (input.getD l 0))
    (hmerged : ∀ j < m, quad merged j = octetQuad (lane values (4 * j)).toNat
      (lane values (4 * j + 1)).toNat (lane values (4 * j + 2)).toNat
      (lane values (4 * j + 3)).toNat)
    (hlanes : ∀ l < 3 * m, out.getD l 0 = lane merged (4 * (l / 3) + 2 - l % 3)) :
    text out = input := by
  refine decoded_text out input m hout hinput (fun l hl => (hlane l hl).1) fun j hj => ?_
  have hquad := hmerged j hj
  rw [hlanes _ (by omega), hlanes _ (by omega), hlanes _ (by omega),
    show 4 * ((3 * j + 2) / 3) + 2 - (3 * j + 2) % 3 = 4 * j by omega,
    show 4 * ((3 * j + 1) / 3) + 2 - (3 * j + 1) % 3 = 4 * j + 1 by omega,
    show 4 * (3 * j / 3) + 2 - 3 * j % 3 = 4 * j + 2 by omega, ← (hlane _ (by omega)).2,
    ← (hlane _ (by omega)).2, ← (hlane _ (by omega)).2, ← (hlane _ (by omega)).2]
  rw [quad, octetQuad, Quad.mk.injEq] at hquad
  obtain ⟨h₀, h₁, h₂, -⟩ := hquad
  rw [h₀, h₁, h₂]
  rfl

end Text

section Fields
variable (a b c : UInt8)

-- The words of a reshuffled group: `b` below `a`, then `c` below `b`.
theorem firstField : (b &&& 0).toNat + (a &&& 0xFC).toNat * 2 ^ 8 = a.toNat / 4 * 2 ^ 10 := by
  have ha := a.toNat_lt
  have hmask : (a &&& 0xFC).toNat = _ := and_field a 2 6 (by omega)
  rw [hmask, UInt8.and_zero, UInt8.toNat_zero]
  omega

theorem secondField :
    (b &&& 0xF0).toNat + (a &&& 0x03).toNat * 2 ^ 8 = (a.toNat % 4 * 16 + b.toNat / 16) * 2 ^ 4 := by
  have hb := b.toNat_lt
  have hlow : (b &&& 0xF0).toNat = _ := and_field b 4 4 (by omega)
  have hhigh : (a &&& 0x03).toNat = _ := and_field a 0 2 (by omega)
  rw [hlow, hhigh]
  omega

theorem thirdField :
    (c &&& 0xC0).toNat + (b &&& 0x0F).toNat * 2 ^ 8 = (b.toNat % 16 * 4 + c.toNat / 64) * 2 ^ 6 := by
  have hc := c.toNat_lt
  have hlow : (c &&& 0xC0).toNat = _ := and_field c 6 2 (by omega)
  have hhigh : (b &&& 0x0F).toNat = _ := and_field b 0 4 (by omega)
  rw [hlow, hhigh]
  omega

theorem fourthField : (c &&& 0x3F).toNat + (b &&& 0).toNat * 2 ^ 8 = c.toNat % 64 := by
  have hmask : (c &&& 0x3F).toNat = _ := and_field c 0 6 (by omega)
  rw [hmask, UInt8.and_zero, UInt8.toNat_zero]
  omega

theorem noField : (b &&& 0).toNat + (a &&& 0).toNat * 2 ^ 8 = 0 := by
  rw [UInt8.and_zero, UInt8.and_zero]
  rfl

theorem or_ofWords (p q r s : ℕ) (hp : p < 2 ^ 8) (hr : r < 2 ^ 8) :
    (Quad.ofWords p r).zip (· ||| ·) (Quad.ofWords (q * 2 ^ 8) (s * 2 ^ 8)) =
      ⟨UInt8.ofNat p, UInt8.ofNat q, UInt8.ofNat r, UInt8.ofNat s⟩ := by
  have hzero : ∀ v : ℕ, UInt8.ofNat (v * 2 ^ 8) = 0 := by
    intro v
    apply UInt8.toNat_inj.mp
    rw [ofNat_toNat, Nat.mul_mod_left]
    rfl
  unfold Quad.ofWords Quad.zip
  dsimp only
  rw [hzero, hzero, Nat.div_eq_of_lt hp, Nat.div_eq_of_lt hr,
    Nat.mul_div_cancel _ (by omega), Nat.mul_div_cancel _ (by omega), UInt8.or_zero,
    UInt8.or_zero]
  refine Quad.ext rfl ?_ rfl ?_
  · exact UInt8.zero_or
  · exact UInt8.zero_or

theorem ofValue_octets (p q r s : ℕ) (hp : p < 64) (hq : q < 64) (hr : r < 64) (hs : s < 64) :
    Quad.ofValue ((p * 64 + q) * 2 ^ 12 + (r * 64 + s)) = octetQuad p q r s := by
  unfold Quad.ofValue Quad.ofWords octetQuad
  refine Quad.ext ?_ ?_ ?_ ?_
  · apply UInt8.toNat_inj.mp
    rw [octet₃_toNat r s hs, ofNat_toNat]
    omega
  · apply UInt8.toNat_inj.mp
    rw [octet₂_toNat q r hr, ofNat_toNat]
    omega
  · apply UInt8.toNat_inj.mp
    rw [octet₁_toNat p q hp hq, ofNat_toNat]
    omega
  · apply UInt8.toNat_inj.mp
    rw [ofNat_toNat, UInt8.toNat_zero]
    omega

end Fields

end Argon2Rust.Base64Quads
