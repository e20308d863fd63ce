import Argon2Rust.Base64Quads

set_option autoImplicit false

namespace Argon2Rust.Base64Neon
open Sextets (octet₁ octet₂ octet₃ octet₁_toNat octet₂_toNat octet₃_toNat)
open Base64 (text charOf sextetOf isAlphabet alphabet b64LenUsize)
open Base64Blocks ByteLanes Base64Quads

abbrev Uint8x8 := Register 8

section Instructions

/-- Byte `k` of each of the eight groups of `stride` bytes. -/
def strided (stride k : ℕ) (src : List UInt8) : Uint8x8 :=
  ofLanes fun l => src.getD (stride * l + k) 0

def vld3U8 (src : List UInt8) : Uint8x8 × Uint8x8 × Uint8x8 :=
  (strided 3 0 src, strided 3 1 src, strided 3 2 src)

def vld4U8 (src : List UInt8) : Uint8x8 × Uint8x8 × Uint8x8 × Uint8x8 :=
  (strided 4 0 src, strided 4 1 src, strided 4 2 src, strided 4 3 src)

def vst3U8 (x y z : Uint8x8) : List UInt8 :=
  (List.range 24).map fun i => lane (match i % 3 with | 0 => x | 1 => y | _ => z) (i / 3)

def vst4U8 (x y z w : Uint8x8) : List UInt8 :=
  (List.range 32).map fun i => lane (match i % 4 with | 0 => x | 1 => y | 2 => z | _ => w) (i / 4)

def vdupNU8 (b : UInt8) : Uint8x8 := splat b

def vaddU8 (x y : Uint8x8) : Uint8x8 := add x y

def vsubU8 (x y : Uint8x8) : Uint8x8 := sub x y

def vandU8 (x y : Uint8x8) : Uint8x8 := and x y

def vorrU8 (x y : Uint8x8) : Uint8x8 := or x y

def vshrNU8 (k : UInt8) (x : Uint8x8) : Uint8x8 := map (· >>> k) x

def vshlNU8 (k : UInt8) (x : Uint8x8) : Uint8x8 := map (· <<< k) x

def vcgeU8 (x y : Uint8x8) : Uint8x8 := maskGe x y

def vcleU8 (x y : Uint8x8) : Uint8x8 := maskLe x y

def vceqU8 (x y : Uint8x8) : Uint8x8 := maskEq x y

def vbslU8 (mask x y : Uint8x8) : Uint8x8 := select mask x y

def vminvU8 (x : Uint8x8) : UInt8 := UInt8.ofNat ((x.toList.map UInt8.toNat).foldl min 0xFF)

end Instructions

section Blocks

def encodeValues (x : Uint8x8) : Uint8x8 :=
  let out := vaddU8 x (vdupNU8 65)
  let out := vbslU8 (vcgeU8 x (vdupNU8 26)) (vaddU8 x (vdupNU8 (97 - 26))) out
  let out := vbslU8 (vcgeU8 x (vdupNU8 52)) (vsubU8 x (vdupNU8 (52 - 48))) out
  let out := vbslU8 (vceqU8 x (vdupNU8 62)) (vdupNU8 43) out
  vbslU8 (vceqU8 x (vdupNU8 63)) (vdupNU8 47) out

def encodeBlock (src : List UInt8) : List UInt8 :=
  let (a, b, c) := vld3U8 src
  let mask := vdupNU8 0x3F
  let x0 := vshrNU8 2 a
  let x1 := vandU8 (vorrU8 (vshlNU8 4 a) (vshrNU8 4 b)) mask
  let x2 := vandU8 (vorrU8 (vshlNU8 2 b) (vshrNU8 6 c)) mask
  let x3 := vandU8 c mask
  vst4U8 (encodeValues x0) (encodeValues x1) (encodeValues x2) (encodeValues x3)

def between (low high : UInt8) (x : Uint8x8) : Uint8x8 :=
  vandU8 (vcgeU8 x (vdupNU8 low)) (vcleU8 x (vdupNU8 high))

def decodeValues (x : Uint8x8) : Uint8x8 × Uint8x8 :=
  let upper := between 65 90 x
  let lower := between 97 122 x
  let digit := between 48 57 x
  let plus := vceqU8 x (vdupNU8 43)
  let slash := vceqU8 x (vdupNU8 47)
  let valid := vorrU8 (vorrU8 upper lower) (vorrU8 (vorrU8 digit plus) slash)
  let value := vandU8 upper (vsubU8 x (vdupNU8 65))
  let value := vbslU8 lower (vaddU8 (vsubU8 x (vdupNU8 97)) (vdupNU8 26)) value
  let value := vbslU8 digit (vaddU8 (vsubU8 x (vdupNU8 48)) (vdupNU8 52)) value
  let value := vbslU8 plus (vdupNU8 62) value
  let value := vbslU8 slash (vdupNU8 63) value
  (value, valid)

def decodeBlock (src : List UInt8) : Option (List (List UInt8)) :=
  let (in0, in1, in2, in3) := vld4U8 src
  let (a, va) := decodeValues in0
  let (b, vb) := decodeValues in1
  let (c, vc) := decodeValues in2
  let (d, vd) := decodeValues in3
  let valid := vandU8 (vandU8 va vb) (vandU8 vc vd)
  if vminvU8 valid ≠ 0xFF then none
  else
    some [vst3U8 (vorrU8 (vshlNU8 2 a) (vshrNU8 4 b)) (vorrU8 (vshlNU8 4 b) (vshrNU8 2 c))
      (vorrU8 (vshlNU8 6 c) d)]

def encodeKernel : EncodeKernel := .of24 encodeBlock

def decodeKernel : DecodeKernel := .of32 decodeBlock

def encode (dst src : List UInt8) : Option Progress := encodeWith src encodeKernel dst

def decode (dst src : List UInt8) : Option Progress := decodeWith src decodeKernel dst

end Blocks

def aarch64 : Target where
  minEncodeLen := 24
  minDecodeLen := 32
  encodePrefix backend dst src := match backend with
    | .neon => encode dst src
    | _ => some ⟨dst, 0, 0⟩
  decodePrefix backend dst src := match backend with
    | .neon => decode dst src
    | _ => some ⟨dst, 0, 0⟩

section Lanes

theorem range_getD (f : ℕ → UInt8) (n i : ℕ) (h : i < n) :
    ((List.range n).map f).getD i 0 = f i := by
  rw [List.getD_eq_getElem?_getD, List.getElem?_map, List.getElem?_range h]
  rfl

theorem vst4U8_quad (x y z w : Uint8x8) (j : ℕ) (h : j < 8) :
    listQuad (vst4U8 x y z w) j = ⟨lane x j, lane y j, lane z j, lane w j⟩ := by
  unfold listQuad vst4U8
  rw [range_getD _ _ _ (by omega), range_getD _ _ _ (by omega), range_getD _ _ _ (by omega),
    range_getD _ _ _ (by omega), show 4 * j % 4 = 0 by omega, show (4 * j + 1) % 4 = 1 by omega,
    show (4 * j + 2) % 4 = 2 by omega, show (4 * j + 3) % 4 = 3 by omega,
    show 4 * j / 4 = j by omega, show (4 * j + 1) / 4 = j by omega,
    show (4 * j + 2) / 4 = j by omega, show (4 * j + 3) / 4 = j by omega]
  rfl

theorem vst3U8_getD (x y z : Uint8x8) (j : ℕ) (h : j < 8) :
    (vst3U8 x y z).getD (3 * j) 0 = lane x j ∧ (vst3U8 x y z).getD (3 * j + 1) 0 = lane y j ∧
      (vst3U8 x y z).getD (3 * j + 2) 0 = lane z j := by
  unfold vst3U8
  rw [range_getD _ _ _ (by omega), range_getD _ _ _ (by omega), range_getD _ _ _ (by omega),
    show 3 * j % 3 = 0 by omega, show (3 * j + 1) % 3 = 1 by omega,
    show (3 * j + 2) % 3 = 2 by omega, show 3 * j / 3 = j by omega,
    show (3 * j + 1) / 3 = j by omega, show (3 * j + 2) / 3 = j by omega]
  exact ⟨rfl, rfl, rfl⟩

theorem le_foldl_min {m : ℕ} (values : List ℕ) (b : ℕ) (h : m ≤ values.foldl min b) :
    m ≤ b ∧ ∀ v ∈ values, m ≤ v := by
  induction values generalizing b with
  | nil => exact ⟨h, fun v hv => (List.not_mem_nil hv).elim⟩
  | cons c values ih =>
    obtain ⟨hmin, hrest⟩ := ih (min b c) h
    refine ⟨hmin.trans (min_le_left b c), fun v hv => ?_⟩
    rcases List.mem_cons.mp hv with rfl | hv
    · exact hmin.trans (min_le_right b v)
    · exact hrest v hv

theorem foldl_min_le (values : List ℕ) (b : ℕ) : values.foldl min b ≤ b :=
  (le_foldl_min values b le_rfl).1

theorem full_of_le {b : UInt8} (h : 255 ≤ b.toNat) : b = 0xFF := by
  have hb := b.toNat_lt
  apply UInt8.toNat_inj.mp
  change b.toNat = 255
  omega

theorem vminvU8_full (x : Uint8x8) (h : vminvU8 x = 0xFF) (l : ℕ) (hl : l < 8) :
    lane x l = 0xFF := by
  have hmin := congrArg UInt8.toNat h
  have hle := foldl_min_le (x.toList.map UInt8.toNat) 0xFF
  rw [vminvU8, ofNat_toNat, Nat.mod_eq_of_lt (by omega)] at hmin
  refine full_of_le ((le_foldl_min _ _ hmin.ge).2 _ (List.mem_map.mpr ⟨lane x l, ?_, rfl⟩))
  rw [lane, Vector.getElem?_eq_getElem hl, Option.getD_some, Vector.mem_toList_iff]
  exact Vector.getElem_mem hl

theorem and_full {a b : UInt8} (h : a &&& b = 0xFF) : a = 0xFF ∧ b = 0xFF := by
  have hleft : (a &&& b).toNat ≤ a.toNat := by
    rw [UInt8.toNat_and]
    exact Nat.and_le_left
  have hright : (a &&& b).toNat ≤ b.toNat := by
    rw [UInt8.toNat_and]
    exact Nat.and_le_right
  rw [h] at hleft hright
  exact ⟨full_of_le hleft, full_of_le hright⟩

end Lanes

section Encoding

def encodeByte (x : UInt8) : UInt8 :=
  selectByte (eqByte x 63) 47 (selectByte (eqByte x 62) 43
    (selectByte (geByte x 52) (x - (52 - 48)) (selectByte (geByte x 26) (x + (97 - 26)) (x + 65))))

theorem encodeByte_eq : ∀ v < 64, encodeByte (UInt8.ofNat v) = charOf v :=
  translates (by decide)

theorem lane_encodeValues (x : Uint8x8) {l : ℕ} (hl : l < 8) :
    lane (encodeValues x) l = encodeByte (lane x l) := by
  simp only [encodeValues, vbslU8, vcgeU8, vceqU8, vaddU8, vsubU8, vdupNU8, maskGe, maskEq,
    ByteLanes.add, ByteLanes.sub, lane_zip _ _ _ hl, lane_select _ _ _ hl, lane_splat _ hl]
  rfl

variable (a b c : UInt8)

theorem secondSextet : ((a <<< 4 ||| b >>> 4) &&& 0x3F) =
    UInt8.ofNat (a.toNat % 4 * 16 + b.toNat / 16) := by
  have hb := b.toNat_lt
  have hleft := shiftLeft_toNat a 4 (by omega)
  have hright := shiftRight_toNat b 4 (by omega)
  have hor := or_toNat (a <<< UInt8.ofNat 4) (b >>> UInt8.ofNat 4) 4 (by omega) (by omega)
  have hmask := and_field (a <<< UInt8.ofNat 4 ||| b >>> UInt8.ofNat 4) 0 6 (by omega)
  apply UInt8.toNat_inj.mp
  rw [ofNat_toNat]
  refine hmask.trans ?_
  omega

theorem thirdSextet : ((b <<< 2 ||| c >>> 6) &&& 0x3F) =
    UInt8.ofNat (b.toNat % 16 * 4 + c.toNat / 64) := by
  have hc := c.toNat_lt
  have hleft := shiftLeft_toNat b 2 (by omega)
  have hright := shiftRight_toNat c 6 (by omega)
  have hor := or_toNat (b <<< UInt8.ofNat 2) (c >>> UInt8.ofNat 6) 2 (by omega) (by omega)
  have hmask := and_field (b <<< UInt8.ofNat 2 ||| c >>> UInt8.ofNat 6) 0 6 (by omega)
  apply UInt8.toNat_inj.mp
  rw [ofNat_toNat]
  refine hmask.trans ?_
  omega

theorem sextetQuad_eq : sextetQuad a b c =
    ⟨a >>> 2, (a <<< 4 ||| b >>> 4) &&& 0x3F, (b <<< 2 ||| c >>> 6) &&& 0x3F, c &&& 0x3F⟩ := by
  have ha := a.toNat_lt
  have hfirst : (a >>> 2).toNat = a.toNat / 4 := shiftRight_toNat a 2 (by omega)
  have hfourth : (c &&& 0x3F).toNat = _ := and_field c 0 6 (by omega)
  rw [secondSextet, thirdSextet]
  refine Quad.ext ?_ rfl rfl ?_
  · apply UInt8.toNat_inj.mp
    change (UInt8.ofNat (a.toNat / 4)).toNat = (a >>> 2).toNat
    rw [hfirst, ofNat_toNat]
    omega
  · apply UInt8.toNat_inj.mp
    change (UInt8.ofNat (c.toNat % 64)).toNat = (c &&& 0x3F).toNat
    rw [hfourth, ofNat_toNat]
    omega

theorem lane_strided (stride k : ℕ) (src : List UInt8) {l : ℕ} (hl : l < 8) :
    lane (strided stride k src) l = src.getD (stride * l + k) 0 := lane_ofLanes _ hl

theorem encodeBlock_eq (src : List UInt8) (h : src.length = 24) :
    encodeBlock src = text (src.take 24) := by
  have hlen : (encodeBlock src).length = 4 * 8 := by
    simp [encodeBlock, vst4U8]
  refine encoded_text _ src 8 hlen (by omega) fun j hj => ?_
  rw [encodeBlock, vld3U8]
  dsimp only
  rw [vst4U8_quad _ _ _ _ j hj, lane_encodeValues _ hj, lane_encodeValues _ hj,
    lane_encodeValues _ hj, lane_encodeValues _ hj]
  rw [← map_sextetQuad encodeByte_eq, sextetQuad_eq, Quad.map]
  simp only [vandU8, vorrU8, vshlNU8, vshrNU8, vdupNU8, ByteLanes.and, ByteLanes.or,
    lane_zip _ _ _ hj, lane_map _ _ hj, lane_splat _ hj, lane_strided _ _ _ hj, Nat.add_zero]

theorem encodeKernel_lawful : encodeKernel.Lawful where
  groups := ⟨8, rfl⟩
  gives_eq := rfl
  block_eq := by
    dsimp only [encodeKernel, EncodeKernel.of24]
    exact encodeBlock_eq

end Encoding

section Decoding

def valueByte (c : UInt8) : UInt8 :=
  selectByte (eqByte c 47) 63 (selectByte (eqByte c 43) 62
    (selectByte (inRange 48 57 c) (c - 48 + 52) (selectByte (inRange 97 122 c) (c - 97 + 26)
      (inRange 65 90 c &&& (c - 65)))))

set_option maxRecDepth 2000 in
theorem decodeByte_eq (c : UInt8) (h : validByte c = 0xFF) :
    isAlphabet c = true ∧ (valueByte c).toNat = sextetOf c := by
  exact @reads_alphabet (fun c => validByte c = 0xFF) valueByte (by decide) c h

theorem lane_decodeValues (x : Uint8x8) {l : ℕ} (hl : l < 8) :
    lane (decodeValues x).1 l = valueByte (lane x l) ∧
      lane (decodeValues x).2 l = validByte (lane x l) := by
  simp only [decodeValues, between, vbslU8, vcgeU8, vcleU8, vceqU8, vaddU8, vsubU8, vdupNU8, vandU8,
    vorrU8, maskGe, maskLe, maskEq, ByteLanes.or, ByteLanes.and, ByteLanes.add, ByteLanes.sub,
    lane_zip _ _ _ hl, lane_select _ _ _ hl, lane_splat _ hl]
  exact ⟨rfl, rfl⟩

variable {p q r s : UInt8}

theorem octets_eq (hp : p.toNat < 64) (hr : r.toNat < 64) (hq : q.toNat < 64) (hs : s.toNat < 64) :
    octetQuad p.toNat q.toNat r.toNat s.toNat =
      ⟨r <<< 6 ||| s, q <<< 4 ||| r >>> 2, p <<< 2 ||| q >>> 4, 0⟩ := by
  have hp2 := shiftLeft_toNat p 2 (by omega)
  have hq4 := shiftRight_toNat q 4 (by omega)
  have hql := shiftLeft_toNat q 4 (by omega)
  have hr2 := shiftRight_toNat r 2 (by omega)
  have hr6 := shiftLeft_toNat r 6 (by omega)
  have hfirst := or_toNat (p <<< UInt8.ofNat 2) (q >>> UInt8.ofNat 4) 2 (by omega) (by omega)
  have hsecond := or_toNat (q <<< UInt8.ofNat 4) (r >>> UInt8.ofNat 2) 4 (by omega) (by omega)
  have hthird := or_toNat (r <<< UInt8.ofNat 6) s 6 (by omega) (by omega)
  refine Quad.ext ?_ ?_ ?_ rfl
  · refine UInt8.toNat_inj.mp ((octet₃_toNat _ _ hs).trans (Eq.trans ?_ hthird.symm))
    omega
  · refine UInt8.toNat_inj.mp ((octet₂_toNat _ _ hr).trans (Eq.trans ?_ hsecond.symm))
    omega
  · refine UInt8.toNat_inj.mp ((octet₁_toNat _ _ hp hq).trans (Eq.trans ?_ hfirst.symm))
    omega

theorem decodeBlock_eq (src : List UInt8) (output : List (List UInt8)) (hlen : src.length = 32)
    (h : decodeBlock src = some output) : text output.flatten = src := by
  unfold decodeBlock vld4U8 at h
  dsimp only at h
  rw [Option.ite_none_left_eq_some, not_not, Option.some.injEq] at h
  obtain ⟨hmin, rfl⟩ := h
  rw [List.flatten_singleton]
  have hquad : ∀ j < 8, ∀ k < 4, validByte (src.getD (4 * j + k) 0) = 0xFF := by
    intro j hj k hk
    have hand := vminvU8_full _ hmin j hj
    simp only [vandU8, ByteLanes.and, lane_zip _ _ _ hj, (lane_decodeValues _ hj).2,
      lane_strided _ _ _ hj] at hand
    obtain ⟨hab, hcd⟩ := and_full hand
    obtain ⟨ha, hb⟩ := and_full hab
    obtain ⟨hc, hd⟩ := and_full hcd
    interval_cases k
    · exact ha
    · exact hb
    · exact hc
    · exact hd
  have hvalid : ∀ l < 4 * 8, isAlphabet (src.getD l 0) = true ∧
      (valueByte (src.getD l 0)).toNat = sextetOf (src.getD l 0) := by
    intro l hl
    have hbyte := hquad (l / 4) (by omega) (l % 4) (Nat.mod_lt _ (by omega))
    rw [Nat.div_add_mod] at hbyte
    exact decodeByte_eq _ hbyte
  refine decoded_text _ src 8 (by simp [vst3U8]) hlen (fun l hl => (hvalid l hl).1) fun j hj => ?_
  obtain ⟨h₁, h₂, h₃⟩ := vst3U8_getD
    (vorrU8 (vshlNU8 2 (decodeValues (strided 4 0 src)).1)
      (vshrNU8 4 (decodeValues (strided 4 1 src)).1))
    (vorrU8 (vshlNU8 4 (decodeValues (strided 4 1 src)).1)
      (vshrNU8 2 (decodeValues (strided 4 2 src)).1))
    (vorrU8 (vshlNU8 6 (decodeValues (strided 4 2 src)).1) (decodeValues (strided 4 3 src)).1) j hj
  rw [← (hvalid _ (by omega)).2, ← (hvalid _ (by omega)).2, ← (hvalid _ (by omega)).2,
    ← (hvalid _ (by omega)).2, octets_eq (translated_lt (hvalid _ (by omega)))
    (translated_lt (hvalid _ (by omega))) (translated_lt (hvalid _ (by omega)))
    (translated_lt (hvalid _ (by omega))), h₁, h₂, h₃]
  simp only [vorrU8, vshlNU8, vshrNU8, ByteLanes.or, lane_zip _ _ _ hj, lane_map _ _ hj,
    (lane_decodeValues _ hj).1, lane_strided _ _ _ hj, Nat.add_zero]

theorem decodeKernel_lawful : decodeKernel.Lawful where
  groups := ⟨8, rfl⟩
  gives_eq := rfl
  block_eq := by
    dsimp only [decodeKernel, DecodeKernel.of32, DecodeKernel.of]
    exact decodeBlock_eq

end Decoding

section Prefixes

theorem aarch64_lawful : aarch64.Lawful where
  encode backend dst src hroom := by
    cases backend with
    | neon => exact encodeWith_encoded encodeKernel_lawful hroom
    | _ => exact ⟨_, rfl, encoded_start⟩
  decode backend dst src := by
    cases backend with
    | neon => exact decodeWith_decoded decodeKernel_lawful
    | _ => exact ⟨_, [], rfl, decoded_start⟩

/-- The NEON Base64 backend is the scalar codec: the same results, the same
destination bytes, and no access outside either buffer. -/
theorem neonBase64_eq_scalar (backend : Base64Backend) (dst src : List UInt8) :
    ∃ encoded decoded, toBase64Scalar dst src = some encoded ∧
      fromBase64Scalar dst src = some decoded ∧
      toBase64WithBackend dst src aarch64 backend = some encoded ∧
      toBase64 dst src aarch64 backend = some encoded ∧
      fromBase64WithBackend dst src aarch64 backend = some decoded ∧
      fromBase64 dst src aarch64 backend = some decoded := aarch64_lawful.exact dst src backend

end Prefixes

end Argon2Rust.Base64Neon
