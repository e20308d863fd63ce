import Argon2Rust.Base64Quads

set_option autoImplicit false

namespace Argon2Rust.Base64Wasm
open Sextets (octet₁ octet₂ octet₃ octet₁_toNat octet₂_toNat octet₃_toNat)
open Base64 (text charOf sextetOf isAlphabet alphabet b64LenUsize)
open Base64Blocks ByteLanes Base64Quads

abbrev V128 := Register 16

section Instructions

def v128Load (bytes : List UInt8) : V128 := ofBytes bytes

def v128Store (x : V128) : List UInt8 := x.toList

def u8x16Splat (b : UInt8) : V128 := splat b

def i32x4SplatLe (b0 b1 b2 b3 : UInt8) : V128 := ofDwords fun _ => (Quad.mk b0 b1 b2 b3).value

def v128And (x y : V128) : V128 := and x y

def v128Or (x y : V128) : V128 := or x y

/-- An index outside the register clears the lane. -/
def u8x16Swizzle (x index : V128) : V128 :=
  ofLanes fun l =>
    let i := (lane index l).toNat
    if i < 16 then lane x i else 0

def u16x8Shr (x : V128) (k : ℕ) : V128 := ofWords fun j => word x j / 2 ^ k

def u16x8Shl (x : V128) (k : ℕ) : V128 := ofWords fun j => word x j * 2 ^ k % 2 ^ 16

def u32x4Shr (x : V128) (k : ℕ) : V128 := ofDwords fun j => dword x j / 2 ^ k

def u32x4Shl (x : V128) (k : ℕ) : V128 := ofDwords fun j => dword x j * 2 ^ k % 2 ^ 32

def u8x16SubSat (x y : V128) : V128 := zip (fun a b => UInt8.ofNat (a.toNat - b.toNat)) x y

def i8x16Lt (x y : V128) : V128 :=
  zip (fun a b => if a.toInt8.toInt < b.toInt8.toInt then 0xFF else 0) x y

def u8x16Ge (x y : V128) : V128 := maskGe x y

def u8x16Le (x y : V128) : V128 := maskLe x y

def u8x16Eq (x y : V128) : V128 := maskEq x y

def u8x16Add (x y : V128) : V128 := add x y

def u8x16Sub (x y : V128) : V128 := sub x y

def v128Bitselect (x y mask : V128) : V128 := select mask x y

def i8x16Bitmask (x : V128) : ℕ := topBits x

end Instructions

section Blocks

def splitShuffle : List UInt8 := [1, 0, 2, 1, 4, 3, 5, 4, 7, 6, 8, 7, 10, 9, 11, 10]

def encodeShift : List UInt8 :=
  [97 - 26, 48 - 52, 48 - 52, 48 - 52, 48 - 52, 48 - 52, 48 - 52, 48 - 52, 48 - 52, 48 - 52,
    48 - 52, 43 - 62, 47 - 63, 65, 0x80, 0x80]

def splitBits (input : V128) : V128 :=
  let input := u8x16Swizzle input (v128Load splitShuffle)
  let a := u16x8Shr (v128And input (i32x4SplatLe 0x00 0xFC 0x00 0x00)) 10
  let b := u16x8Shl (v128And input (i32x4SplatLe 0xF0 0x03 0x00 0x00)) 4
  let c := u16x8Shr (v128And input (i32x4SplatLe 0x00 0x00 0xC0 0x0F)) 6
  let d := u16x8Shl (v128And input (i32x4SplatLe 0x00 0x00 0x3F 0x00)) 8
  v128Or (v128Or a b) (v128Or c d)

def encodeValues (input : V128) : V128 :=
  let ranges := u8x16SubSat input (u8x16Splat 51)
  let upper := v128And (i8x16Lt input (u8x16Splat 26)) (u8x16Splat 13)
  let indices := v128Or ranges upper
  let shift := u8x16Swizzle (v128Load encodeShift) indices
  u8x16Add input shift

def encodeBlock (src : List UInt8) : List UInt8 :=
  v128Store (encodeValues (splitBits (v128Load src)))

def between (low high : UInt8) (input : V128) : V128 :=
  v128And (u8x16Ge input (u8x16Splat low)) (u8x16Le input (u8x16Splat high))

def decodeValues (input : V128) : Option V128 :=
  let upper := between 65 90 input
  let lower := between 97 122 input
  let digit := between 48 57 input
  let plus := u8x16Eq input (u8x16Splat 43)
  let slash := u8x16Eq input (u8x16Splat 47)
  let valid := v128Or (v128Or upper lower) (v128Or (v128Or digit plus) slash)
  if i8x16Bitmask valid ≠ 0xFFFF then none
  else
    let zero := u8x16Splat 0
    let value := v128Bitselect (u8x16Sub input (u8x16Splat 65)) zero upper
    let value := v128Bitselect (u8x16Add (u8x16Sub input (u8x16Splat 97)) (u8x16Splat 26)) value lower
    let value := v128Bitselect (u8x16Add (u8x16Sub input (u8x16Splat 48)) (u8x16Splat 52)) value digit
    let value := v128Bitselect (u8x16Splat 62) value plus
    let value := v128Bitselect (u8x16Splat 63) value slash
    some value

def mergeShuffle : List UInt8 :=
  [2, 1, 0, 6, 5, 4, 10, 9, 8, 14, 13, 12, 0x80, 0x80, 0x80, 0x80]

/-- `merge_bits` before its swizzle. -/
def merged (input : V128) : V128 :=
  let odd := v128And input (i32x4SplatLe 0x3F 0 0x3F 0)
  let even := v128And input (i32x4SplatLe 0 0x3F 0 0x3F)
  let odd := v128Or (u32x4Shl odd 18) (u32x4Shr odd 10)
  let even := v128Or (u32x4Shl even 4) (u32x4Shr even 24)
  v128And (v128Or odd even) (i32x4SplatLe 0xFF 0xFF 0xFF 0)

def mergeBits (input : V128) : V128 := u8x16Swizzle (merged input) (v128Load mergeShuffle)

/-- Twelve of the sixteen bytes are copied out. -/
def decodeBlock (src : List UInt8) : Option (List (List UInt8)) :=
  (decodeValues (v128Load src)).map fun values => [(v128Store (mergeBits values)).take 12]

def encodeKernel : EncodeKernel := .of16 encodeBlock

def decodeKernel : DecodeKernel := .of16 decodeBlock

def encode (dst src : List UInt8) : Option Progress := encodeWith src encodeKernel dst

def decode (dst src : List UInt8) : Option Progress := decodeWith src decodeKernel dst

end Blocks

def wasm32 : Target where
  minEncodeLen := 16
  minDecodeLen := 16
  encodePrefix backend dst src := match backend with
    | .wasm128 => encode dst src
    | _ => some ⟨dst, 0, 0⟩
  decodePrefix backend dst src := match backend with
    | .wasm128 => decode dst src
    | _ => some ⟨dst, 0, 0⟩

section Lanes

theorem lane_u8x16Swizzle (x : V128) {table : List UInt8} {l i : ℕ} (hl : l < 16)
    (h : (table.getD l 0).toNat = i) (hi : i < 16) :
    lane (u8x16Swizzle x (v128Load table)) l = lane x i := by
  unfold u8x16Swizzle v128Load
  rw [lane_ofLanes _ hl]
  dsimp only
  rw [lane_ofBytes _ hl, h, if_pos hi]

variable {j : ℕ}

theorem quad_i32x4SplatLe (h : 4 * j + 4 ≤ 16) (b0 b1 b2 b3 : UInt8) :
    quad (i32x4SplatLe b0 b1 b2 b3) j = ⟨b0, b1, b2, b3⟩ := by
  unfold i32x4SplatLe
  rw [quad_ofDwords _ h, ofValue_value]

theorem quad_v128And (h : 4 * j + 4 ≤ 16) (x y : V128) :
    quad (v128And x y) j = (quad x j).zip (· &&& ·) (quad y j) :=
  quad_zip _ _ _ h

theorem quad_v128Or (h : 4 * j + 4 ≤ 16) (x y : V128) :
    quad (v128Or x y) j = (quad x j).zip (· ||| ·) (quad y j) :=
  quad_zip _ _ _ h

theorem quad_u16x8Shr (h : 4 * j + 4 ≤ 16) (x : V128) (k : ℕ) :
    quad (u16x8Shr x k) j = Quad.ofWords ((quad x j).low / 2 ^ k) ((quad x j).high / 2 ^ k) := by
  unfold u16x8Shr
  rw [quad_ofWords _ h, word_even, word_odd]

theorem quad_u16x8Shl (h : 4 * j + 4 ≤ 16) (x : V128) (k : ℕ) :
    quad (u16x8Shl x k) j =
      Quad.ofWords ((quad x j).low * 2 ^ k % 2 ^ 16) ((quad x j).high * 2 ^ k % 2 ^ 16) := by
  unfold u16x8Shl
  rw [quad_ofWords _ h, word_even, word_odd]

theorem quad_u32x4Shr (h : 4 * j + 4 ≤ 16) (x : V128) (k : ℕ) :
    quad (u32x4Shr x k) j = Quad.ofValue ((quad x j).value / 2 ^ k) := by
  unfold u32x4Shr
  rw [quad_ofDwords _ h, dword_eq]

theorem quad_u32x4Shl (h : 4 * j + 4 ≤ 16) (x : V128) (k : ℕ) :
    quad (u32x4Shl x k) j = Quad.ofValue ((quad x j).value * 2 ^ k % 2 ^ 32) := by
  unfold u32x4Shl
  rw [quad_ofDwords _ h, dword_eq]

end Lanes

section Encoding

theorem splitShuffle_quad (x : V128) (j : ℕ) (hj : j < 4) :
    quad (u8x16Swizzle x (v128Load splitShuffle)) j =
      ⟨lane x (3 * j + 1), lane x (3 * j), lane x (3 * j + 2), lane x (3 * j + 1)⟩ := by
  have htable : ∀ j < 4, (splitShuffle.getD (4 * j) 0).toNat = 3 * j + 1 ∧
      (splitShuffle.getD (4 * j + 1) 0).toNat = 3 * j ∧
      (splitShuffle.getD (4 * j + 2) 0).toNat = 3 * j + 2 ∧
      (splitShuffle.getD (4 * j + 3) 0).toNat = 3 * j + 1 := by decide
  obtain ⟨h₀, h₁, h₂, h₃⟩ := htable j hj
  exact Quad.ext (lane_u8x16Swizzle x (by omega) h₀ (by omega))
    (lane_u8x16Swizzle x (by omega) h₁ (by omega)) (lane_u8x16Swizzle x (by omega) h₂ (by omega))
    (lane_u8x16Swizzle x (by omega) h₃ (by omega))

theorem quad_splitBits (x : V128) (j : ℕ) (hj : j < 4) :
    quad (splitBits x) j = sextetQuad (lane x (3 * j)) (lane x (3 * j + 1)) (lane x (3 * j + 2)) := by
  have h : 4 * j + 4 ≤ 16 := by omega
  have hs := splitShuffle_quad x j hj
  generalize lane x (3 * j) = a at hs ⊢
  generalize lane x (3 * j + 1) = b at hs ⊢
  generalize lane x (3 * j + 2) = c at hs ⊢
  have ha := a.toNat_lt
  have hb := b.toNat_lt
  have hc := c.toNat_lt
  have h₁ : ((Quad.mk b a c b).zip (· &&& ·) ⟨0x00, 0xFC, 0x00, 0x00⟩).low = _ := firstField a b
  have h₂ : ((Quad.mk b a c b).zip (· &&& ·) ⟨0xF0, 0x03, 0x00, 0x00⟩).low = _ := secondField a b
  have h₃ : ((Quad.mk b a c b).zip (· &&& ·) ⟨0x00, 0x00, 0xC0, 0x0F⟩).high = _ := thirdField b c
  have h₄ : ((Quad.mk b a c b).zip (· &&& ·) ⟨0x00, 0x00, 0x3F, 0x00⟩).high = _ := fourthField b c
  have hhigh : ∀ m₀ m₁, ((Quad.mk b a c b).zip (· &&& ·) ⟨m₀, m₁, 0x00, 0x00⟩).high = 0 :=
    fun _ _ => noField b c
  have hlow : ∀ m₂ m₃, ((Quad.mk b a c b).zip (· &&& ·) ⟨0x00, 0x00, m₂, m₃⟩).low = 0 :=
    fun _ _ => noField a b
  have hfirst : a.toNat / 4 * 2 ^ 10 / 2 ^ 10 = a.toNat / 4 := by omega
  have hsecond : (a.toNat % 4 * 16 + b.toNat / 16) * 2 ^ 4 * 2 ^ 4 % 2 ^ 16 =
      (a.toNat % 4 * 16 + b.toNat / 16) * 2 ^ 8 := by omega
  have hthird : (b.toNat % 16 * 4 + c.toNat / 64) * 2 ^ 6 / 2 ^ 6 =
      b.toNat % 16 * 4 + c.toNat / 64 := by omega
  have hfourth : c.toNat % 64 * 2 ^ 8 % 2 ^ 16 = c.toNat % 64 * 2 ^ 8 := by omega
  unfold splitBits
  dsimp only
  rw [quad_v128Or h, quad_v128Or h, quad_v128Or h, quad_u16x8Shr h, quad_u16x8Shr h,
    quad_u16x8Shl h, quad_u16x8Shl h, quad_v128And h, quad_v128And h, quad_v128And h,
    quad_v128And h, hs, quad_i32x4SplatLe h, quad_i32x4SplatLe h, quad_i32x4SplatLe h,
    quad_i32x4SplatLe h, h₁, h₂, h₃, h₄, hhigh, hhigh, hlow, hlow, hfirst, hsecond, hthird, hfourth]
  have hleft := or_ofWords (a.toNat / 4) (a.toNat % 4 * 16 + b.toNat / 16) 0 0 (by omega) (by omega)
  have hright := or_ofWords 0 0 (b.toNat % 16 * 4 + c.toNat / 64) (c.toNat % 64) (by omega)
    (by omega)
  rw [Nat.zero_mul] at hleft hright
  rw [Nat.zero_div, Nat.zero_div, Nat.zero_mul, Nat.zero_mul, Nat.zero_mod, hleft, hright]
  exact Quad.ext UInt8.or_zero UInt8.or_zero UInt8.zero_or UInt8.zero_or

def encodeByte (v : UInt8) : UInt8 :=
  let upper := (if v.toInt8.toInt < (26 : UInt8).toInt8.toInt then 0xFF else 0) &&& 13
  let i := (UInt8.ofNat (v.toNat - (51 : UInt8).toNat) ||| upper).toNat
  v + if i < 16 then encodeShift.getD i 0 else 0

theorem encodeByte_eq : ∀ v < 64, encodeByte (UInt8.ofNat v) = charOf v :=
  translates (by decide)

theorem lane_v128Load (bytes : List UInt8) {l : ℕ} (hl : l < 16) :
    lane (v128Load bytes) l = bytes.getD l 0 := lane_ofBytes _ hl

theorem lane_encodeValues (input : V128) {l : ℕ} (hl : l < 16) :
    lane (encodeValues input) l = encodeByte (lane input l) := by
  unfold encodeValues u8x16Add u8x16Swizzle u8x16SubSat i8x16Lt v128Or v128And u8x16Splat ByteLanes.add
    ByteLanes.or ByteLanes.and encodeByte
  dsimp only
  rw [lane_zip _ _ _ hl, lane_ofLanes _ hl, lane_zip _ _ _ hl, lane_zip _ _ _ hl, lane_zip _ _ _ hl,
    lane_zip _ _ _ hl, lane_splat _ hl, lane_splat _ hl, lane_splat _ hl]
  congr 1
  exact ite_congr rfl (fun hi => lane_v128Load _ hi) fun _ => rfl

theorem encodeBlock_eq (src : List UInt8) (h : src.length = 16) :
    encodeBlock src = text (src.take 12) := by
  refine encoded_text _ src 4 Vector.length_toList (by omega) fun j hj => ?_
  have hquad : quad (encodeValues (splitBits (v128Load src))) j =
      (quad (splitBits (v128Load src)) j).map encodeByte := by
    unfold quad
    rw [lane_encodeValues _ (by omega), lane_encodeValues _ (by omega),
      lane_encodeValues _ (by omega), lane_encodeValues _ (by omega)]
    rfl
  rw [encodeBlock, v128Store, listQuad_toList, hquad, quad_splitBits _ j hj,
    lane_v128Load _ (by omega), lane_v128Load _ (by omega), lane_v128Load _ (by omega)]
  exact map_sextetQuad encodeByte_eq _ _ _

theorem encodeKernel_lawful : encodeKernel.Lawful where
  groups := ⟨4, rfl⟩
  gives_eq := rfl
  block_eq := by
    dsimp only [encodeKernel, EncodeKernel.of16]
    exact encodeBlock_eq

end Encoding

section Decoding

def valueByte (c : UInt8) : UInt8 :=
  selectByte (eqByte c 47) 63 (selectByte (eqByte c 43) 62
    (selectByte (inRange 48 57 c) (c - 48 + 52) (selectByte (inRange 97 122 c) (c - 97 + 26)
      (selectByte (inRange 65 90 c) (c - 65) 0))))

set_option maxRecDepth 2000 in
theorem decodeByte_eq (c : UInt8) (h : 128 ≤ (validByte c).toNat) :
    isAlphabet c = true ∧ (valueByte c).toNat = sextetOf c := by
  exact @reads_alphabet (fun c => 128 ≤ (validByte c).toNat) valueByte (by decide) c h

theorem decodeValues_some {x y : V128} (h : decodeValues x = some y) {l : ℕ} (hl : l < 16) :
    isAlphabet (lane x l) = true ∧ (lane y l).toNat = sextetOf (lane x l) := by
  unfold decodeValues at h
  dsimp only at h
  rw [Option.ite_none_left_eq_some, not_not, Option.some.injEq] at h
  obtain ⟨hvalid, hy⟩ := h
  have htop := topBits_all _ hvalid hl
  rw [← hy]
  simp only [between, u8x16Ge, u8x16Le, u8x16Eq, u8x16Add, u8x16Sub, u8x16Splat, v128And, v128Or,
    v128Bitselect, maskGe, maskLe, maskEq, ByteLanes.or, ByteLanes.and, ByteLanes.add,
    ByteLanes.sub, lane_zip _ _ _ hl, lane_select _ _ _ hl, lane_splat _ hl] at htop ⊢
  exact decodeByte_eq (lane x l) htop

variable {p q r s : UInt8}

theorem and_sextet (hp : p.toNat < 64) : p &&& 0x3F = p := by
  have hmask : (p &&& 0x3F).toNat = _ := and_field p 0 6 (by omega)
  apply UInt8.toNat_inj.mp
  rw [hmask]
  omega

theorem and_byte (p : UInt8) : p &&& 0xFF = p := by
  have hp := p.toNat_lt
  have hmask : (p &&& 0xFF).toNat = _ := and_field p 0 8 (by omega)
  apply UInt8.toNat_inj.mp
  rw [hmask]
  omega

/-- The first and third sextets: the two shifts meet in no byte. -/
theorem odd_eq (hp : p.toNat < 64) (hr : r.toNat < 64) :
    (Quad.ofValue ((Quad.mk p 0 r 0).value * 2 ^ 18 % 2 ^ 32)).zip (· ||| ·)
      (Quad.ofValue ((Quad.mk p 0 r 0).value / 2 ^ 10)) =
        ⟨UInt8.ofNat (r.toNat % 4 * 64), UInt8.ofNat (r.toNat / 4), UInt8.ofNat (p.toNat * 4), 0⟩ := by
  have hleft : Quad.ofValue ((Quad.mk p 0 r 0).value * 2 ^ 18 % 2 ^ 32) =
      ⟨0, 0, UInt8.ofNat (p.toNat * 4), 0⟩ := by
    apply ofValue_eq
    simp only [Quad.value, Quad.low, Quad.high, ofNat_toNat, UInt8.toNat_zero]
    omega
  have hright : Quad.ofValue ((Quad.mk p 0 r 0).value / 2 ^ 10) =
      ⟨UInt8.ofNat (r.toNat % 4 * 64), UInt8.ofNat (r.toNat / 4), 0, 0⟩ := by
    apply ofValue_eq
    simp only [Quad.value, Quad.low, Quad.high, ofNat_toNat, UInt8.toNat_zero]
    omega
  rw [hleft, hright]
  exact Quad.ext UInt8.zero_or UInt8.zero_or UInt8.or_zero UInt8.zero_or

/-- The second and fourth sextets: what the shift leaves of the fourth is above the group. -/
theorem even_eq (hq : q.toNat < 64) (hs : s.toNat < 64) :
    (Quad.ofValue ((Quad.mk 0 q 0 s).value * 2 ^ 4 % 2 ^ 32)).zip (· ||| ·)
      (Quad.ofValue ((Quad.mk 0 q 0 s).value / 2 ^ 24)) =
        ⟨s, UInt8.ofNat (q.toNat % 16 * 16), UInt8.ofNat (q.toNat / 16),
          UInt8.ofNat (s.toNat % 16 * 16)⟩ := by
  have hleft : Quad.ofValue ((Quad.mk 0 q 0 s).value * 2 ^ 4 % 2 ^ 32) =
      ⟨0, UInt8.ofNat (q.toNat % 16 * 16), UInt8.ofNat (q.toNat / 16),
        UInt8.ofNat (s.toNat % 16 * 16)⟩ := by
    apply ofValue_eq
    simp only [Quad.value, Quad.low, Quad.high, ofNat_toNat, UInt8.toNat_zero]
    omega
  have hright : Quad.ofValue ((Quad.mk 0 q 0 s).value / 2 ^ 24) = ⟨s, 0, 0, 0⟩ := by
    apply ofValue_eq
    simp only [Quad.value, Quad.low, Quad.high, UInt8.toNat_zero]
    omega
  rw [hleft, hright]
  exact Quad.ext UInt8.zero_or UInt8.or_zero UInt8.or_zero UInt8.or_zero

theorem octetQuad_eq (hp : p.toNat < 64) (hq : q.toNat < 64) (hr : r.toNat < 64)
    (hs : s.toNat < 64) :
    octetQuad p.toNat q.toNat r.toNat s.toNat =
      ⟨UInt8.ofNat (r.toNat % 4 * 64) ||| s,
        UInt8.ofNat (r.toNat / 4) ||| UInt8.ofNat (q.toNat % 16 * 16),
        UInt8.ofNat (p.toNat * 4) ||| UInt8.ofNat (q.toNat / 16), 0⟩ := by
  have hr4 := ofNat_toNat (r.toNat % 4 * 64)
  have hr2 := ofNat_toNat (r.toNat / 4)
  have hq16 := ofNat_toNat (q.toNat % 16 * 16)
  have hq4 := ofNat_toNat (q.toNat / 16)
  have hp4 := ofNat_toNat (p.toNat * 4)
  have hthird := or_toNat (UInt8.ofNat (r.toNat % 4 * 64)) s 6 (by omega) (by omega)
  have hsecond := or_toNat (UInt8.ofNat (q.toNat % 16 * 16)) (UInt8.ofNat (r.toNat / 4)) 4 (by omega)
    (by omega)
  have hfirst := or_toNat (UInt8.ofNat (p.toNat * 4)) (UInt8.ofNat (q.toNat / 16)) 2 (by omega)
    (by omega)
  rw [UInt8.or_comm] at hsecond
  refine Quad.ext ?_ ?_ ?_ rfl
  · refine UInt8.toNat_inj.mp ((octet₃_toNat _ _ hs).trans (Eq.trans ?_ hthird.symm))
    omega
  · refine UInt8.toNat_inj.mp ((octet₂_toNat _ _ hr).trans (Eq.trans ?_ hsecond.symm))
    omega
  · refine UInt8.toNat_inj.mp ((octet₁_toNat _ _ hp hq).trans (Eq.trans ?_ hfirst.symm))
    omega

theorem quad_merged (x : V128) {j : ℕ} (h : 4 * j + 4 ≤ 16) (hx : quad x j = ⟨p, q, r, s⟩)
    (hp : p.toNat < 64) (hq : q.toNat < 64) (hr : r.toNat < 64) (hs : s.toNat < 64) :
    quad (merged x) j = octetQuad p.toNat q.toNat r.toNat s.toNat := by
  have hodd : (Quad.mk p q r s).zip (· &&& ·) ⟨0x3F, 0, 0x3F, 0⟩ = ⟨p, 0, r, 0⟩ :=
    Quad.ext (and_sextet hp) UInt8.and_zero (and_sextet hr) UInt8.and_zero
  have heven : (Quad.mk p q r s).zip (· &&& ·) ⟨0, 0x3F, 0, 0x3F⟩ = ⟨0, q, 0, s⟩ :=
    Quad.ext UInt8.and_zero (and_sextet hq) UInt8.and_zero (and_sextet hs)
  unfold merged
  dsimp only
  rw [quad_v128And h, quad_v128Or h, quad_v128Or h, quad_v128Or h, quad_u32x4Shl h, quad_u32x4Shr h,
    quad_u32x4Shl h, quad_u32x4Shr h, quad_v128And h, quad_v128And h, quad_i32x4SplatLe h,
    quad_i32x4SplatLe h, quad_i32x4SplatLe h, hx, hodd, heven, odd_eq hp hr, even_eq hq hs,
    octetQuad_eq hp hq hr hs]
  exact Quad.ext (and_byte _) (and_byte _) (and_byte _) UInt8.and_zero

theorem lane_mergeBits (x : V128) (l : ℕ) (hl : l < 12) :
    lane (mergeBits x) l = lane (merged x) (4 * (l / 3) + 2 - l % 3) := by
  have htable : ∀ l < 12, (mergeShuffle.getD l 0).toNat = 4 * (l / 3) + 2 - l % 3 := by decide
  exact lane_u8x16Swizzle _ (by omega) (htable l hl) (by omega)

theorem decodeBlock_eq (src : List UInt8) (output : List (List UInt8)) (hlen : src.length = 16)
    (h : decodeBlock src = some output) : text output.flatten = src := by
  rw [decodeBlock, Option.map_eq_some_iff] at h
  obtain ⟨y, hy, rfl⟩ := h
  rw [List.flatten_singleton, v128Store]
  have hlane : ∀ l < 4 * 4, isAlphabet (src.getD l 0) = true ∧
      (lane y l).toNat = sextetOf (src.getD l 0) := by
    intro l hl
    have h := decodeValues_some hy hl
    rwa [lane_v128Load _ hl] at h
  have hlanes : ∀ l < 3 * 4, ((mergeBits y).toList.take 12).getD l 0 =
      lane (merged y) (4 * (l / 3) + 2 - l % 3) := by
    intro l hl
    rw [getD_take _ _ _ hl, toList_getD, lane_mergeBits y l hl]
  refine merged_text (by simp) hlen hlane (fun j hj => ?_) hlanes
  exact quad_merged y (by omega) rfl (translated_lt (hlane _ (by omega)))
    (translated_lt (hlane _ (by omega))) (translated_lt (hlane _ (by omega)))
    (translated_lt (hlane _ (by omega)))

theorem decodeKernel_lawful : decodeKernel.Lawful where
  groups := ⟨4, rfl⟩
  gives_eq := rfl
  block_eq := by
    dsimp only [decodeKernel, DecodeKernel.of16, DecodeKernel.of]
    exact decodeBlock_eq

end Decoding

section Prefixes

theorem wasm32_lawful : wasm32.Lawful where
  encode backend dst src hroom := by
    cases backend with
    | wasm128 => exact encodeWith_encoded encodeKernel_lawful hroom
    | _ => exact ⟨_, rfl, encoded_start⟩
  decode backend dst src := by
    cases backend with
    | wasm128 => exact decodeWith_decoded decodeKernel_lawful
    | _ => exact ⟨_, [], rfl, decoded_start⟩

/-- The WebAssembly Base64 backend is the scalar codec: the same results, the same
destination bytes, and no access outside either buffer. -/
theorem wasmBase64_eq_scalar (backend : Base64Backend) (dst src : List UInt8) :
    ∃ encoded decoded, toBase64Scalar dst src = some encoded ∧
      fromBase64Scalar dst src = some decoded ∧
      toBase64WithBackend dst src wasm32 backend = some encoded ∧
      toBase64 dst src wasm32 backend = some encoded ∧
      fromBase64WithBackend dst src wasm32 backend = some decoded ∧
      fromBase64 dst src wasm32 backend = some decoded := wasm32_lawful.exact dst src backend

end Prefixes

end Argon2Rust.Base64Wasm
