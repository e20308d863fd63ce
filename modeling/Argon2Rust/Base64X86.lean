import Argon2Rust.Base64Quads

set_option autoImplicit false

namespace Argon2Rust.Base64X86
open Base64 (text charOf sextetOf isAlphabet alphabet b64LenUsize)
open Base64Blocks ByteLanes Base64Quads

section Instructions
variable {n : ℕ}

def set1Epi8 (b : UInt8) : Register n := splat b

def setrEpi8 (bytes : List UInt8) : Register n := ofBytes bytes

def set1Epi32 (v : ℕ) : Register n := ofDwords fun _ => v

def setrEpi32 (dwords : List ℕ) : Register n := ofDwords fun j => dwords.getD j 0

/-- A control byte with its top bit set clears the lane. -/
def shuffleEpi8 (x control : Register n) : Register n :=
  ofLanes fun l =>
    let c := (lane control l).toNat
    if 128 ≤ c then 0 else lane x (16 * (l / 16) + c % 16)

def permutevar8x32Epi32 (x index : Register n) : Register n :=
  ofDwords fun j => dword x (dword index j % 8)

def mulhiEpu16 (x y : Register n) : Register n := ofWords fun j => word x j * word y j / 2 ^ 16

def mulloEpi16 (x y : Register n) : Register n := ofWords fun j => word x j * word y j % 2 ^ 16

def subsEpu8 (x y : Register n) : Register n := zip (fun a b => UInt8.ofNat (a.toNat - b.toNat)) x y

def cmpgtEpi8 (x y : Register n) : Register n :=
  zip (fun a b => if b.toInt8.toInt < a.toInt8.toInt then 0xFF else 0) x y

def cmpeqEpi8 (x y : Register n) : Register n := maskEq x y

def movemaskEpi8 (x : Register n) : Int32 := Int32.ofNat (topBits x)

def signedWord (w : ℕ) : ℤ := if w < 2 ^ 15 then w else w - 2 ^ 16

def saturate (r : ℤ) : ℤ := max (-2 ^ 15) (min (2 ^ 15 - 1) r)

/-- Unsigned bytes of `x` by signed bytes of `y`, added in pairs with saturation. -/
def maddubsEpi16 (x y : Register n) : Register n :=
  ofWords fun j =>
    let product (l : ℕ) : ℤ := (lane x l).toNat * (lane y l).toInt8.toInt
    (saturate (product (2 * j) + product (2 * j + 1)) % 2 ^ 16).toNat

def maddEpi16 (x y : Register n) : Register n :=
  ofDwords fun j =>
    let product (l : ℕ) : ℤ := signedWord (word x l) * signedWord (word y l)
    ((product (2 * j) + product (2 * j + 1)) % 2 ^ 32).toNat

def srliSi128 (imm : ℕ) (x : Register 16) : Register 16 :=
  ofLanes fun l => if l + imm < 16 then lane x (l + imm) else 0

def extracti128Si256 (imm : ℕ) (x : Register 32) : Register 16 :=
  ofLanes fun l => lane x (16 * imm + l)

def castsi256Si128 (x : Register 32) : Register 16 := extracti128Si256 0 x

end Instructions

section Encode
variable {n : ℕ}

def encodeReshuffle (table : List UInt8) (input : Register n) : Register n :=
  let input := shuffleEpi8 input (setrEpi8 table)
  let a := and input (set1Epi32 0x0FC0FC00)
  let a := mulhiEpu16 a (set1Epi32 0x04000040)
  let b := and input (set1Epi32 0x003F03F0)
  let b := mulloEpi16 b (set1Epi32 0x01000010)
  or a b

def encodeReshuffle128 : Register 16 → Register 16 :=
  encodeReshuffle [1, 0, 2, 1, 4, 3, 5, 4, 7, 6, 8, 7, 10, 9, 11, 10]

def encodeReshuffle256 : Register 32 → Register 32 :=
  encodeReshuffle [5, 4, 6, 5, 8, 7, 9, 8, 11, 10, 12, 11, 14, 13, 15, 14,
    1, 0, 2, 1, 4, 3, 5, 4, 7, 6, 8, 7, 10, 9, 11, 10]

def lut : List UInt8 := [65, 71, -4, -4, -4, -4, -4, -4, -4, -4, -4, -4, -19, -16, 0, 0]

def encodeTranslate (lut : List UInt8) (input : Register n) : Register n :=
  let indices := subsEpu8 input (set1Epi8 51)
  let mask := cmpgtEpi8 input (set1Epi8 25)
  let indices := sub indices mask
  add input (shuffleEpi8 (setrEpi8 lut) indices)

def encodeTranslate128 : Register 16 → Register 16 := encodeTranslate lut

def encodeTranslate256 : Register 32 → Register 32 := encodeTranslate (lut ++ lut)

def encodeBlock12 (src : List UInt8) : List UInt8 :=
  (encodeTranslate128 (encodeReshuffle128 (ofBytes src))).toList

def encodeBlock24 (src : List UInt8) : List UInt8 :=
  let input := permutevar8x32Epi32 (ofBytes src) (setrEpi32 [0, 0, 1, 2, 3, 4, 5, 6])
  (encodeTranslate256 (encodeReshuffle256 input)).toList

def encodeKernel12 : EncodeKernel := .of16 encodeBlock12

def encodeKernel24 : EncodeKernel := .of32 encodeBlock24

def encodeSsse3 (dst src : List UInt8) : Option Progress := encodeWith src encodeKernel12 dst

def encodeAvx2 (dst src : List UInt8) : Option Progress := do
  let x ← encodeWith src encodeKernel24 dst
  encodeBlocks src encodeKernel12 x

end Encode

section Decode
variable {n : ℕ}

def between (low high : UInt8) (input : Register n) : Register n :=
  and (cmpgtEpi8 input (set1Epi8 (low - 1))) (cmpgtEpi8 (set1Epi8 (high + 1)) input)

/-- `full` is the mask of a register whose lanes are all valid. -/
def decodeTranslate (full : Int32) (input : Register n) : Option (Register n) :=
  let upper := between 65 90 input
  let lower := between 97 122 input
  let digit := between 48 57 input
  let plus := cmpeqEpi8 input (set1Epi8 43)
  let slash := cmpeqEpi8 input (set1Epi8 47)
  let valid := or (or upper lower) (or (or digit plus) slash)
  if movemaskEpi8 valid ≠ full then none
  else
    let upperValue := and upper (sub input (set1Epi8 65))
    let lowerValue := and lower (add (sub input (set1Epi8 97)) (set1Epi8 26))
    let digitValue := and digit (add (sub input (set1Epi8 48)) (set1Epi8 52))
    some (or (or upperValue lowerValue)
      (or digitValue (or (and plus (set1Epi8 62)) (and slash (set1Epi8 63)))))

def decodeTranslate128 : Register 16 → Option (Register 16) := decodeTranslate 0xFFFF

def decodeTranslate256 : Register 32 → Option (Register 32) := decodeTranslate (-1)

def merge (input : Register n) : Register n :=
  maddEpi16 (maddubsEpi16 input (set1Epi32 0x01400140)) (set1Epi32 0x00011000)

def packing : List UInt8 := [2, 1, 0, 6, 5, 4, 10, 9, 8, 14, 13, 12, -1, -1, -1, -1]

def decodeReshuffle128 (input : Register 16) : Register 16 :=
  shuffleEpi8 (merge input) (setrEpi8 packing)

def decodeReshuffle256 (input : Register 32) : Register 32 :=
  let packed := shuffleEpi8 (merge input) (setrEpi8 (packing ++ packing))
  permutevar8x32Epi32 packed (setrEpi32 [0, 1, 2, 4, 5, 6, 7, 7])

def store12 (value : Register 16) : List (List UInt8) :=
  [value.toList.take 8, (srliSi128 8 value).toList.take 4]

def store24 (value : Register 32) : List (List UInt8) :=
  [(castsi256Si128 value).toList, (extracti128Si256 1 value).toList.take 8]

def decodeBlock16 (src : List UInt8) : Option (List (List UInt8)) :=
  (decodeTranslate128 (ofBytes src)).map fun values => store12 (decodeReshuffle128 values)

def decodeBlock32 (src : List UInt8) : Option (List (List UInt8)) :=
  (decodeTranslate256 (ofBytes src)).map fun values => store24 (decodeReshuffle256 values)

def decodeKernel16 : DecodeKernel := .of16 decodeBlock16

def decodeKernel32 : DecodeKernel := .of32 decodeBlock32

def decodeSsse3 (dst src : List UInt8) : Option Progress := decodeWith src decodeKernel16 dst

/-- A rejected vector is left to the scalar loop whole. -/
def decodeAvx2 (dst src : List UInt8) : Option Progress := do
  let (x, rejected) ← decodeBlocks src decodeKernel32 ⟨dst, 0, 0⟩
  if rejected then some x
  else
    let (x, _) ← decodeBlocks src decodeKernel16 x
    some x

end Decode

def x86 : Target where
  minEncodeLen := 16
  minDecodeLen := 16
  encodePrefix backend dst src := match backend with
    | .ssse3 => encodeSsse3 dst src
    | .avx2 => encodeAvx2 dst src
    | _ => some ⟨dst, 0, 0⟩
  decodePrefix backend dst src := match backend with
    | .ssse3 => decodeSsse3 dst src
    | .avx2 => decodeAvx2 dst src
    | _ => some ⟨dst, 0, 0⟩

section Shuffles
variable {n : ℕ}

theorem lane_shuffleEpi8 (x : Register n) {table : List UInt8} {l : ℕ} (hl : l < n)
    (h : (table.getD l 0).toNat < 16) :
    lane (shuffleEpi8 x (setrEpi8 table)) l = lane x (16 * (l / 16) + (table.getD l 0).toNat) := by
  unfold shuffleEpi8 setrEpi8
  rw [lane_ofLanes _ hl]
  dsimp only
  rw [lane_ofBytes _ hl, if_neg (by omega), Nat.mod_eq_of_lt h]

theorem quad_set1Epi32 (v : ℕ) {j : ℕ} (h : 4 * j + 4 ≤ n) :
    quad (set1Epi32 v : Register n) j = Quad.ofValue v := quad_ofDwords _ h

theorem quad_mulhiEpu16 (x y : Register n) {j : ℕ} (h : 4 * j + 4 ≤ n) :
    quad (mulhiEpu16 x y) j =
      Quad.ofWords ((quad x j).low * (quad y j).low / 2 ^ 16)
        ((quad x j).high * (quad y j).high / 2 ^ 16) := by
  unfold mulhiEpu16
  rw [quad_ofWords _ h, word_even, word_even, word_odd, word_odd]

theorem quad_mulloEpi16 (x y : Register n) {j : ℕ} (h : 4 * j + 4 ≤ n) :
    quad (mulloEpi16 x y) j =
      Quad.ofWords ((quad x j).low * (quad y j).low % 2 ^ 16)
        ((quad x j).high * (quad y j).high % 2 ^ 16) := by
  unfold mulloEpi16
  rw [quad_ofWords _ h, word_even, word_even, word_odd, word_odd]

theorem quad_permutevar8x32Epi32 (x : Register n) (dwords : List ℕ) {j k : ℕ}
    (h : 4 * j + 4 ≤ n) (hk : dwords.getD j 0 = k) (hlow : k < 8) :
    quad (permutevar8x32Epi32 x (setrEpi32 dwords)) j = quad x k := by
  unfold permutevar8x32Epi32 setrEpi32
  rw [quad_ofDwords _ h, dword_eq (ofDwords fun j => dwords.getD j 0), quad_ofDwords _ h,
    value_ofValue, hk, show k % 2 ^ 32 % 8 = k by omega, dword_eq, ofValue_value]

end Shuffles

section Encoding
variable {n : ℕ}

/-- A reshuffled group is split into its sextets. -/
theorem quad_encodeReshuffle (table : List UInt8) (input : Register n) {j : ℕ} {a b c : UInt8}
    (h : 4 * j + 4 ≤ n) (hs : quad (shuffleEpi8 input (setrEpi8 table)) j = ⟨b, a, c, b⟩) :
    quad (encodeReshuffle table input) j = sextetQuad a b c := by
  have ha := a.toNat_lt
  have hb := b.toNat_lt
  have hc := c.toNat_lt
  have h₁ : ((Quad.mk b a c b).zip (· &&& ·) (Quad.ofValue 0x0FC0FC00)).low = a.toNat / 4 * 2 ^ 10 :=
    firstField a b
  have h₂ : ((Quad.mk b a c b).zip (· &&& ·) (Quad.ofValue 0x003F03F0)).low =
      (a.toNat % 4 * 16 + b.toNat / 16) * 2 ^ 4 := secondField a b
  have h₃ : ((Quad.mk b a c b).zip (· &&& ·) (Quad.ofValue 0x0FC0FC00)).high =
      (b.toNat % 16 * 4 + c.toNat / 64) * 2 ^ 6 := thirdField b c
  have h₄ : ((Quad.mk b a c b).zip (· &&& ·) (Quad.ofValue 0x003F03F0)).high = c.toNat % 64 :=
    fourthField b c
  have hhi : (Quad.ofValue 0x04000040).low = 2 ^ 6 ∧ (Quad.ofValue 0x04000040).high = 2 ^ 10 := by
    decide
  have hlo : (Quad.ofValue 0x01000010).low = 2 ^ 4 ∧ (Quad.ofValue 0x01000010).high = 2 ^ 8 := by
    decide
  unfold encodeReshuffle ByteLanes.or ByteLanes.and
  dsimp only
  rw [quad_zip _ _ _ h, quad_mulhiEpu16 _ _ h, quad_mulloEpi16 _ _ h, quad_zip _ _ _ h,
    quad_zip _ _ _ h, hs, quad_set1Epi32 _ h, quad_set1Epi32 _ h, quad_set1Epi32 _ h,
    quad_set1Epi32 _ h, h₁, h₂, h₃, h₄, hhi.1, hhi.2, hlo.1, hlo.2]
  have hfirst : a.toNat / 4 * 2 ^ 10 * 2 ^ 6 / 2 ^ 16 = a.toNat / 4 := by omega
  have hsecond : (a.toNat % 4 * 16 + b.toNat / 16) * 2 ^ 4 * 2 ^ 4 % 2 ^ 16 =
      (a.toNat % 4 * 16 + b.toNat / 16) * 2 ^ 8 := by omega
  have hthird : (b.toNat % 16 * 4 + c.toNat / 64) * 2 ^ 6 * 2 ^ 10 / 2 ^ 16 =
      b.toNat % 16 * 4 + c.toNat / 64 := by omega
  have hfourth : c.toNat % 64 * 2 ^ 8 % 2 ^ 16 = c.toNat % 64 * 2 ^ 8 := by omega
  rw [hfirst, hsecond, hthird, hfourth]
  exact or_ofWords _ _ _ _ (by omega) (by omega)

def encodeByte (v : UInt8) : UInt8 :=
  let mask := if (25 : UInt8).toInt8.toInt < v.toInt8.toInt then 0xFF else 0
  let c := (UInt8.ofNat (v.toNat - (51 : UInt8).toNat) - mask).toNat
  v + if 128 ≤ c then 0 else lut.getD (c % 16) 0

theorem encodeByte_eq : ∀ v < 64, encodeByte (UInt8.ofNat v) = charOf v :=
  translates (by decide)

theorem lane_encodeTranslate {table : List UInt8} (input : Register n) {l : ℕ} (hl : l < n)
    (hn : ∀ l < n, ∀ k < 16, table.getD (16 * (l / 16) + k) 0 = lut.getD k 0)
    (h16 : 16 ∣ n) : lane (encodeTranslate table input) l = encodeByte (lane input l) := by
  unfold encodeTranslate ByteLanes.add ByteLanes.sub shuffleEpi8 subsEpu8 cmpgtEpi8 set1Epi8 encodeByte
  dsimp only
  rw [lane_zip _ _ _ hl, lane_ofLanes _ hl, lane_zip _ _ _ hl, lane_zip _ _ _ hl, lane_zip _ _ _ hl,
    lane_splat _ hl, lane_splat _ hl, setrEpi8, lane_ofBytes _ (by omega),
    hn l hl _ (Nat.mod_lt _ (by omega))]

theorem quad_encodeTranslate {table : List UInt8} (input : Register n) {j : ℕ} (h : 4 * j + 4 ≤ n)
    (hn : ∀ l < n, ∀ k < 16, table.getD (16 * (l / 16) + k) 0 = lut.getD k 0)
    (h16 : 16 ∣ n) : quad (encodeTranslate table input) j = (quad input j).map encodeByte := by
  unfold quad
  rw [lane_encodeTranslate input (by omega) hn h16, lane_encodeTranslate input (by omega) hn h16,
    lane_encodeTranslate input (by omega) hn h16, lane_encodeTranslate input (by omega) hn h16]
  rfl

/-- A quad of a table that lays out a group as `b`, `a`, `c`, `b`. -/
theorem quad_shuffleEpi8 (x : Register n) (table : List UInt8) {j m : ℕ} (h : 4 * j + 4 ≤ n)
    (hm : m + 2 < 16) (ht : listQuad table j =
      ⟨UInt8.ofNat (m + 1), UInt8.ofNat m, UInt8.ofNat (m + 2), UInt8.ofNat (m + 1)⟩) :
    quad (shuffleEpi8 x (setrEpi8 table)) j =
      ⟨lane x (16 * (j / 4) + m + 1), lane x (16 * (j / 4) + m), lane x (16 * (j / 4) + m + 2),
        lane x (16 * (j / 4) + m + 1)⟩ := by
  have hcontrol : ∀ i < 4, ∀ c < 16, table.getD (4 * j + i) 0 = UInt8.ofNat c →
      lane (shuffleEpi8 x (setrEpi8 table)) (4 * j + i) = lane x (16 * (j / 4) + c) := by
    intro i hi c hc htable
    have hvalue : (table.getD (4 * j + i) 0).toNat = c := by
      rw [htable, ofNat_toNat]
      omega
    rw [lane_shuffleEpi8 x (by omega) (by omega), hvalue, show (4 * j + i) / 16 = j / 4 by omega]
  rw [listQuad, Quad.mk.injEq] at ht
  obtain ⟨h₀, h₁, h₂, h₃⟩ := ht
  exact Quad.ext (hcontrol 0 (by omega) _ (by omega) h₀) (hcontrol 1 (by omega) _ (by omega) h₁)
    (hcontrol 2 (by omega) _ hm h₂) (hcontrol 3 (by omega) _ (by omega) h₃)

theorem lut_twice : ∀ l < 32, ∀ k < 16, (lut ++ lut).getD (16 * (l / 16) + k) 0 = lut.getD k 0 := by
  decide

theorem lut_once (l : ℕ) (hl : l < 16) (k : ℕ) (_ : k < 16) :
    lut.getD (16 * (l / 16) + k) 0 = lut.getD k 0 := by
  rw [Nat.div_eq_of_lt hl, Nat.mul_zero, Nat.zero_add]

theorem encodeBlock12_eq (src : List UInt8) (h : src.length = 16) :
    encodeBlock12 src = text (src.take 12) := by
  have htable : ∀ j < 4, listQuad [1, 0, 2, 1, 4, 3, 5, 4, 7, 6, 8, 7, 10, 9, 11, 10] j =
      ⟨UInt8.ofNat (3 * j + 1), UInt8.ofNat (3 * j), UInt8.ofNat (3 * j + 2),
        UInt8.ofNat (3 * j + 1)⟩ := by decide
  refine encoded_text _ src 4 Vector.length_toList (by omega) fun j hj => ?_
  have hs := quad_shuffleEpi8 (ofBytes src : Register 16) _ (by omega) (by omega) (htable j hj)
  rw [Nat.div_eq_of_lt hj, Nat.mul_zero, Nat.zero_add, lane_ofBytes _ (by omega),
    lane_ofBytes _ (by omega), lane_ofBytes _ (by omega)] at hs
  rw [encodeBlock12, listQuad_toList, encodeTranslate128,
    quad_encodeTranslate _ (by omega) lut_once (by decide), encodeReshuffle128,
    quad_encodeReshuffle _ _ (by omega) hs]
  exact map_sextetQuad encodeByte_eq _ _ _

/-- The first dword is there twice, so a byte stands four lanes above its place. -/
theorem lane_permuted (src : List UInt8) (l : ℕ) (hl : l < 28) :
    lane (permutevar8x32Epi32 (ofBytes src : Register 32) (setrEpi32 [0, 0, 1, 2, 3, 4, 5, 6]))
      (l + 4) = src.getD l 0 := by
  have hindex : ∀ i < 7, [0, 0, 1, 2, 3, 4, 5, 6].getD (i + 1) 0 = i := by decide
  have hquad := quad_permutevar8x32Epi32 (ofBytes src : Register 32) [0, 0, 1, 2, 3, 4, 5, 6]
    (by omega) (hindex (l / 4) (by omega)) (by omega)
  have hlane := lane_of_quad hquad (l % 4) (Nat.mod_lt _ (by omega))
  rw [Nat.div_add_mod, lane_ofBytes _ (by omega)] at hlane
  rw [← hlane]
  congr 1
  omega

theorem encodeBlock24_eq (src : List UInt8) (h : src.length = 32) :
    encodeBlock24 src = text (src.take 24) := by
  have htable : ∀ j < 8, listQuad [5, 4, 6, 5, 8, 7, 9, 8, 11, 10, 12, 11, 14, 13, 15, 14,
      1, 0, 2, 1, 4, 3, 5, 4, 7, 6, 8, 7, 10, 9, 11, 10] j =
      ⟨UInt8.ofNat ((3 * j + 4) % 16 + 1), UInt8.ofNat ((3 * j + 4) % 16),
        UInt8.ofNat ((3 * j + 4) % 16 + 2), UInt8.ofNat ((3 * j + 4) % 16 + 1)⟩ := by decide
  have hplace : ∀ j < 8, (3 * j + 4) % 16 + 2 < 16 ∧ 16 * (j / 4) + (3 * j + 4) % 16 = 3 * j + 4 := by
    decide
  refine encoded_text _ src 8 Vector.length_toList (by omega) fun j hj => ?_
  obtain ⟨hlow, hj4⟩ := hplace j hj
  have hs := quad_shuffleEpi8 (permutevar8x32Epi32 (ofBytes src : Register 32)
    (setrEpi32 [0, 0, 1, 2, 3, 4, 5, 6])) _ (by omega) hlow (htable j hj)
  rw [hj4, show 3 * j + 4 + 1 = 3 * j + 1 + 4 by omega, show 3 * j + 4 + 2 = 3 * j + 2 + 4 by omega,
    lane_permuted src _ (by omega), lane_permuted src _ (by omega), lane_permuted src _ (by omega)]
    at hs
  unfold encodeBlock24
  dsimp only
  rw [listQuad_toList, encodeTranslate256, quad_encodeTranslate _ (by omega) lut_twice (by decide),
    encodeReshuffle256, quad_encodeReshuffle _ _ (by omega) hs]
  exact map_sextetQuad encodeByte_eq _ _ _

theorem encodeKernel12_lawful : encodeKernel12.Lawful where
  groups := ⟨4, rfl⟩
  gives_eq := rfl
  block_eq := by
    dsimp only [encodeKernel12, EncodeKernel.of16]
    exact encodeBlock12_eq

theorem encodeKernel24_lawful : encodeKernel24.Lawful where
  groups := ⟨8, rfl⟩
  gives_eq := rfl
  block_eq := by
    dsimp only [encodeKernel24, EncodeKernel.of32]
    exact encodeBlock24_eq

end Encoding

section Decoding
variable {n : ℕ}

def byteBetween (low high c : UInt8) : UInt8 :=
  (if (low - 1).toInt8.toInt < c.toInt8.toInt then 0xFF else 0) &&&
    if c.toInt8.toInt < (high + 1).toInt8.toInt then 0xFF else 0

def acceptedByte (c : UInt8) : UInt8 :=
  (byteBetween 65 90 c ||| byteBetween 97 122 c) |||
    ((byteBetween 48 57 c ||| eqByte c 43) ||| eqByte c 47)

def valueByte (c : UInt8) : UInt8 :=
  (byteBetween 65 90 c &&& (c - 65) ||| byteBetween 97 122 c &&& (c - 97 + 26)) |||
    (byteBetween 48 57 c &&& (c - 48 + 52) ||| (eqByte c 43 &&& 62 ||| eqByte c 47 &&& 63))

set_option maxRecDepth 2000 in
theorem decodeByte_eq (c : UInt8) (h : 128 ≤ (acceptedByte c).toNat) :
    isAlphabet c = true ∧ (valueByte c).toNat = sextetOf c := by
  exact @reads_alphabet (fun c => 128 ≤ (acceptedByte c).toNat) valueByte (by decide) c h

theorem movemaskEpi8_all (x : Register n) (hn : n ≤ 32)
    (h : movemaskEpi8 x = Int32.ofNat (2 ^ n - 1)) : topBits x = 2 ^ n - 1 := by
  have hpow : 2 ^ n ≤ 2 ^ 32 := Nat.pow_le_pow_right (by omega) hn
  have hpos : 0 < 2 ^ n := Nat.two_pow_pos n
  have hlt : topBits x < 2 ^ n := Nat.ofBits_lt_two_pow _
  have hbits := congrArg (fun m : Int32 => m.toBitVec.toNat) h
  change topBits x % 2 ^ 32 = (2 ^ n - 1) % 2 ^ 32 at hbits
  rwa [Nat.mod_eq_of_lt (by omega), Nat.mod_eq_of_lt (by omega)] at hbits

theorem decodeTranslate_some {full : Int32} {x y : Register n} (hn : n ≤ 32)
    (hfull : full = Int32.ofNat (2 ^ n - 1)) (h : decodeTranslate full x = some y) {l : ℕ}
    (hl : l < n) :
    isAlphabet (lane x l) = true ∧ (lane y l).toNat = sextetOf (lane x l) := by
  unfold decodeTranslate at h
  dsimp only at h
  rw [Option.ite_none_left_eq_some, not_not, Option.some.injEq] at h
  obtain ⟨hvalid, hy⟩ := h
  rw [hfull] at hvalid
  have htop := topBits_all _ (movemaskEpi8_all _ hn hvalid) hl
  rw [← hy]
  simp only [between, cmpgtEpi8, cmpeqEpi8, maskEq, set1Epi8, ByteLanes.or, ByteLanes.and, ByteLanes.add,
    ByteLanes.sub, lane_zip _ _ _ hl, lane_splat _ hl] at htop ⊢
  exact decodeByte_eq (lane x l) htop

def pairSum (a b c d : UInt8) : ℕ :=
  (saturate (a.toNat * b.toInt8.toInt + c.toNat * d.toInt8.toInt) % 2 ^ 16).toNat

theorem quad_maddubsEpi16 (x y : Register n) {j : ℕ} (h : 4 * j + 4 ≤ n) :
    quad (maddubsEpi16 x y) j =
      Quad.ofWords (pairSum (quad x j).b0 (quad y j).b0 (quad x j).b1 (quad y j).b1)
        (pairSum (quad x j).b2 (quad y j).b2 (quad x j).b3 (quad y j).b3) := by
  unfold maddubsEpi16
  rw [quad_ofWords _ h, show 2 * (2 * j) = 4 * j by omega,
    show 2 * (2 * j + 1) = 4 * j + 2 by omega]
  rfl

theorem quad_maddEpi16 (x y : Register n) {j : ℕ} (h : 4 * j + 4 ≤ n) :
    quad (maddEpi16 x y) j = Quad.ofValue
      ((signedWord (quad x j).low * signedWord (quad y j).low +
        signedWord (quad x j).high * signedWord (quad y j).high) % 2 ^ 32).toNat := by
  unfold maddEpi16
  rw [quad_ofDwords _ h]
  dsimp only
  rw [word_even, word_even, word_odd, word_odd]

theorem pairSum_eq (p q : UInt8) (hp : p.toNat < 64) (hq : q.toNat < 64) :
    pairSum p 0x40 q 0x01 = p.toNat * 64 + q.toNat := by
  unfold pairSum saturate
  rw [show (0x40 : UInt8).toInt8.toInt = 64 by decide, show (0x01 : UInt8).toInt8.toInt = 1 by decide]
  omega

theorem quad_merge (x : Register n) {j : ℕ} (h : 4 * j + 4 ≤ n) (h₀ : (quad x j).b0.toNat < 64)
    (h₁ : (quad x j).b1.toNat < 64) (h₂ : (quad x j).b2.toNat < 64)
    (h₃ : (quad x j).b3.toNat < 64) :
    quad (merge x) j = octetQuad (quad x j).b0.toNat (quad x j).b1.toNat (quad x j).b2.toNat
      (quad x j).b3.toNat := by
  have hlow := pairSum_eq _ _ h₀ h₁
  have hhigh := pairSum_eq _ _ h₂ h₃
  have hpairs : Quad.ofValue 0x01400140 = ⟨0x40, 0x01, 0x40, 0x01⟩ := by decide
  have hwords : (Quad.ofValue 0x00011000).low = 2 ^ 12 ∧ (Quad.ofValue 0x00011000).high = 1 := by
    decide
  have hsum : ∀ p q r s : ℕ, p < 64 → q < 64 → r < 64 → s < 64 →
      ((signedWord ((p * 64 + q) % 2 ^ 16) * signedWord (2 ^ 12) +
        signedWord ((r * 64 + s) % 2 ^ 16) * signedWord 1) % 2 ^ 32).toNat =
      (p * 64 + q) * 2 ^ 12 + (r * 64 + s) := by
    intro p q r s hp hq hr hs
    unfold signedWord
    rw [Nat.mod_eq_of_lt (by omega), Nat.mod_eq_of_lt (by omega), if_pos (by omega),
      if_pos (by omega), if_pos (by omega), if_pos (by omega)]
    omega
  unfold merge
  rw [quad_maddEpi16 _ _ h, quad_maddubsEpi16 _ _ h, quad_set1Epi32 _ h, quad_set1Epi32 _ h,
    hpairs, hlow, hhigh, hwords.1, hwords.2, low_ofWords, high_ofWords, hsum _ _ _ _ h₀ h₁ h₂ h₃]
  exact ofValue_octets _ _ _ _ h₀ h₁ h₂ h₃

theorem decoded_block {m : ℕ} {full : Int32} {y : Register n} {input out : List UInt8}
    (hn : n ≤ 32) (hm : n = 4 * m) (hfull : full = Int32.ofNat (2 ^ n - 1))
    (hinput : input.length = n) (hy : decodeTranslate full (ofBytes input) = some y)
    (hout : out.length = 3 * m)
    (hlanes : ∀ l < 3 * m, out.getD l 0 = lane (merge y) (4 * (l / 3) + 2 - l % 3)) :
    text out = input := by
  have hlane : ∀ l < 4 * m, isAlphabet (input.getD l 0) = true ∧
      (lane y l).toNat = sextetOf (input.getD l 0) := by
    intro l hl
    have h := decodeTranslate_some hn hfull hy (l := l) (by omega)
    rwa [lane_ofBytes _ (by omega)] at h
  refine merged_text hout (hinput.trans hm) hlane (fun j hj => ?_) hlanes
  exact quad_merge y (by omega) (translated_lt (hlane _ (by omega)))
    (translated_lt (hlane _ (by omega))) (translated_lt (hlane _ (by omega)))
    (translated_lt (hlane _ (by omega)))

theorem lane_decodeReshuffle128 (x : Register 16) (l : ℕ) (hl : l < 12) :
    lane (decodeReshuffle128 x) l = lane (merge x) (4 * (l / 3) + 2 - l % 3) := by
  have htable : ∀ l < 12, (packing.getD l 0).toNat < 16 ∧
      16 * (l / 16) + (packing.getD l 0).toNat = 4 * (l / 3) + 2 - l % 3 := by decide
  obtain ⟨hlow, hplace⟩ := htable l hl
  rw [decodeReshuffle128, lane_shuffleEpi8 _ (by omega) hlow, hplace]

theorem lane_decodeReshuffle256 (x : Register 32) (l : ℕ) (hl : l < 24) :
    lane (decodeReshuffle256 x) l = lane (merge x) (4 * (l / 3) + 2 - l % 3) := by
  have hindex : ∀ k < 6, [0, 1, 2, 4, 5, 6, 7, 7].getD k 0 = k + k / 3 := by decide
  have htable : ∀ l < 24, ((packing ++ packing).getD (l + 4 * (l / 12)) 0).toNat < 16 ∧
      16 * ((l + 4 * (l / 12)) / 16) + ((packing ++ packing).getD (l + 4 * (l / 12)) 0).toNat =
        4 * (l / 3) + 2 - l % 3 := by decide
  obtain ⟨hlow, hplace⟩ := htable l hl
  have hquad := quad_permutevar8x32Epi32
    (shuffleEpi8 (merge x) (setrEpi8 (packing ++ packing))) [0, 1, 2, 4, 5, 6, 7, 7]
    (by omega) (hindex (l / 4) (by omega)) (by omega)
  have hlane := lane_of_quad hquad (l % 4) (Nat.mod_lt _ (by omega))
  rw [Nat.div_add_mod, show 4 * (l / 4 + l / 4 / 3) + l % 4 = l + 4 * (l / 12) by omega,
    lane_shuffleEpi8 _ (by omega) hlow, hplace] at hlane
  exact hlane

theorem store12_flatten (v : Register 16) :
    (store12 v).flatten = v.toList.take 8 ++ (srliSi128 8 v).toList.take 4 := by
  simp [store12]

theorem store24_flatten (v : Register 32) : (store24 v).flatten =
    (castsi256Si128 v).toList ++ (extracti128Si256 1 v).toList.take 8 := by
  simp [store24]

theorem store12_getD (v : Register 16) (l : ℕ) (hl : l < 12) :
    (store12 v).flatten.getD l 0 = lane v l := by
  rw [store12_flatten]
  by_cases h : l < 8
  · rw [List.getD_append _ _ _ _ (by simpa using h), getD_take _ _ _ h, toList_getD]
  · rw [List.getD_append_right _ _ _ _ (by simpa using h), List.length_take, Vector.length_toList,
      getD_take _ _ _ (by omega), toList_getD, srliSi128, lane_ofLanes _ (by omega),
      if_pos (by omega)]
    congr 1
    omega

theorem store24_getD (v : Register 32) (l : ℕ) (hl : l < 24) :
    (store24 v).flatten.getD l 0 = lane v l := by
  rw [store24_flatten]
  by_cases h : l < 16
  · rw [List.getD_append _ _ _ _ (by simpa using h), toList_getD, castsi256Si128, extracti128Si256,
      lane_ofLanes _ h]
    congr 1
    omega
  · rw [List.getD_append_right _ _ _ _ (by simpa using h), Vector.length_toList,
      getD_take _ _ _ (by omega), toList_getD, extracti128Si256, lane_ofLanes _ (by omega)]
    congr 1
    omega

theorem decodeBlock16_eq (src : List UInt8) (output : List (List UInt8)) (hlen : src.length = 16)
    (h : decodeBlock16 src = some output) : text output.flatten = src := by
  rw [decodeBlock16, Option.map_eq_some_iff] at h
  obtain ⟨y, hy, rfl⟩ := h
  rw [decodeTranslate128] at hy
  have hfull : (0xFFFF : Int32) = Int32.ofNat (2 ^ 16 - 1) := by decide
  have hout : (store12 (decodeReshuffle128 y)).flatten.length = 3 * 4 := by
    simp [store12_flatten]
  have hlanes : ∀ l < 3 * 4, (store12 (decodeReshuffle128 y)).flatten.getD l 0 =
      lane (merge y) (4 * (l / 3) + 2 - l % 3) := by
    intro l hl
    rw [store12_getD _ _ hl, lane_decodeReshuffle128 _ _ hl]
  exact decoded_block (m := 4) (by omega) (by omega) hfull hlen hy hout hlanes

theorem decodeBlock32_eq (src : List UInt8) (output : List (List UInt8)) (hlen : src.length = 32)
    (h : decodeBlock32 src = some output) : text output.flatten = src := by
  rw [decodeBlock32, Option.map_eq_some_iff] at h
  obtain ⟨y, hy, rfl⟩ := h
  rw [decodeTranslate256] at hy
  have hfull : (-1 : Int32) = Int32.ofNat (2 ^ 32 - 1) := by decide
  have hout : (store24 (decodeReshuffle256 y)).flatten.length = 3 * 8 := by
    simp [store24_flatten]
  have hlanes : ∀ l < 3 * 8, (store24 (decodeReshuffle256 y)).flatten.getD l 0 =
      lane (merge y) (4 * (l / 3) + 2 - l % 3) := by
    intro l hl
    rw [store24_getD _ _ hl, lane_decodeReshuffle256 _ _ hl]
  exact decoded_block (m := 8) (by omega) (by omega) hfull hlen hy hout hlanes

theorem decodeKernel16_lawful : decodeKernel16.Lawful where
  groups := ⟨4, rfl⟩
  gives_eq := rfl
  block_eq := by
    dsimp only [decodeKernel16, DecodeKernel.of16, DecodeKernel.of]
    exact decodeBlock16_eq

theorem decodeKernel32_lawful : decodeKernel32.Lawful where
  groups := ⟨8, rfl⟩
  gives_eq := rfl
  block_eq := by
    dsimp only [decodeKernel32, DecodeKernel.of32, DecodeKernel.of]
    exact decodeBlock32_eq

end Decoding

section Prefixes
variable (dst src : List UInt8)

theorem encodeAvx2_encoded (hroom : b64LenUsize src.length < dst.length) :
    ∃ x, encodeAvx2 dst src = some x ∧ Encoded src dst x := by
  obtain ⟨x, hx, hwide⟩ := encodeWith_encoded encodeKernel24_lawful hroom
  obtain ⟨y, hy, hnarrow⟩ := hwide.run encodeKernel12_lawful hroom
  refine ⟨y, ?_, hnarrow⟩
  rw [encodeAvx2, hx]
  exact hy

theorem decodeAvx2_decoded :
    ∃ x bytes, decodeAvx2 dst src = some x ∧ Decoded src dst bytes x := by
  obtain ⟨x, rejected, bytes, hx, hwide⟩ := (@decoded_start src dst).run decodeKernel32_lawful
  obtain ⟨y, ended, more, hy, hnarrow⟩ := hwide.run decodeKernel16_lawful
  rw [decodeAvx2, hx]
  cases rejected with
  | true => exact ⟨x, bytes, rfl, hwide⟩
  | false =>
    refine ⟨y, more, ?_, hnarrow⟩
    change (decodeBlocks src decodeKernel16 x).bind _ = _
    rw [hy]
    rfl

theorem x86_lawful : x86.Lawful where
  encode backend dst src hroom := by
    cases backend with
    | ssse3 => exact encodeWith_encoded encodeKernel12_lawful hroom
    | avx2 => exact encodeAvx2_encoded dst src hroom
    | _ => exact ⟨_, rfl, encoded_start⟩
  decode backend dst src := by
    cases backend with
    | ssse3 => exact decodeWith_decoded decodeKernel16_lawful
    | avx2 => exact decodeAvx2_decoded dst src
    | _ => exact ⟨_, [], rfl, decoded_start⟩

/-- The x86 Base64 backends are the scalar codec: the same results, the same
destination bytes, and no access outside either buffer. -/
theorem x86Base64_eq_scalar (backend : Base64Backend) :
    ∃ encoded decoded, toBase64Scalar dst src = some encoded ∧
      fromBase64Scalar dst src = some decoded ∧
      toBase64WithBackend dst src x86 backend = some encoded ∧
      toBase64 dst src x86 backend = some encoded ∧
      fromBase64WithBackend dst src x86 backend = some decoded ∧
      fromBase64 dst src x86 backend = some decoded := x86_lawful.exact dst src backend

end Prefixes

end Argon2Rust.Base64X86
