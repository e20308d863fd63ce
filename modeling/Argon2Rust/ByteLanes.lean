import Mathlib.Tactic

set_option autoImplicit false

namespace Argon2Rust.ByteLanes

abbrev Register (n : ℕ) := Vector UInt8 n

@[ext] structure Quad where
  b0 : UInt8
  b1 : UInt8
  b2 : UInt8
  b3 : UInt8
  deriving DecidableEq

namespace Quad

def low (q : Quad) : ℕ := q.b0.toNat + q.b1.toNat * 2 ^ 8
def high (q : Quad) : ℕ := q.b2.toNat + q.b3.toNat * 2 ^ 8
def value (q : Quad) : ℕ := q.low + q.high * 2 ^ 16

def ofWords (low high : ℕ) : Quad :=
  ⟨UInt8.ofNat low, UInt8.ofNat (low / 2 ^ 8), UInt8.ofNat high, UInt8.ofNat (high / 2 ^ 8)⟩

def ofValue (v : ℕ) : Quad := ofWords v (v / 2 ^ 16)

def map (f : UInt8 → UInt8) (q : Quad) : Quad := ⟨f q.b0, f q.b1, f q.b2, f q.b3⟩

def zip (f : UInt8 → UInt8 → UInt8) (q r : Quad) : Quad :=
  ⟨f q.b0 r.b0, f q.b1 r.b1, f q.b2 r.b2, f q.b3 r.b3⟩

end Quad

section Operations
variable {n : ℕ}

def lane (x : Register n) (l : ℕ) : UInt8 := x[l]?.getD 0

def ofLanes (f : ℕ → UInt8) : Register n := Vector.ofFn fun l => f l.val

def ofBytes (bytes : List UInt8) : Register n := ofLanes fun l => bytes.getD l 0

def splat (b : UInt8) : Register n := ofLanes fun _ => b

def map (f : UInt8 → UInt8) (x : Register n) : Register n := ofLanes fun l => f (lane x l)

def zip (f : UInt8 → UInt8 → UInt8) (x y : Register n) : Register n :=
  ofLanes fun l => f (lane x l) (lane y l)

def and (x y : Register n) : Register n := zip (· &&& ·) x y

def or (x y : Register n) : Register n := zip (· ||| ·) x y

def add (x y : Register n) : Register n := zip (· + ·) x y

def sub (x y : Register n) : Register n := zip (· - ·) x y

def geByte (a b : UInt8) : UInt8 := if b.toNat ≤ a.toNat then 0xFF else 0

def leByte (a b : UInt8) : UInt8 := if a.toNat ≤ b.toNat then 0xFF else 0

def eqByte (a b : UInt8) : UInt8 := if a = b then 0xFF else 0

/-- Bit by bit, `a` where the mask is set and `b` elsewhere. -/
def selectByte (mask a b : UInt8) : UInt8 := (mask &&& a) ||| (~~~mask &&& b)

def maskGe (x y : Register n) : Register n := zip geByte x y

def maskLe (x y : Register n) : Register n := zip leByte x y

def maskEq (x y : Register n) : Register n := zip eqByte x y

def select (mask x y : Register n) : Register n :=
  ofLanes fun l => selectByte (lane mask l) (lane x l) (lane y l)

def word (x : Register n) (j : ℕ) : ℕ := (lane x (2 * j)).toNat + (lane x (2 * j + 1)).toNat * 2 ^ 8

def dword (x : Register n) (j : ℕ) : ℕ := word x (2 * j) + word x (2 * j + 1) * 2 ^ 16

def ofWords (f : ℕ → ℕ) : Register n :=
  ofLanes fun l => UInt8.ofNat (f (l / 2) / (2 ^ 8) ^ (l % 2))

def ofDwords (f : ℕ → ℕ) : Register n := ofWords fun j => f (j / 2) / (2 ^ 16) ^ (j % 2)

def topBits (x : Register n) : ℕ := Nat.ofBits fun l : Fin n => decide (128 ≤ (lane x l).toNat)

def quad (x : Register n) (j : ℕ) : Quad :=
  ⟨lane x (4 * j), lane x (4 * j + 1), lane x (4 * j + 2), lane x (4 * j + 3)⟩

end Operations

section Lanes
variable {n : ℕ}

theorem lane_ofLanes (f : ℕ → UInt8) {l : ℕ} (h : l < n) : lane (ofLanes f : Register n) l = f l := by
  unfold lane ofLanes
  rw [Vector.getElem?_eq_getElem h, Option.getD_some, Vector.getElem_ofFn]

theorem lane_ofBytes (bytes : List UInt8) {l : ℕ} (h : l < n) :
    lane (ofBytes bytes : Register n) l = bytes.getD l 0 := lane_ofLanes _ h

theorem lane_splat (b : UInt8) {l : ℕ} (h : l < n) : lane (splat b : Register n) l = b :=
  lane_ofLanes _ h

theorem lane_map (f : UInt8 → UInt8) (x : Register n) {l : ℕ} (h : l < n) :
    lane (map f x) l = f (lane x l) := lane_ofLanes _ h

theorem lane_zip (f : UInt8 → UInt8 → UInt8) (x y : Register n) {l : ℕ} (h : l < n) :
    lane (zip f x y) l = f (lane x l) (lane y l) := lane_ofLanes _ h

theorem lane_select (mask x y : Register n) {l : ℕ} (h : l < n) :
    lane (select mask x y) l = selectByte (lane mask l) (lane x l) (lane y l) := lane_ofLanes _ h

theorem toList_getD (x : Register n) (l : ℕ) : x.toList.getD l 0 = lane x l := by
  unfold lane
  rw [List.getD_eq_getElem?_getD, Vector.getElem?_toList]

theorem topBits_all (x : Register n) (h : topBits x = 2 ^ n - 1) {l : ℕ} (hl : l < n) :
    128 ≤ (lane x l).toNat := by
  have hbit := congrArg (Nat.testBit · l) h
  simp only [topBits, Nat.testBit_ofBits_lt _ _ hl, Nat.testBit_two_pow_sub_one, hl,
    decide_true, decide_eq_true_eq] at hbit
  exact hbit

end Lanes

section Quads
variable {n j : ℕ}

theorem quad_zip (f : UInt8 → UInt8 → UInt8) (x y : Register n) (h : 4 * j + 4 ≤ n) :
    quad (zip f x y) j = (quad x j).zip f (quad y j) := by
  unfold quad
  rw [lane_zip f x y (by omega), lane_zip f x y (by omega), lane_zip f x y (by omega),
    lane_zip f x y (by omega)]
  rfl

theorem quad_ofWords (f : ℕ → ℕ) (h : 4 * j + 4 ≤ n) :
    quad (ofWords f : Register n) j = Quad.ofWords (f (2 * j)) (f (2 * j + 1)) := by
  unfold quad ofWords Quad.ofWords
  rw [lane_ofLanes _ (by omega), lane_ofLanes _ (by omega), lane_ofLanes _ (by omega),
    lane_ofLanes _ (by omega), show 4 * j / 2 = 2 * j by omega, show 4 * j % 2 = 0 by omega,
    show (4 * j + 1) / 2 = 2 * j by omega, show (4 * j + 1) % 2 = 1 by omega,
    show (4 * j + 2) / 2 = 2 * j + 1 by omega, show (4 * j + 2) % 2 = 0 by omega,
    show (4 * j + 3) / 2 = 2 * j + 1 by omega, show (4 * j + 3) % 2 = 1 by omega, pow_zero,
    pow_one, Nat.div_one, Nat.div_one]

theorem quad_ofDwords (f : ℕ → ℕ) (h : 4 * j + 4 ≤ n) :
    quad (ofDwords f : Register n) j = Quad.ofValue (f j) := by
  unfold ofDwords Quad.ofValue
  rw [quad_ofWords _ h, show 2 * j / 2 = j by omega, show 2 * j % 2 = 0 by omega,
    show (2 * j + 1) / 2 = j by omega, show (2 * j + 1) % 2 = 1 by omega, pow_zero, pow_one,
    Nat.div_one]

theorem word_even (x : Register n) (j : ℕ) : word x (2 * j) = (quad x j).low := by
  unfold word quad Quad.low
  rw [show 2 * (2 * j) = 4 * j by omega]

theorem word_odd (x : Register n) (j : ℕ) : word x (2 * j + 1) = (quad x j).high := by
  unfold word quad Quad.high
  rw [show 2 * (2 * j + 1) = 4 * j + 2 by omega]

theorem dword_eq (x : Register n) (j : ℕ) : dword x j = (quad x j).value := by
  unfold dword Quad.value
  rw [word_even, word_odd]

theorem ofValue_value (q : Quad) : Quad.ofValue q.value = q := by
  have h₀ := q.b0.toNat_lt
  have h₁ := q.b1.toNat_lt
  have h₂ := q.b2.toNat_lt
  have h₃ := q.b3.toNat_lt
  unfold Quad.ofValue Quad.ofWords Quad.value Quad.low Quad.high
  ext
  · rw [UInt8.toNat_ofNat']
    omega
  · rw [UInt8.toNat_ofNat']
    omega
  · rw [UInt8.toNat_ofNat']
    omega
  · rw [UInt8.toNat_ofNat']
    omega

theorem low_ofWords (low high : ℕ) : (Quad.ofWords low high).low = low % 2 ^ 16 := by
  unfold Quad.ofWords Quad.low
  rw [UInt8.toNat_ofNat', UInt8.toNat_ofNat']
  omega

theorem high_ofWords (low high : ℕ) : (Quad.ofWords low high).high = high % 2 ^ 16 := by
  unfold Quad.ofWords Quad.high
  rw [UInt8.toNat_ofNat', UInt8.toNat_ofNat']
  omega

theorem value_ofValue (v : ℕ) : (Quad.ofValue v).value = v % 2 ^ 32 := by
  unfold Quad.ofValue Quad.value
  rw [low_ofWords, high_ofWords]
  omega

/-- Four bytes are those of any number that they are congruent to. -/
theorem ofValue_eq {v : ℕ} {q : Quad} (h : v % 2 ^ 32 = q.value) : Quad.ofValue v = q := by
  rw [← ofValue_value q, ← h]
  unfold Quad.ofValue Quad.ofWords
  ext
  · rw [UInt8.toNat_ofNat', UInt8.toNat_ofNat']
    omega
  · rw [UInt8.toNat_ofNat', UInt8.toNat_ofNat']
    omega
  · rw [UInt8.toNat_ofNat', UInt8.toNat_ofNat']
    omega
  · rw [UInt8.toNat_ofNat', UInt8.toNat_ofNat']
    omega

theorem lane_of_quad {x y : Register n} {k : ℕ} (h : quad x j = quad y k) (t : ℕ) (ht : t < 4) :
    lane x (4 * j + t) = lane y (4 * k + t) := by
  rw [quad, quad, Quad.mk.injEq] at h
  obtain ⟨h₀, h₁, h₂, h₃⟩ := h
  interval_cases t
  · exact h₀
  · exact h₁
  · exact h₂
  · exact h₃

end Quads

section Arithmetic

theorem ofNat_toNat (v : ℕ) : (UInt8.ofNat v).toNat = v % 2 ^ 8 := UInt8.toNat_ofNat'

/-- A mask of `w` bits from bit `k` on keeps a field of a byte in its place. -/
theorem and_field (b : UInt8) (k w : ℕ) (h : k + w ≤ 8) :
    (b &&& UInt8.ofNat ((2 ^ w - 1) * 2 ^ k)).toNat = b.toNat / 2 ^ k % 2 ^ w * 2 ^ k := by
  have hmask : (2 ^ w - 1) * 2 ^ k < 2 ^ 8 := by
    have hpow : 2 ^ w * 2 ^ k ≤ 2 ^ 8 := by
      rw [← pow_add]
      exact Nat.pow_le_pow_right (by omega) (by omega)
    have hk : 0 < 2 ^ k := Nat.two_pow_pos k
    rw [Nat.sub_mul]
    omega
  rw [UInt8.toNat_and, ofNat_toNat, Nat.mod_eq_of_lt hmask]
  apply Nat.eq_of_testBit_eq
  intro i
  rw [Nat.testBit_and, Nat.testBit_mul_two_pow, Nat.testBit_mul_two_pow,
    Nat.testBit_two_pow_sub_one, Nat.testBit_mod_two_pow, Nat.testBit_div_two_pow]
  by_cases hi : k ≤ i
  · rw [Nat.sub_add_cancel hi, decide_eq_true hi, Bool.true_and, Bool.true_and, Bool.and_comm]
  · rw [decide_eq_false hi, Bool.false_and, Bool.false_and, Bool.and_false]

theorem shiftRight_toNat (b : UInt8) (k : ℕ) (h : k < 8) :
    (b >>> UInt8.ofNat k).toNat = b.toNat / 2 ^ k := by
  rw [UInt8.toNat_shiftRight, ofNat_toNat, show k % 2 ^ 8 % 8 = k by omega,
    Nat.shiftRight_eq_div_pow]

theorem shiftLeft_toNat (b : UInt8) (k : ℕ) (h : k < 8) :
    (b <<< UInt8.ofNat k).toNat = b.toNat * 2 ^ k % 2 ^ 8 := by
  rw [UInt8.toNat_shiftLeft, ofNat_toNat, show k % 2 ^ 8 % 8 = k by omega, Nat.shiftLeft_eq]

/-- Bytes with no bit in common: the bits of `y` are below those of `x`. -/
theorem or_toNat (x y : UInt8) (k : ℕ) (hx : 2 ^ k ∣ x.toNat) (hy : y.toNat < 2 ^ k) :
    (x ||| y).toNat = x.toNat + y.toNat := by
  obtain ⟨m, hm⟩ := hx
  rw [UInt8.toNat_or, hm, Nat.two_pow_add_eq_or_of_lt hy]

end Arithmetic

end Argon2Rust.ByteLanes
