import Argon2Rust.Hash

set_option autoImplicit false

namespace Argon2Rust.PreimageEncoding
open Bytes Parameters Hash

theorem le32_length (x : UInt32) : (le32 x).length = 4 := rfl

theorem toNat_eq_bytes (n : ℕ) (hn : n < 2 ^ 32) :
    n = n % 256 + 256 * (n / 2 ^ 8 % 256) + 65536 * (n / 2 ^ 16 % 256) +
      16777216 * (n / 2 ^ 24 % 256) := by
  omega

theorem le32_injective {x y : UInt32} (h : le32 x = le32 y) : x = y := by
  simp only [le32, List.cons.injEq, and_true] at h
  obtain ⟨h0, h1, h2, h3⟩ := h
  have e0 : x.toNat % 256 = y.toNat % 256 := by
    simpa only [UInt32.toNat_toUInt8] using congrArg UInt8.toNat h0
  have e1 : x.toNat / 2 ^ 8 % 256 = y.toNat / 2 ^ 8 % 256 := by
    rw [← byte_toNat x 8 (by decide), ← byte_toNat y 8 (by decide)]
    exact congrArg UInt8.toNat h1
  have e2 : x.toNat / 2 ^ 16 % 256 = y.toNat / 2 ^ 16 % 256 := by
    rw [← byte_toNat x 16 (by decide), ← byte_toNat y 16 (by decide)]
    exact congrArg UInt8.toNat h2
  have e3 : x.toNat / 2 ^ 24 % 256 = y.toNat / 2 ^ 24 % 256 := by
    rw [← byte_toNat x 24 (by decide), ← byte_toNat y 24 (by decide)]
    exact congrArg UInt8.toNat h3
  rw [← UInt32.toNat_inj, toNat_eq_bytes x.toNat x.toNat_lt, e0, e1, e2, e3,
    ← toNat_eq_bytes y.toNat y.toNat_lt]

theorem word_append_inj {x y : UInt32} {r s : List UInt8} (h : le32 x ++ r = le32 y ++ s) :
    x = y ∧ r = s := by
  obtain ⟨hw, hr⟩ := List.append_inj h (by rw [le32_length, le32_length])
  exact ⟨le32_injective hw, hr⟩

theorem length_eq_of_cast {m n : ℕ} (hm : m ≤ 0xFFFFFFFF) (hn : n ≤ 0xFFFFFFFF)
    (h : UInt32.ofNat m = UInt32.ofNat n) : m = n := by
  have e := congrArg UInt32.toNat h
  rwa [UInt32.toNat_ofNat_of_lt' (by rw [UInt32.size]; omega),
    UInt32.toNat_ofNat_of_lt' (by rw [UInt32.size]; omega)] at e

/-- A byte string behind its length ends where the length says, whatever follows. -/
theorem field_append_inj {a b r s : List UInt8} (ha : a.length ≤ 0xFFFFFFFF)
    (hb : b.length ≤ 0xFFFFFFFF)
    (h : lengthBytes a ++ (a ++ r) = lengthBytes b ++ (b ++ s)) : a = b ∧ r = s := by
  obtain ⟨hw, hr⟩ := word_append_inj h
  exact List.append_inj hr (length_eq_of_cast ha hb hw)

section Preimage
variable {w : PointerWidth}

/-- The bytes that `initial_hash_into` feeds to BLAKE2b. -/
def preimage (algorithm : Algorithm) (version : Version) (p : Params w) (x : Inputs) :
    List UInt8 :=
  (initialHashPieces algorithm version p x).flatten

def SameUpToThreads (p q : Params w) : Prop :=
  p.lanes = q.lanes ∧ p.outputLen = q.outputLen ∧ p.mCost = q.mCost ∧ p.tCost = q.tCost

theorem asU32_injective {a a' : Algorithm} (h : a.asU32 = a'.asU32) : a = a' := by
  cases a <;> cases a' <;> first | rfl | cases h

theorem version_asU32_injective {v v' : Version} (h : v.asU32 = v'.asU32) : v = v' := by
  cases v <;> cases v' <;> first | rfl | cases h

theorem tagLenBytes_cast (p : Params w) : UInt32.ofNat p.tagLenBytes = p.outputLen :=
  UInt32.ofNat_toNat

variable (a a' : Algorithm) (v v' : Version) (p q : Params w) (x y : Inputs)

theorem preimage_eq :
    preimage a v p x = le32 p.lanes ++ (le32 p.outputLen ++ (le32 p.mCost ++ (le32 p.tCost ++
      (le32 v.asU32 ++ (le32 a.asU32 ++ (lengthBytes x.pwd ++ (x.pwd ++ (lengthBytes x.salt ++
        (x.salt ++ (lengthBytes x.secret ++ (x.secret ++ (lengthBytes x.ad ++ (x.ad ++
          []))))))))))))) := by
  rw [preimage, initialHashPieces, tagLenBytes_cast]
  rfl

theorem preimage_congr (h : SameUpToThreads p q) : preimage a v p x = preimage a v q x := by
  obtain ⟨hl, ho, hm, ht⟩ := h
  rw [preimage_eq, preimage_eq, hl, ho, hm, ht]

/-- Two accepted tuples share a preimage only if they agree in everything but the
thread budget, and then they do. -/
theorem preimage_inj
    (hx : p.validateFor x.pwd.length x.salt.length x.secret.length x.ad.length = .ok ())
    (hy : q.validateFor y.pwd.length y.salt.length y.secret.length y.ad.length = .ok ()) :
    preimage a v p x = preimage a' v' q y ↔
      a = a' ∧ v = v' ∧ SameUpToThreads p q ∧ x = y := by
  have okx := (p.validateFor_ok_iff _ _ _ _).mp hx
  have oky := (q.validateFor_ok_iff _ _ _ _).mp hy
  constructor
  · intro h
    rw [preimage_eq, preimage_eq] at h
    obtain ⟨hlanes, h⟩ := word_append_inj h
    obtain ⟨hout, h⟩ := word_append_inj h
    obtain ⟨hmem, h⟩ := word_append_inj h
    obtain ⟨htime, h⟩ := word_append_inj h
    obtain ⟨hversion, h⟩ := word_append_inj h
    obtain ⟨halgorithm, h⟩ := word_append_inj h
    obtain ⟨hpwd, h⟩ := field_append_inj okx.pwd_le oky.pwd_le h
    obtain ⟨hsalt, h⟩ := field_append_inj okx.salt_le oky.salt_le h
    obtain ⟨hsecret, h⟩ := field_append_inj okx.secret_le oky.secret_le h
    obtain ⟨had, -⟩ := field_append_inj okx.ad_le oky.ad_le h
    refine ⟨asU32_injective halgorithm, version_asU32_injective hversion,
      ⟨hlanes, hout, hmem, htime⟩, ?_⟩
    cases x
    cases y
    rw [Inputs.mk.injEq]
    exact ⟨hpwd, hsalt, hsecret, had⟩
  · rintro ⟨rfl, rfl, hpq, rfl⟩
    exact preimage_congr a v p q x hpq

theorem preimage_inj_witness :
    preimage .argon2id .v0x13 Params.least ⟨[1], List.replicate 8 0, [], []⟩ ≠
      preimage .argon2id .v0x13 Params.least ⟨[], 1 :: List.replicate 8 0, [], []⟩ := by
  intro h
  have e := (preimage_inj .argon2id .argon2id .v0x13 .v0x13 Params.least Params.least
    ⟨[1], List.replicate 8 0, [], []⟩ ⟨[], 1 :: List.replicate 8 0, [], []⟩ (by decide)
    (by decide)).mp h
  exact absurd e.2.2.2 (by simp)

end Preimage

end Argon2Rust.PreimageEncoding
