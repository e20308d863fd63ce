import Argon2Rust.Base64

set_option autoImplicit false

namespace Argon2Rust.Base64Codec
open Parameters Sextets Cursor Base64

def encodeBase64 (host : Host) (src : List UInt8) : Except Error (List UInt8) := do
  let cap := wrapUsize host.width (b64LenUsize src.length + 1)
  reserveVec host cap
  let buf := toBase64Raw host.backend cap src
  let written ← buf.2
  .ok (buf.1.take written)

section
variable (host : Host)

theorem encodeBase64_eq (x : List UInt8)
    (hfits : b64LenUsize x.length + 1 < 2 ^ host.width.bits)
    (hres : reserveVec host (b64LenUsize x.length + 1) = .ok ()) :
    encodeBase64 host x = .ok (text x) := by
  have hwrap : wrapUsize host.width (b64LenUsize x.length + 1) = b64LenUsize x.length + 1 :=
    Nat.mod_eq_of_lt hfits
  unfold encodeBase64
  simp only [hwrap, hres, ok_bind, toBase64Raw_eq]
  rw [if_neg (by omega)]
  simp only [ok_bind, List.take_length]

/-- Encoding has the announced length and is inverted by decoding; a string decodes to
`x` exactly when it is the encoding of `x`; and a raw decode with room for its run
consumes that run, succeeding exactly on the encodings. -/
theorem base64_codec :
    (∀ x : List UInt8, b64LenUsize x.length + 1 < 2 ^ host.width.bits →
      reserveVec host (b64LenUsize x.length + 1) = .ok () →
        encodeBase64 host x = .ok (text x) ∧ (text x).length = b64LenUsize x.length ∧
          ((text x).length * 3 < 2 ^ host.width.bits → reserveVec host x.length = .ok () →
            decodeBase64 host (text x) = .ok x)) ∧
    (∀ s x : List UInt8, s.length * 3 < 2 ^ host.width.bits →
      reserveVec host (s.length * 3 / 4) = .ok () → b64LenUsize x.length + 1 < 2 ^ host.width.bits →
      reserveVec host (b64LenUsize x.length + 1) = .ok () →
        (decodeBase64 host s = .ok x ↔ encodeBase64 host x = .ok s)) ∧
    (∀ (dstLen : ℕ) (src : List UInt8), (src.takeWhile isAlphabet).length * 3 / 4 ≤ dstLen →
      (∀ written consumed,
        (fromBase64Raw host.backend dstLen src).2 = .ok (written, consumed) →
          consumed = (src.takeWhile isAlphabet).length) ∧
      ((∃ r, (fromBase64Raw host.backend dstLen src).2 = .ok r) ↔
        ∃ x, src.takeWhile isAlphabet = text x) ∧
      ∀ x, src.takeWhile isAlphabet = text x →
        fromBase64Raw host.backend dstLen src =
          (x, .ok (x.length, (src.takeWhile isAlphabet).length))) := by
  have hraw (dstLen : ℕ) (src x : List UInt8)
      (hroom : (src.takeWhile isAlphabet).length * 3 / 4 ≤ dstLen)
      (hx : src.takeWhile isAlphabet = text x) :
      fromBase64Raw host.backend dstLen src =
        (x, .ok (x.length, (src.takeWhile isAlphabet).length)) := by
    have hq := text_length_quarters x
    rw [hx] at hroom ⊢
    have h := @fromBase64Raw_text host.backend dstLen x (src.dropWhile isAlphabet)
      (stops_dropWhile src) (by omega)
    rwa [← hx, List.takeWhile_append_dropWhile, hx] at h
  refine ⟨fun x hfits hres => ?_, fun s x hs hsres hx hxres => ?_, fun dstLen src hroom => ?_⟩
  · refine ⟨encodeBase64_eq host x hfits hres, text_length x, fun h3 hback => ?_⟩
    exact (decodeBase64_ok_iff host _ _).mpr ⟨rfl, h3, by rwa [text_length_quarters]⟩
  · rw [decodeBase64_ok_iff, encodeBase64_eq host x hx hxres, Except.ok.injEq]
    exact ⟨fun h => h.1.symm, fun h => ⟨h.symm, hs, hsres⟩⟩
  · refine ⟨fun written consumed h => ?_, ⟨?_, ?_⟩, fun x hx => hraw dstLen src x hroom hx⟩
    · obtain ⟨bytes, hrun, -, heq⟩ := fromBase64Raw_ok host.backend src _ h
      rw [heq, Except.ok.injEq, Prod.mk.injEq] at h
      rw [hrun, h.2]
    · rintro ⟨r, hr⟩
      obtain ⟨bytes, hrun, -⟩ := fromBase64Raw_ok host.backend src r hr
      exact ⟨bytes, hrun⟩
    · rintro ⟨x, hx⟩
      exact ⟨_, by rw [hraw dstLen src x hroom hx]⟩

end

theorem base64_codec_three :
    encodeBase64 ⟨.bits64, .scalar, fun _ => true⟩ [1, 2, 3] = .ok (text [1, 2, 3]) ∧
      decodeBase64 ⟨.bits64, .scalar, fun _ => true⟩ (text [1, 2, 3]) = .ok [1, 2, 3] := by
  have h := (base64_codec ⟨.bits64, .scalar, fun _ => true⟩).1 [1, 2, 3] (by decide) (by decide)
  exact ⟨h.1, h.2.2 (by decide) (by decide)⟩

end Argon2Rust.Base64Codec
