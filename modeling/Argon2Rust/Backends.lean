import Argon2Rust.Base64Targets
import Argon2Rust.Blake2Backends
import Argon2Rust.RelaxedCell
import Argon2Rust.SegmentLoops

set_option autoImplicit false

/-!
# Which backend runs

The three detections (the fill, BLAKE2b, Base64) and the probe for SSSE3, each with
the relaxed cell that caches its answer. What is compiled is a part of the platform
as much as what the CPU reports. The shootout between NEON and the scalar code is
timed, so two threads may disagree about its outcome.
-/
namespace Argon2Rust.Backends
open Parameters Segment IndexAlpha Base64Blocks Base64Targets Blake2 Blake2Backends RelaxedCell
  SegmentLoops RegisterBlock

inductive TargetArch where
  | x86
  | x8664
  | aarch64
  | wasm32
  | other
  deriving DecidableEq, Repr

inductive Feature where
  | sse2
  | ssse3
  | sse41
  | avx2
  | avx512f
  | avx512vl
  | neon
  | sha3
  | simd128
  deriving DecidableEq, Repr

/-- What the crate is compiled for, and what the machine answers at run time. -/
structure Platform where
  arch : TargetArch
  std : Bool
  miri : Bool
  debugAssertions : Bool
  /-- `target_vendor = "apple"` or `target_os = "windows"`. -/
  appleOrWindows : Bool
  macos : Bool
  enabled : Feature → Bool
  reported : Feature → Bool
  /-- `sysctl.proc_translated`. -/
  translated : Bool

/-- What detection may rely on: code runs where it was compiled for, and CPUs do not boast. -/
structure Platform.Honest (p : Platform) (executes : Feature → Prop) : Prop where
  enabled : ∀ f, p.enabled f = true → executes f
  reported : ∀ f, p.reported f = true → executes f
  baseline : p.arch = .aarch64 → p.appleOrWindows = true → executes .neon

section Probes
variable (p : Platform)

/-- `is_x86_feature_detected!` and `is_aarch64_feature_detected!`. -/
def isFeatureDetected (f : Feature) : Bool := p.enabled f || p.reported f

/-- A probe of the right architecture: at run time with `std`, else at compile time. -/
def probe (f : Feature) : Bool := if p.std then isFeatureDetected p f else p.enabled f

def isX86 : Bool := p.arch == .x86 || p.arch == .x8664

def haveAvx512f : Bool := p.arch == .x8664 && probe p .avx512f

def haveAvx2 : Bool := p.arch == .x8664 && probe p .avx2

def haveSse2 : Bool := isX86 p && probe p .sse2

def haveNeon : Bool :=
  if p.std && p.arch == .aarch64 then p.appleOrWindows || isFeatureDetected p .neon
  else p.arch == .aarch64 && p.enabled .neon

def haveWasmSimd128 : Bool := p.arch == .wasm32 && p.enabled .simd128

def probeSsse3 : Bool := probe p .ssse3

/-- Where the timed shootout between the scalar code and NEON is compiled. -/
def shootout : Bool :=
  p.std && p.arch == .aarch64 && !p.miri && !p.debugAssertions && !p.appleOrWindows

/-- `faster` is how the shootout ends, where there is one. -/
def neonWinsHere (faster : Bool) : Bool := if shootout p then faster else true

end Probes

inductive Backend where
  | scalar
  | neon
  | sse2
  | avx2
  | avx512
  | wasm128
  deriving DecidableEq, Repr

def Backend.toU8 : Backend → UInt8
  | .scalar => 0
  | .neon => 1
  | .sse2 => 2
  | .avx2 => 3
  | .avx512 => 4
  | .wasm128 => 5

def Backend.fromU8 (value : UInt8) : Backend :=
  if value = 1 then .neon else if value = 2 then .sse2 else if value = 3 then .avx2
  else if value = 4 then .avx512 else if value = 5 then .wasm128 else .scalar

def Backend.isAvailable (p : Platform) : Backend → Bool
  | .scalar => true
  | .neon => haveNeon p
  | .sse2 => haveSse2 p
  | .avx2 => haveAvx2 p
  | .avx512 => haveAvx512f p
  | .wasm128 => haveWasmSimd128 p

def detect (p : Platform) (faster : Bool) : Backend :=
  if p.miri then .scalar
  else if haveAvx512f p then .avx512
  else if haveAvx2 p then .avx2
  else if haveSse2 p then .sse2
  else if haveNeon p && neonWinsHere p faster then .neon
  else if haveWasmSimd128 p then .wasm128
  else .scalar

section Fill
variable (p : Platform) (haveSsse3 : Bool) (uninit : Registers 2 64)

def fillSegmentFn : Backend → Instance → Position → Arena → Arena
  | .scalar => Segment.fillSegment
  | .neon =>
    if p.arch = .aarch64 then Neon.fillSegment (p.enabled .sha3) uninit else Segment.fillSegment
  | .sse2 => if isX86 p then Sse2.fillSegment haveSsse3 else Segment.fillSegment
  | .avx2 => if p.arch = .x8664 then Avx2.fillSegment else Segment.fillSegment
  | .avx512 => if p.arch = .x8664 then Avx512.fillSegment else Segment.fillSegment
  | .wasm128 =>
    if p.arch = .wasm32 ∧ p.enabled .simd128 = true then Wasm128.fillSegment
    else Segment.fillSegment

def segmentLoop : Backend → SegmentLoop
  | .scalar => scalarLoop
  | .neon => if p.arch = .aarch64 then neonLoop (p.enabled .sha3) uninit else scalarLoop
  | .sse2 => if isX86 p then sse2Loop haveSsse3 else scalarLoop
  | .avx2 => if p.arch = .x8664 then avx2Loop else scalarLoop
  | .avx512 => if p.arch = .x8664 then avx512Loop else scalarLoop
  | .wasm128 =>
    if p.arch = .wasm32 ∧ p.enabled .simd128 = true then wasm128Loop else scalarLoop

def fillSegmentFeatures : Backend → List Feature
  | .scalar => []
  | .neon =>
    if p.arch = .aarch64 then if p.enabled .sha3 then [.neon, .sha3] else [.neon] else []
  | .sse2 => if isX86 p then if haveSsse3 then [.sse2, .ssse3] else [.sse2] else []
  | .avx2 => if p.arch = .x8664 then [.avx2] else []
  | .avx512 => if p.arch = .x8664 then [.avx512f] else []
  | .wasm128 => if p.arch = .wasm32 ∧ p.enabled .simd128 = true then [.simd128] else []

theorem segmentLoop_fillSegment (backend : Backend) (inst : Instance) (pos : Position) :
    (segmentLoop p haveSsse3 uninit backend).fillSegment inst pos =
      fillSegmentFn p haveSsse3 uninit backend inst pos := by
  cases backend with
  | scalar => exact scalarLoop_fillSegment inst pos
  | neon =>
    dsimp only [segmentLoop, fillSegmentFn]
    split_ifs
    · exact neonLoop_fillSegment inst pos _ uninit
    · exact scalarLoop_fillSegment inst pos
  | sse2 =>
    dsimp only [segmentLoop, fillSegmentFn]
    split_ifs
    · exact sse2Loop_fillSegment inst pos haveSsse3
    · exact scalarLoop_fillSegment inst pos
  | avx2 =>
    dsimp only [segmentLoop, fillSegmentFn]
    split_ifs
    · exact avx2Loop_fillSegment inst pos
    · exact scalarLoop_fillSegment inst pos
  | avx512 =>
    dsimp only [segmentLoop, fillSegmentFn]
    split_ifs
    · exact avx512Loop_fillSegment inst pos
    · exact scalarLoop_fillSegment inst pos
  | wasm128 =>
    dsimp only [segmentLoop, fillSegmentFn]
    split_ifs
    · exact wasm128Loop_fillSegment inst pos
    · exact scalarLoop_fillSegment inst pos

theorem segmentLoop_lawful (backend : Backend) {inst : Instance} (wf : WellFormed inst) :
    (segmentLoop p haveSsse3 uninit backend).Lawful inst := by
  cases backend with
  | scalar => exact scalar_lawful
  | neon =>
    dsimp only [segmentLoop]
    split_ifs
    · exact neon_lawful wf _ uninit
    · exact scalar_lawful
  | sse2 =>
    dsimp only [segmentLoop]
    split_ifs
    · exact sse2_lawful wf haveSsse3
    · exact scalar_lawful
  | avx2 =>
    dsimp only [segmentLoop]
    split_ifs
    · exact avx2_lawful wf
    · exact scalar_lawful
  | avx512 =>
    dsimp only [segmentLoop]
    split_ifs
    · exact avx512_lawful wf
    · exact scalar_lawful
  | wasm128 =>
    dsimp only [segmentLoop]
    split_ifs
    · exact wasm128_lawful
    · exact scalar_lawful

end Fill

section Blake2b
variable (p : Platform)

def haveSse41 : Bool := probe p .sse41

def preferSse41 : Bool :=
  if p.std && p.arch == .x8664 && p.macos then haveSse41 p && !p.translated else haveSse41 p

def haveAvx512vl : Bool := probe p .avx2 && probe p .avx512f && probe p .avx512vl

def blake2bToU8 : Blake2bBackend → UInt8
  | .scalar => 0
  | .sse41 => 1
  | .avx2 => 2
  | .avx512 => 3

def blake2bFromU8 (value : UInt8) : Blake2bBackend :=
  if value = 1 then .sse41 else if value = 2 then .avx2 else if value = 3 then .avx512 else .scalar

/-- The accelerated backends exist on x86 only. -/
def blake2bIsAvailable : Blake2bBackend → Bool
  | .scalar => true
  | .sse41 => isX86 p && haveSse41 p
  | .avx2 => isX86 p && probe p .avx2
  | .avx512 => isX86 p && haveAvx512vl p

def detectBlake2bBackend : Blake2bBackend :=
  if p.miri then .scalar
  else if isX86 p && haveAvx512vl p then .avx512
  else if isX86 p && probe p .avx2 then .avx2
  else if isX86 p && preferSse41 p then .sse41
  else .scalar

def blake2bFeatures : Blake2bBackend → List Feature
  | .scalar => []
  | .sse41 => [.sse41]
  | .avx2 => [.avx2]
  | .avx512 => [.avx2, .avx512f, .avx512vl]

end Blake2b

section Base64
variable (p : Platform)

def haveSsse3 : Bool := isX86 p && probe p .ssse3

def base64HaveAvx2 : Bool := isX86 p && probe p .avx2

def base64ToU8 : Base64Backend → UInt8
  | .scalar => 0
  | .neon => 1
  | .ssse3 => 2
  | .avx2 => 3
  | .wasm128 => 4

def base64FromU8 (value : UInt8) : Base64Backend :=
  if value = 1 then .neon else if value = 2 then .ssse3 else if value = 3 then .avx2
  else if value = 4 then .wasm128 else .scalar

def base64IsAvailable : Base64Backend → Bool
  | .scalar => true
  | .neon => haveNeon p
  | .ssse3 => haveSsse3 p
  | .avx2 => base64HaveAvx2 p && haveSsse3 p
  | .wasm128 => haveWasmSimd128 p

def detectBase64Backend : Base64Backend :=
  if p.miri then .scalar
  else if base64HaveAvx2 p && haveSsse3 p then .avx2
  else if haveSsse3 p then .ssse3
  else if haveNeon p then .neon
  else if haveWasmSimd128 p then .wasm128
  else .scalar

/-- The AVX2 entry points finish with the SSSE3 kernel. -/
def base64Features : Base64Backend → List Feature
  | .scalar => []
  | .neon => [.neon]
  | .ssse3 => [.ssse3]
  | .avx2 => [.avx2, .ssse3]
  | .wasm128 => [.simd128]

def architecture : Architecture :=
  match p.arch with
  | .x86 | .x8664 => .x86
  | .aarch64 => .aarch64
  | .wasm32 => if p.enabled .simd128 then .wasm32 else .other
  | .other => .other

end Base64

section Caches

theorem fromU8_toU8 (backend : Backend) : Backend.fromU8 backend.toU8 = backend := by
  cases backend <;> rfl

theorem toU8_ne (backend : Backend) : backend.toU8 ≠ 0xFF := by
  cases backend <;> decide

theorem blake2bFromU8_toU8 (backend : Blake2bBackend) :
    blake2bFromU8 (blake2bToU8 backend) = backend := by
  cases backend <;> rfl

theorem blake2bToU8_ne (backend : Blake2bBackend) : blake2bToU8 backend ≠ 0xFF := by
  cases backend <;> decide

theorem base64FromU8_toU8 (backend : Base64Backend) :
    base64FromU8 (base64ToU8 backend) = backend := by
  cases backend <;> rfl

theorem base64ToU8_ne (backend : Base64Backend) : base64ToU8 backend ≠ 0xFF := by
  cases backend <;> decide

/-- A cache with the sentinel `0xFF`, over the numbering of an enumeration. -/
def sentinelCell {Value : Type} (toU8 : Value → UInt8) (fromU8 : UInt8 → Value)
    (hround : ∀ v, fromU8 (toU8 v) = v) (hne : ∀ v, toU8 v ≠ 0xFF) : Encoding UInt8 Value where
  initial := 0xFF
  encode := toU8
  decode b := if b = 0xFF then none else some (fromU8 b)
  decode_initial := if_pos rfl
  decode_encode v := (if_neg (hne v)).trans (congrArg some (hround v))

def cachedBackend : Encoding UInt8 Backend :=
  sentinelCell Backend.toU8 Backend.fromU8 fromU8_toU8 toU8_ne

def detectedBlake2bBackend : Encoding UInt8 Blake2bBackend :=
  sentinelCell blake2bToU8 blake2bFromU8 blake2bFromU8_toU8 blake2bToU8_ne

def cachedBase64Backend : Encoding UInt8 Base64Backend :=
  sentinelCell base64ToU8 base64FromU8 base64FromU8_toU8 base64ToU8_ne

def ssse3Decode (b : UInt8) : Option Bool :=
  if b = 0 then some false else if b = 1 then some true else none

theorem ssse3Decode_encode (found : Bool) : ssse3Decode (if found then 1 else 0) = some found := by
  cases found <;> rfl

def ssse3Cache : Encoding UInt8 Bool where
  initial := 0xFF
  encode found := if found then 1 else 0
  decode := ssse3Decode
  decode_initial := rfl
  decode_encode := ssse3Decode_encode

end Caches

section Soundness
variable {p : Platform} {executes : Feature → Prop}

theorem detect_available (faster : Bool) : (detect p faster).isAvailable p = true := by
  unfold detect
  split_ifs with hmiri h512 h2 hsse hneon hwasm
  · rfl
  · exact h512
  · exact h2
  · exact hsse
  · exact (Bool.and_eq_true_iff.mp hneon).1
  · exact hwasm
  · rfl

theorem detectBlake2bBackend_available : blake2bIsAvailable p (detectBlake2bBackend p) = true := by
  unfold detectBlake2bBackend
  split_ifs with hmiri h512 h2 hsse
  · rfl
  · exact h512
  · exact h2
  · obtain ⟨hx86, hprefer⟩ := Bool.and_eq_true_iff.mp hsse
    refine Bool.and_eq_true_iff.mpr ⟨hx86, ?_⟩
    unfold preferSse41 at hprefer
    split_ifs at hprefer
    · exact (Bool.and_eq_true_iff.mp hprefer).1
    · exact hprefer
  · rfl

theorem detectBase64Backend_available : base64IsAvailable p (detectBase64Backend p) = true := by
  unfold detectBase64Backend
  split_ifs with hmiri h2 hssse3 hneon hwasm
  · rfl
  · exact h2
  · exact hssse3
  · exact hneon
  · exact hwasm
  · rfl

variable (honest : p.Honest executes)
include honest

theorem executes_detected {f : Feature} (h : isFeatureDetected p f = true) : executes f := by
  rcases Bool.or_eq_true_iff.mp h with h | h
  · exact honest.enabled f h
  · exact honest.reported f h

theorem executes_probe {f : Feature} (h : probe p f = true) : executes f := by
  unfold probe at h
  split_ifs at h
  · exact executes_detected honest h
  · exact honest.enabled f h

theorem executes_neon (h : haveNeon p = true) : executes .neon := by
  unfold haveNeon at h
  split_ifs at h with hstd
  · rcases Bool.or_eq_true_iff.mp h with hbase | hdetected
    · exact honest.baseline (beq_iff_eq.mp (Bool.and_eq_true_iff.mp hstd).2) hbase
    · exact executes_detected honest hdetected
  · exact honest.enabled _ (Bool.and_eq_true_iff.mp h).2

theorem executes_fill {backend : Backend} (h : backend.isAvailable p = true) :
    ∀ f ∈ fillSegmentFeatures p (probeSsse3 p) backend, executes f := by
  intro f hf
  cases backend with
  | scalar => cases hf
  | neon =>
    have hneon := executes_neon honest h
    dsimp only [fillSegmentFeatures] at hf
    split_ifs at hf with _ hsha3
    · rcases List.mem_pair.mp hf with rfl | rfl
      · exact hneon
      · exact honest.enabled _ hsha3
    · cases List.mem_singleton.mp hf
      exact hneon
    · cases hf
  | sse2 =>
    have hsse2 := executes_probe honest (Bool.and_eq_true_iff.mp h).2
    dsimp only [fillSegmentFeatures] at hf
    split_ifs at hf with _ hssse3
    · rcases List.mem_pair.mp hf with rfl | rfl
      · exact hsse2
      · exact executes_probe honest hssse3
    · cases List.mem_singleton.mp hf
      exact hsse2
    · cases hf
  | avx2 =>
    dsimp only [fillSegmentFeatures] at hf
    split_ifs at hf
    · cases List.mem_singleton.mp hf
      exact executes_probe honest (Bool.and_eq_true_iff.mp h).2
    · cases hf
  | avx512 =>
    dsimp only [fillSegmentFeatures] at hf
    split_ifs at hf
    · cases List.mem_singleton.mp hf
      exact executes_probe honest (Bool.and_eq_true_iff.mp h).2
    · cases hf
  | wasm128 =>
    dsimp only [fillSegmentFeatures] at hf
    split_ifs at hf with hwasm
    · cases List.mem_singleton.mp hf
      exact honest.enabled _ hwasm.2
    · cases hf

theorem executes_blake2b {backend : Blake2bBackend} (h : blake2bIsAvailable p backend = true) :
    ∀ f ∈ blake2bFeatures backend, executes f := by
  intro f hf
  cases backend with
  | scalar => cases hf
  | sse41 =>
    cases List.mem_singleton.mp hf
    exact executes_probe honest (Bool.and_eq_true_iff.mp h).2
  | avx2 =>
    cases List.mem_singleton.mp hf
    exact executes_probe honest (Bool.and_eq_true_iff.mp h).2
  | avx512 =>
    obtain ⟨hboth, hvl⟩ := Bool.and_eq_true_iff.mp (Bool.and_eq_true_iff.mp h).2
    obtain ⟨h2, hf512⟩ := Bool.and_eq_true_iff.mp hboth
    rcases List.mem_cons.mp hf with rfl | hf
    · exact executes_probe honest h2
    · rcases List.mem_pair.mp hf with rfl | rfl
      · exact executes_probe honest hf512
      · exact executes_probe honest hvl

theorem executes_base64 {backend : Base64Backend} (h : base64IsAvailable p backend = true) :
    ∀ f ∈ base64Features backend, executes f := by
  intro f hf
  cases backend with
  | scalar => cases hf
  | neon =>
    cases List.mem_singleton.mp hf
    exact executes_neon honest h
  | ssse3 =>
    cases List.mem_singleton.mp hf
    exact executes_probe honest (Bool.and_eq_true_iff.mp h).2
  | avx2 =>
    obtain ⟨h2, hssse3⟩ := Bool.and_eq_true_iff.mp h
    rcases List.mem_pair.mp hf with rfl | rfl
    · exact executes_probe honest (Bool.and_eq_true_iff.mp h2).2
    · exact executes_probe honest (Bool.and_eq_true_iff.mp hssse3).2
  | wasm128 =>
    cases List.mem_singleton.mp hf
    exact honest.enabled _ (Bool.and_eq_true_iff.mp h).2

end Soundness

section Lookups
variable {Thread Time : Type} [DecidableEq Thread] [LinearOrder Time] [OrderBot Time]

/-- Whatever the threads of a process find in the caches, they call only code that the CPU can
execute; no thread detects twice, and without a shootout all find the same fill. -/
theorem cached_backends_execute {p : Platform} {executes : Feature → Prop}
    (honest : p.Honest executes) {fill : State Thread Time UInt8 Backend}
    (hfill : Reachable cachedBackend (fun b => ∃ faster, detect p faster = b) fill)
    {ssse3 : State Thread Time UInt8 Bool}
    (hssse3 : Reachable ssse3Cache (fun b => probeSsse3 p = b) ssse3)
    {blake2b : State Thread Time UInt8 Blake2bBackend}
    (hblake2b : Reachable detectedBlake2bBackend (fun b => detectBlake2bBackend p = b) blake2b)
    {base64 : State Thread Time UInt8 Base64Backend}
    (hbase64 : Reachable cachedBase64Backend (fun b => detectBase64Backend p = b) base64) :
    (∀ i backend, (i, backend) ∈ fill.returned → backend.isAvailable p = true ∧
      ∀ j found, (j, found) ∈ ssse3.returned →
        ∀ f ∈ fillSegmentFeatures p found backend, executes f) ∧
    (∀ i backend, (i, backend) ∈ blake2b.returned → ∀ f ∈ blake2bFeatures backend, executes f) ∧
    (∀ i backend, (i, backend) ∈ base64.returned → ∀ f ∈ base64Features backend, executes f) ∧
    ((fill.computed.map Prod.fst).Nodup ∧ (ssse3.computed.map Prod.fst).Nodup ∧
      (blake2b.computed.map Prod.fst).Nodup ∧ (base64.computed.map Prod.fst).Nodup) ∧
    (shootout p = false → ∀ i backend, (i, backend) ∈ fill.returned → backend = detect p true) := by
  refine ⟨?_, ?_, ?_, ⟨hfill.sound.once, hssse3.sound.once, hblake2b.sound.once,
    hbase64.sound.once⟩, ?_⟩
  · intro i backend h
    obtain ⟨faster, rfl⟩ := hfill.returned h
    refine ⟨detect_available faster, fun j found hfound => ?_⟩
    rw [← hssse3.returned hfound]
    exact executes_fill honest (detect_available faster)
  · intro i backend h
    rw [← hblake2b.returned h]
    exact executes_blake2b honest detectBlake2bBackend_available
  · intro i backend h
    rw [← hbase64.returned h]
    exact executes_base64 honest detectBase64Backend_available
  · intro hnone i backend h
    obtain ⟨faster, rfl⟩ := hfill.returned h
    unfold detect neonWinsHere
    rw [hnone]
    rfl

def avx2Machine : Platform where
  arch := .x8664
  std := true
  miri := false
  debugAssertions := false
  appleOrWindows := false
  macos := false
  enabled f := f == .sse2
  reported f := [Feature.sse2, .ssse3, .sse41, .avx2].contains f
  translated := false

theorem avx2Machine_honest :
    avx2Machine.Honest fun f => f ∈ [Feature.sse2, .ssse3, .sse41, .avx2] where
  enabled f h := by
    cases beq_iff_eq.mp h
    exact List.mem_cons_self
  reported f h := List.contains_iff_mem.mp h
  baseline := nofun

theorem cached_backends_execute_avx2 :
    ∃ fill : State Unit ℕ UInt8 Backend, ((), Backend.avx2) ∈ fill.returned ∧
      ∀ i backend, (i, backend) ∈ fill.returned → backend = detect avx2Machine true := by
  obtain ⟨fill, hfill, hmem⟩ := reachable_first cachedBackend
    (fun b => ∃ faster, detect avx2Machine faster = b) () ⟨true, rfl⟩ Nat.one_pos
  obtain ⟨ssse3, hssse3, -⟩ := reachable_first ssse3Cache
    (fun b => probeSsse3 avx2Machine = b) () rfl Nat.one_pos
  obtain ⟨blake2b, hblake2b, -⟩ := reachable_first detectedBlake2bBackend
    (fun b => detectBlake2bBackend avx2Machine = b) () rfl Nat.one_pos
  obtain ⟨base64, hbase64, -⟩ := reachable_first cachedBase64Backend
    (fun b => detectBase64Backend avx2Machine = b) () rfl Nat.one_pos
  exact ⟨fill, hmem, (cached_backends_execute avx2Machine_honest hfill hssse3 hblake2b
    hbase64).2.2.2.2 rfl⟩

end Lookups

end Argon2Rust.Backends
