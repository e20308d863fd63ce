import Argon2Rust.PooledAnswers

set_option autoImplicit false

/-!
# Entropy for salts

How each target fills a buffer with entropy of the system: the loops over
`getrandom` and `getentropy` with `/dev/urandom` behind them, and the sources that
answer at once. A salt that is returned is what the system delivered for it, byte
by byte, and it comes back out of the string of the hash.
-/
namespace Argon2Rust.Entropy
open Parameters Base64 Cursor Encoding Decoding DecodeString RoundTrip Blake2 Segment IndexAlpha
open Hash Verification OneShot TagCorrectness HashVerify

/-- `Error` with its variant for a missing salt. -/
inductive SaltError where
  | osRandom
  | other (e : Error)
  deriving DecidableEq

inductive Arch where
  | x86_64 (x32 : Bool)
  | x86 | aarch64 | riscv64 | riscv32 | loongarch64 | arm | powerpc | powerpc64 | s390x | other

inductive Os where
  | linux | android | macos | openbsd | ios | tvos | watchos | visionos | windows
  | wasi (p1 : Bool)
  | otherUnix | other
  deriving DecidableEq

structure Target where
  os : Os
  arch : Arch

/-- The number of the call, on the architectures that are listed. -/
def sysGetrandom : Arch → Option ℕ
  | .x86_64 x32 => if x32 then none else some 318
  | .x86 => some 355
  | .aarch64 | .riscv64 | .riscv32 | .loongarch64 => some 278
  | .arm => some 384
  | .powerpc | .powerpc64 => some 359
  | .s390x => some 349
  | .other => none

/-- What a call answers, and what it has written to the buffer it was given. -/
structure Reply where
  rc : ℤ
  errno : ℤ
  written : List UInt8

/-- The replies by the length that is asked for, one call after another where a loop calls.
`urandom` is the opening of the file and `read_exact`, which fills the buffer or fails. -/
structure System where
  getrandom : List (ℕ → Reply)
  getentropy : List (ℕ → Reply)
  ccRandomGenerateBytes : ℕ → Reply
  processPrng : ℕ → Reply
  randomGet : ℕ → Reply
  urandom : (len : ℕ) → Option (Vector UInt8 len)

abbrev Filled := Except SaltError (List UInt8)

section Source
variable (sys : System)

def readUrandom (len : ℕ) : Filled :=
  match sys.urandom len with
  | some bytes => .ok bytes.toList
  | none => .error .osRandom

def fillUrandom (buf : List UInt8) : Filled := readUrandom sys buf.length

def writeAt (buf : List UInt8) (done : ℕ) (bytes : List UInt8) : List UInt8 :=
  buf.take done ++ bytes ++ buf.drop (done + bytes.length)

inductive Verdict where
  | progress (n : ℕ)
  | refuse
  | again
  | fallback

def eintr : ℤ := 4

def judgeGetrandom (_chunk : ℕ) (reply : Reply) : Verdict :=
  if reply.rc > 0 then .progress reply.rc.toNat
  else if reply.rc = 0 then .refuse
  else if reply.errno = eintr then .again
  else .fallback

def judgeGetentropy (chunk : ℕ) (reply : Reply) : Verdict :=
  if reply.rc ≠ 0 then .fallback else .progress chunk

/-- The loop of both; it is still waiting where the replies have run out. -/
def fillLoop (ask : ℕ → ℕ) (judge : ℕ → Reply → Verdict) :
    List (ℕ → Reply) → List UInt8 → ℕ → Option Filled
  | [], buf, done => if done < buf.length then none else some (.ok buf)
  | call :: calls, buf, done =>
    if done < buf.length then
      let chunk := ask (buf.length - done)
      let reply := call chunk
      let buf := writeAt buf done reply.written
      match judge chunk reply with
      | .progress n => fillLoop ask judge calls buf (done + n)
      | .refuse => some (.error .osRandom)
      | .again => fillLoop ask judge calls buf done
      | .fallback => some (fillUrandom sys buf)
    else some (.ok buf)

def fillGetrandom (buf : List UInt8) : Option Filled :=
  fillLoop sys id judgeGetrandom sys.getrandom buf 0

/-- At most 256 bytes a call. -/
def fillGetentropy (buf : List UInt8) : Option Filled :=
  fillLoop sys (min · 256) judgeGetentropy sys.getentropy buf 0

def fillOnce (success : ℤ → Bool) (call : ℕ → Reply) (buf : List UInt8) : Filled :=
  let reply := call buf.length
  if success reply.rc then .ok (writeAt buf 0 reply.written) else .error .osRandom

def osRandom (t : Target) (buf : List UInt8) : Option Filled :=
  match t.os with
  | .linux | .android =>
    if (sysGetrandom t.arch).isSome then fillGetrandom sys buf else some (fillUrandom sys buf)
  | .macos | .openbsd => fillGetentropy sys buf
  | .ios | .tvos | .watchos | .visionos =>
    some (fillOnce (fun rc => rc = 0) sys.ccRandomGenerateBytes buf)
  | .windows => some (fillOnce (fun rc => rc ≠ 0) sys.processPrng buf)
  | .wasi true => some (fillOnce (fun rc => rc = 0) sys.randomGet buf)
  | .otherUnix => some (fillUrandom sys buf)
  | .wasi false | .other => some (.error .osRandom)

def randomSaltLen : ℕ := 16

def hashPasswordWithRandomSalt (host : Host) (compress : CompressFn)
    (fill : Instance → Arena → Except Error Arena) (t : Target)
    (argon2 : Argon2 host.width) (pwd : List UInt8) : Option Filled :=
  (osRandom sys t (List.replicate randomSaltLen 0)).map fun filled => do
    let salt ← filled
    (argon2.hashEncodedWithAd host compress fill ⟨pwd, salt, [], []⟩).mapError .other

end Source

section Loop
variable (ask : ℕ → ℕ) (judge : ℕ → Reply → Verdict)

/-- The bytes that the calls of a loop deliver for `n` of them, the interrupted calls left out. -/
inductive Delivered : List (ℕ → Reply) → ℕ → List UInt8 → Prop where
  | whole (calls : List (ℕ → Reply)) : Delivered calls 0 []
  | more {call : ℕ → Reply} {calls : List (ℕ → Reply)} {n k : ℕ} {rest : List UInt8} (hn : 0 < n)
      (h : judge (ask n) (call (ask n)) = .progress k) (tail : Delivered calls (n - k) rest) :
      Delivered (call :: calls) n ((call (ask n)).written ++ rest)
  | again {call : ℕ → Reply} {calls : List (ℕ → Reply)} {n : ℕ} {rest : List UInt8} (hn : 0 < n)
      (h : judge (ask n) (call (ask n)) = .again) (tail : Delivered calls n rest) :
      Delivered (call :: calls) n rest

/-- A call writes no more than it was asked for, and where it reports progress, so much. -/
def Keeps (calls : List (ℕ → Reply)) : Prop :=
  ∀ call ∈ calls, ∀ n, 0 < n → (call (ask n)).written.length ≤ n ∧
    ∀ k, judge (ask n) (call (ask n)) = .progress k → 0 < k ∧ (call (ask n)).written.length = k

end Loop

/-- The contracts of the calls. `getentropy` has one for 256 bytes at most. -/
structure Lawful (sys : System) : Prop where
  getrandom : ∀ call ∈ sys.getrandom, ∀ n, (call n).written.length ≤ n ∧
    (0 < (call n).rc → (call n).rc = (call n).written.length)
  getentropy : ∀ call ∈ sys.getentropy, ∀ n ≤ 256, (call n).written.length ≤ n ∧
    ((call n).rc = 0 → (call n).written.length = n)
  ccRandomGenerateBytes : ∀ n, (sys.ccRandomGenerateBytes n).rc = 0 →
    (sys.ccRandomGenerateBytes n).written.length = n
  processPrng : ∀ n, (sys.processPrng n).rc ≠ 0 → (sys.processPrng n).written.length = n
  randomGet : ∀ n, (sys.randomGet n).rc = 0 → (sys.randomGet n).written.length = n

inductive Supplied (sys : System) (t : Target) (n : ℕ) : List UInt8 → Prop where
  | urandom (hos : t.os ∈ [.linux, .android, .macos, .openbsd, .otherUnix])
      (bytes : Vector UInt8 n) (h : sys.urandom n = some bytes) : Supplied sys t n bytes.toList
  | getrandom {bytes : List UInt8} (hos : t.os ∈ [.linux, .android])
      (harch : (sysGetrandom t.arch).isSome)
      (h : Delivered id judgeGetrandom sys.getrandom n bytes) : Supplied sys t n bytes
  | getentropy {bytes : List UInt8} (hos : t.os ∈ [.macos, .openbsd])
      (h : Delivered (min · 256) judgeGetentropy sys.getentropy n bytes) : Supplied sys t n bytes
  | ccRandomGenerateBytes (hos : t.os ∈ [.ios, .tvos, .watchos, .visionos])
      (h : (sys.ccRandomGenerateBytes n).rc = 0) :
      Supplied sys t n (sys.ccRandomGenerateBytes n).written
  | processPrng (hos : t.os = .windows) (h : (sys.processPrng n).rc ≠ 0) :
      Supplied sys t n (sys.processPrng n).written
  | randomGet (hos : t.os = .wasi true) (h : (sys.randomGet n).rc = 0) :
      Supplied sys t n (sys.randomGet n).written

section Writes
variable {buf bytes : List UInt8} {done : ℕ}

theorem writeAt_length (h : done + bytes.length ≤ buf.length) :
    (writeAt buf done bytes).length = buf.length := by
  unfold writeAt
  rw [List.length_append, List.length_append, List.length_take, List.length_drop]
  omega

theorem take_writeAt_add (h : done ≤ buf.length) :
    (writeAt buf done bytes).take (done + bytes.length) = buf.take done ++ bytes := by
  have hlen : (buf.take done ++ bytes).length = done + bytes.length := by
    rw [List.length_append, List.length_take, Nat.min_eq_left h]
  unfold writeAt
  rw [← hlen, List.take_left]

theorem take_writeAt (h : done ≤ buf.length) :
    (writeAt buf done bytes).take done = buf.take done := by
  have hlen : (buf.take done).length = done := by rw [List.length_take, Nat.min_eq_left h]
  unfold writeAt
  rw [List.append_assoc]
  exact List.take_left' hlen

end Writes

section Loops
variable {sys : System} {ask : ℕ → ℕ} {judge : ℕ → Reply → Verdict} {calls : List (ℕ → Reply)}

theorem fillUrandom_congr {buf buf' : List UInt8} (h : buf'.length = buf.length) :
    fillUrandom sys buf' = fillUrandom sys buf := congrArg (readUrandom sys) h

theorem fillUrandom_ok {buf out : List UInt8} (h : fillUrandom sys buf = .ok out) :
    ∃ bytes, sys.urandom buf.length = some bytes ∧ out = bytes.toList := by
  unfold fillUrandom readUrandom at h
  cases hread : sys.urandom buf.length with
  | none =>
    rw [hread] at h
    cases h
  | some bytes =>
    rw [hread] at h
    cases h
    exact ⟨bytes, rfl, rfl⟩

theorem fillUrandom_error {buf : List UInt8} {e : SaltError} (h : fillUrandom sys buf = .error e) :
    e = .osRandom := by
  unfold fillUrandom readUrandom at h
  split at h <;> cases h
  rfl

theorem Delivered.length_eq {n : ℕ} {bytes : List UInt8} (hkeeps : Keeps ask judge calls)
    (h : Delivered ask judge calls n bytes) : bytes.length = n := by
  induction h with
  | whole => rfl
  | more hn h tail ih =>
    rw [Keeps, List.forall_mem_cons] at hkeeps
    obtain ⟨hle, hprogress⟩ := hkeeps.1 _ hn
    obtain ⟨-, hwritten⟩ := hprogress _ h
    rw [List.length_append, ih hkeeps.2]
    omega
  | again hn h tail ih =>
    rw [Keeps, List.forall_mem_cons] at hkeeps
    exact ih hkeeps.2

theorem delivered_whole {buf : List UInt8} {done : ℕ} (h : ¬ done < buf.length) :
    ∃ rest, Delivered ask judge calls (buf.length - done) rest ∧ buf = buf.take done ++ rest := by
  refine ⟨[], ?_, ?_⟩
  · rw [Nat.sub_eq_zero_of_le (not_lt.mp h)]
    exact .whole _
  · rw [List.append_nil, List.take_of_length_le (not_lt.mp h)]

theorem fillLoop_ok (hkeeps : Keeps ask judge calls) {buf out : List UInt8} {done : ℕ}
    (hdone : done ≤ buf.length) (h : fillLoop sys ask judge calls buf done = some (.ok out)) :
    (∃ rest, Delivered ask judge calls (buf.length - done) rest ∧ out = buf.take done ++ rest) ∨
      ∃ bytes, sys.urandom buf.length = some bytes ∧ out = bytes.toList := by
  induction calls generalizing buf done with
  | nil =>
    unfold fillLoop at h
    by_cases hlt : done < buf.length
    · rw [if_pos hlt] at h
      cases h
    · rw [if_neg hlt] at h
      cases h
      exact Or.inl (delivered_whole hlt)
  | cons call calls ih =>
    rw [Keeps, List.forall_mem_cons] at hkeeps
    unfold fillLoop at h
    by_cases hlt : done < buf.length
    · rw [if_pos hlt] at h
      dsimp only at h
      obtain ⟨hwritten, hprogress⟩ := hkeeps.1 _ (Nat.sub_pos_of_lt hlt)
      have hroom : done + (call (ask (buf.length - done))).written.length ≤ buf.length := by omega
      have hlen := writeAt_length hroom
      cases hjudge : judge (ask (buf.length - done)) (call (ask (buf.length - done))) with
      | progress k =>
        rw [hjudge] at h
        obtain ⟨-, hk⟩ := hprogress k hjudge
        obtain ⟨rest, hrest, hout⟩ | hread := ih hkeeps.2 (by omega) h
        · refine Or.inl ⟨_ ++ rest, .more (Nat.sub_pos_of_lt hlt) hjudge ?_, ?_⟩
          · rw [hlen, ← Nat.sub_sub] at hrest
            exact hrest
          · rw [hout, ← hk, take_writeAt_add hdone, List.append_assoc]
        · rw [hlen] at hread
          exact Or.inr hread
      | refuse =>
        rw [hjudge] at h
        cases h
      | again =>
        rw [hjudge] at h
        obtain ⟨rest, hrest, hout⟩ | hread := ih hkeeps.2 (by omega) h
        · refine Or.inl ⟨rest, .again (Nat.sub_pos_of_lt hlt) hjudge ?_, ?_⟩
          · rw [hlen] at hrest
            exact hrest
          · rw [hout, take_writeAt hdone]
        · rw [hlen] at hread
          exact Or.inr hread
      | fallback =>
        rw [hjudge] at h
        have hread := fillUrandom_ok (Option.some.inj h)
        rw [hlen] at hread
        exact Or.inr hread
    · rw [if_neg hlt] at h
      cases h
      exact Or.inl (delivered_whole hlt)

theorem fillLoop_error {buf : List UInt8} {done : ℕ} {e : SaltError}
    (h : fillLoop sys ask judge calls buf done = some (.error e)) : e = .osRandom := by
  induction calls generalizing buf done with
  | nil =>
    unfold fillLoop at h
    split_ifs at h
    cases h
  | cons call calls ih =>
    unfold fillLoop at h
    split_ifs at h
    · dsimp only at h
      split at h
      · exact ih h
      · cases h
        rfl
      · exact ih h
      · exact fillUrandom_error (Option.some.inj h)
    · cases h

theorem fillLoop_congr (hkeeps : Keeps ask judge calls) {buf buf' : List UInt8} {done : ℕ}
    (hdone : done ≤ buf.length) (hlen : buf'.length = buf.length)
    (htake : buf'.take done = buf.take done) :
    fillLoop sys ask judge calls buf' done = fillLoop sys ask judge calls buf done := by
  have hwhole (hnot : ¬ done < buf.length) : buf' = buf := by
    rw [List.take_of_length_le (not_lt.mp hnot), List.take_of_length_le (by omega)] at htake
    exact htake
  induction calls generalizing buf buf' done with
  | nil =>
    unfold fillLoop
    rw [hlen]
    split_ifs with hlt
    · rfl
    · rw [hwhole hlt]
  | cons call calls ih =>
    rw [Keeps, List.forall_mem_cons] at hkeeps
    unfold fillLoop
    rw [hlen]
    split_ifs with hlt
    · dsimp only
      obtain ⟨hwritten, hprogress⟩ := hkeeps.1 _ (Nat.sub_pos_of_lt hlt)
      have hroom : done + (call (ask (buf.length - done))).written.length ≤ buf.length := by omega
      have hnew := writeAt_length hroom
      have hroom' : done + (call (ask (buf.length - done))).written.length ≤ buf'.length :=
        hroom.trans_eq hlen.symm
      have hnew' := writeAt_length hroom'
      have hsame := hnew'.trans (hlen.trans hnew.symm)
      cases hjudge : judge (ask (buf.length - done)) (call (ask (buf.length - done))) with
      | progress k =>
        obtain ⟨-, hk⟩ := hprogress k hjudge
        have htake' : (writeAt buf' done (call (ask (buf.length - done))).written).take (done + k) =
            (writeAt buf done (call (ask (buf.length - done))).written).take (done + k) := by
          rw [← hk, take_writeAt_add hdone, take_writeAt_add (hdone.trans hlen.ge), htake]
        refine ih hkeeps.2 (by omega) hsame htake' fun hnot => ?_
        rw [List.take_of_length_le (by omega), List.take_of_length_le (by omega)] at htake'
        exact htake'
      | refuse => rfl
      | again =>
        have htake' : (writeAt buf' done (call (ask (buf.length - done))).written).take done =
            (writeAt buf done (call (ask (buf.length - done))).written).take done := by
          rw [take_writeAt hdone, take_writeAt (hdone.trans hlen.ge), htake]
        refine ih hkeeps.2 (by omega) hsame htake' fun hnot => ?_
        omega
      | fallback => exact congrArg some (fillUrandom_congr hsame)
    · rw [hwhole hlt]

theorem fillLoop_step {call : ℕ → Reply} (hkeeps : Keeps ask judge (call :: calls))
    {buf : List UInt8} {done : ℕ} (hlt : done < buf.length) :
    (∃ r, fillLoop sys ask judge (call :: calls) buf done = some r) ∨
    ∃ buf' done', buf'.length = buf.length ∧ done ≤ done' ∧ done' ≤ buf.length ∧
      (done' = done → judge (ask (buf.length - done)) (call (ask (buf.length - done))) = .again) ∧
      fillLoop sys ask judge (call :: calls) buf done =
        fillLoop sys ask judge calls buf' done' := by
  rw [Keeps, List.forall_mem_cons] at hkeeps
  obtain ⟨hwritten, hprogress⟩ := hkeeps.1 _ (Nat.sub_pos_of_lt hlt)
  have hroom : done + (call (ask (buf.length - done))).written.length ≤ buf.length := by omega
  have hlen := writeAt_length hroom
  have hrun : fillLoop sys ask judge (call :: calls) buf done =
      match judge (ask (buf.length - done)) (call (ask (buf.length - done))) with
      | .progress n => fillLoop sys ask judge calls
          (writeAt buf done (call (ask (buf.length - done))).written) (done + n)
      | .refuse => some (.error .osRandom)
      | .again => fillLoop sys ask judge calls
          (writeAt buf done (call (ask (buf.length - done))).written) done
      | .fallback =>
          some (fillUrandom sys (writeAt buf done (call (ask (buf.length - done))).written)) := by
    conv_lhs => unfold fillLoop
    exact if_pos hlt
  cases hjudge : judge (ask (buf.length - done)) (call (ask (buf.length - done))) with
  | progress k =>
    rw [hjudge] at hrun
    obtain ⟨hpos, hk⟩ := hprogress k hjudge
    exact Or.inr ⟨_, done + k, hlen, Nat.le_add_right done k, by omega, by omega, hrun⟩
  | refuse =>
    rw [hjudge] at hrun
    exact Or.inl ⟨_, hrun⟩
  | again =>
    rw [hjudge] at hrun
    exact Or.inr ⟨_, done, hlen, le_rfl, hlt.le, fun _ => rfl, hrun⟩
  | fallback =>
    rw [hjudge] at hrun
    exact Or.inl ⟨_, hrun⟩

/-- With a reply that is no interruption for every byte, the loop comes to an end. -/
theorem fillLoop_ends {steady : List (ℕ → Reply)} (hsub : steady.Sublist calls)
    (hkeeps : Keeps ask judge calls)
    (hsteady : ∀ call ∈ steady, ∀ n, 0 < n → judge (ask n) (call (ask n)) ≠ .again)
    {buf : List UInt8} {done : ℕ} (hdone : done ≤ buf.length)
    (hmany : buf.length ≤ done + steady.length) :
    ∃ r, fillLoop sys ask judge calls buf done = some r := by
  induction hsub generalizing buf done with
  | slnil =>
    have hwhole : ¬ done < buf.length := not_lt.mpr hmany
    unfold fillLoop
    rw [if_neg hwhole]
    exact ⟨_, rfl⟩
  | cons call hsub ih =>
    by_cases hlt : done < buf.length
    · obtain hr | ⟨buf', done', hlen, hle, hle', -, hrun⟩ := fillLoop_step hkeeps hlt
      · exact hr
      · rw [hrun]
        rw [Keeps, List.forall_mem_cons] at hkeeps
        exact ih hkeeps.2 hsteady (by omega) (by omega)
    · unfold fillLoop
      rw [if_neg hlt]
      exact ⟨_, rfl⟩
  | cons_cons call hsub ih =>
    by_cases hlt : done < buf.length
    · obtain hr | ⟨buf', done', hlen, hle, hle', hagain, hrun⟩ := fillLoop_step hkeeps hlt
      · exact hr
      · rw [hrun]
        rw [Keeps, List.forall_mem_cons] at hkeeps
        rw [List.forall_mem_cons] at hsteady
        have hne : done' ≠ done := fun heq =>
          hsteady.1 _ (Nat.sub_pos_of_lt hlt) (hagain heq)
        rw [List.length_cons] at hmany
        exact ih hkeeps.2 hsteady.2 (by omega) (by omega)
    · unfold fillLoop
      rw [if_neg hlt]
      exact ⟨_, rfl⟩

end Loops

section Sources
variable {sys : System} (hsys : Lawful sys)
include hsys

theorem keeps_getrandom : Keeps id judgeGetrandom sys.getrandom := by
  intro call hcall n _
  obtain ⟨hle, hrc⟩ := hsys.getrandom call hcall n
  refine ⟨hle, fun k hk => ?_⟩
  change judgeGetrandom n (call n) = .progress k at hk
  unfold judgeGetrandom at hk
  split_ifs at hk with hpos
  have hwritten := hrc hpos
  have hcount : (call n).rc.toNat = k := Verdict.progress.inj hk
  change 0 < k ∧ (call n).written.length = k
  omega

theorem keeps_getentropy : Keeps (min · 256) judgeGetentropy sys.getentropy := by
  intro call hcall n hn
  obtain ⟨hle, hrc⟩ := hsys.getentropy call hcall (min n 256) (Nat.min_le_right n 256)
  refine ⟨hle.trans (Nat.min_le_left n 256), fun k hk => ?_⟩
  change judgeGetentropy (min n 256) (call (min n 256)) = .progress k at hk
  unfold judgeGetentropy at hk
  split_ifs at hk with hne
  have hwritten := hrc (not_not.mp hne)
  have hcount : min n 256 = k := Verdict.progress.inj hk
  change 0 < k ∧ (call (min n 256)).written.length = k
  omega

omit hsys in
theorem fillOnce_eq {success : ℤ → Bool} {call : ℕ → Reply}
    (hcall : ∀ n, success (call n).rc = true → (call n).written.length = n) (buf : List UInt8) :
    fillOnce success call buf = if success (call buf.length).rc = true
      then .ok (call buf.length).written else .error .osRandom := by
  unfold fillOnce
  dsimp only
  split_ifs with hsuccess
  · unfold writeAt
    rw [Nat.zero_add, hcall buf.length hsuccess, List.take_zero, List.drop_length,
      List.nil_append, List.append_nil]
  · rfl

omit hsys in
theorem fillOnce_ok {success : ℤ → Bool} {call : ℕ → Reply} {buf out : List UInt8}
    (hcall : ∀ n, success (call n).rc = true → (call n).written.length = n)
    (h : some (fillOnce success call buf) = some (.ok out)) :
    success (call buf.length).rc = true ∧ out = (call buf.length).written := by
  rw [Option.some.injEq, fillOnce_eq hcall] at h
  by_cases hsuccess : success (call buf.length).rc = true
  · rw [if_pos hsuccess] at h
    cases h
    exact ⟨hsuccess, rfl⟩
  · rw [if_neg hsuccess] at h
    cases h

theorem ccRandomGenerateBytes_fills (n : ℕ)
    (h : decide ((sys.ccRandomGenerateBytes n).rc = 0) = true) :
    (sys.ccRandomGenerateBytes n).written.length = n :=
  hsys.ccRandomGenerateBytes n (of_decide_eq_true h)

theorem processPrng_fills (n : ℕ) (h : decide ((sys.processPrng n).rc ≠ 0) = true) :
    (sys.processPrng n).written.length = n := hsys.processPrng n (of_decide_eq_true h)

theorem randomGet_fills (n : ℕ) (h : decide ((sys.randomGet n).rc = 0) = true) :
    (sys.randomGet n).written.length = n := hsys.randomGet n (of_decide_eq_true h)

theorem Supplied.length_eq {t : Target} {n : ℕ} {bytes : List UInt8}
    (h : Supplied sys t n bytes) : bytes.length = n := by
  cases h with
  | urandom hos bytes h => exact bytes.length_toList
  | getrandom hos harch h => exact h.length_eq (keeps_getrandom hsys)
  | getentropy hos h => exact h.length_eq (keeps_getentropy hsys)
  | ccRandomGenerateBytes hos h => exact hsys.ccRandomGenerateBytes n h
  | processPrng hos h => exact hsys.processPrng n h
  | randomGet hos h => exact hsys.randomGet n h

omit hsys in
theorem fillUrandom_supplied {t : Target}
    (hos : t.os ∈ [.linux, .android, .macos, .openbsd, .otherUnix]) {buf out : List UInt8}
    (h : fillUrandom sys buf = .ok out) : Supplied sys t buf.length out := by
  obtain ⟨bytes, hread, rfl⟩ := fillUrandom_ok h
  exact .urandom hos bytes hread

theorem fillGetrandom_supplied {t : Target} (hos : t.os ∈ [.linux, .android])
    {buf out : List UInt8}
    (h : (if (sysGetrandom t.arch).isSome then fillGetrandom sys buf
      else some (fillUrandom sys buf)) = some (.ok out)) : Supplied sys t buf.length out := by
  have hunix : t.os ∈ [Os.linux, .android] ++ [.macos, .openbsd, .otherUnix] :=
    List.mem_append_left _ hos
  split_ifs at h with harch
  · obtain ⟨rest, hrest, rfl⟩ | ⟨bytes, hread, rfl⟩ :=
      fillLoop_ok (keeps_getrandom hsys) (Nat.zero_le _) h
    · exact .getrandom hos harch hrest
    · exact .urandom hunix bytes hread
  · exact fillUrandom_supplied hunix (Option.some.inj h)

theorem fillGetentropy_supplied {t : Target} (hos : t.os ∈ [.macos, .openbsd])
    {buf out : List UInt8} (h : fillGetentropy sys buf = some (.ok out)) :
    Supplied sys t buf.length out := by
  obtain ⟨rest, hrest, rfl⟩ | ⟨bytes, hread, rfl⟩ :=
    fillLoop_ok (keeps_getentropy hsys) (Nat.zero_le _) h
  · exact .getentropy hos hrest
  · refine .urandom ?_ bytes hread
    have hmore : t.os ∈ [Os.macos, .openbsd] ++ [.otherUnix] := List.mem_append_left _ hos
    exact List.mem_append_right [.linux, .android] hmore

theorem osRandom_ok (t : Target) {buf out : List UInt8} (h : osRandom sys t buf = some (.ok out)) :
    Supplied sys t buf.length out := by
  have happle (hos : t.os ∈ [.ios, .tvos, .watchos, .visionos])
      (hrun : some (fillOnce (fun rc => rc = 0) sys.ccRandomGenerateBytes buf) =
        some (.ok out)) : Supplied sys t buf.length out := by
    obtain ⟨hrc, rfl⟩ := fillOnce_ok (ccRandomGenerateBytes_fills hsys) hrun
    exact .ccRandomGenerateBytes hos (of_decide_eq_true hrc)
  unfold osRandom at h
  cases hos : t.os with
  | linux => rw [hos] at h; exact fillGetrandom_supplied hsys (by rw [hos]; decide) h
  | android => rw [hos] at h; exact fillGetrandom_supplied hsys (by rw [hos]; decide) h
  | macos => rw [hos] at h; exact fillGetentropy_supplied hsys (by rw [hos]; decide) h
  | openbsd => rw [hos] at h; exact fillGetentropy_supplied hsys (by rw [hos]; decide) h
  | ios => rw [hos] at h; exact happle (by rw [hos]; decide) h
  | tvos => rw [hos] at h; exact happle (by rw [hos]; decide) h
  | watchos => rw [hos] at h; exact happle (by rw [hos]; decide) h
  | visionos => rw [hos] at h; exact happle (by rw [hos]; decide) h
  | windows =>
    rw [hos] at h
    obtain ⟨hrc, rfl⟩ := fillOnce_ok (processPrng_fills hsys) h
    exact .processPrng hos (of_decide_eq_true hrc)
  | wasi p1 =>
    rw [hos] at h
    cases p1 with
    | false => cases h
    | true =>
      obtain ⟨hrc, rfl⟩ := fillOnce_ok (randomGet_fills hsys) h
      exact .randomGet hos (of_decide_eq_true hrc)
  | otherUnix =>
    rw [hos] at h
    exact fillUrandom_supplied (by rw [hos]; decide) (Option.some.inj h)
  | other => rw [hos] at h; cases h

omit hsys in
theorem osRandom_error (t : Target) {buf : List UInt8} {e : SaltError}
    (h : osRandom sys t buf = some (.error e)) : e = .osRandom := by
  have honce {success : ℤ → Bool} {call : ℕ → Reply}
      (hrun : fillOnce success call buf = .error e) : e = .osRandom := by
    unfold fillOnce at hrun
    dsimp only at hrun
    split_ifs at hrun
    cases hrun
    rfl
  unfold osRandom at h
  split at h
  case h_3 | h_4 => exact fillLoop_error h
  case h_5 | h_6 | h_7 | h_8 | h_9 | h_10 => exact honce (Option.some.inj h)
  case h_11 => exact fillUrandom_error (Option.some.inj h)
  case h_12 | h_13 => cases h; rfl
  all_goals
    split_ifs at h
    · exact fillLoop_error h
    · exact fillUrandom_error (Option.some.inj h)

theorem osRandom_congr (t : Target) {buf buf' : List UInt8} (hlen : buf'.length = buf.length) :
    osRandom sys t buf' = osRandom sys t buf := by
  have hloop {ask judge calls} (hkeeps : Keeps ask judge calls) :
      fillLoop sys ask judge calls buf' 0 = fillLoop sys ask judge calls buf 0 :=
    fillLoop_congr hkeeps (Nat.zero_le _) hlen rfl
  have hgetrandom : fillGetrandom sys buf' = fillGetrandom sys buf :=
    hloop (keeps_getrandom hsys)
  have hgetentropy : fillGetentropy sys buf' = fillGetentropy sys buf :=
    hloop (keeps_getentropy hsys)
  have honce {success : ℤ → Bool} {call : ℕ → Reply}
      (hcall : ∀ n, success (call n).rc = true → (call n).written.length = n) :
      fillOnce success call buf' = fillOnce success call buf := by
    rw [fillOnce_eq hcall, fillOnce_eq hcall, hlen]
  unfold osRandom
  rw [hgetrandom, hgetentropy, fillUrandom_congr hlen, honce (ccRandomGenerateBytes_fills hsys),
    honce (processPrng_fills hsys), honce (randomGet_fills hsys)]

/-- A reply that is no interruption for every byte. -/
structure Answers (sys : System) (n : ℕ) : Prop where
  getrandom : ∃ steady : List (ℕ → Reply), steady.Sublist sys.getrandom ∧ n ≤ steady.length ∧
    ∀ call ∈ steady, ∀ len, 0 < len → judgeGetrandom len (call len) ≠ .again
  getentropy : n ≤ sys.getentropy.length

theorem osRandom_ends (t : Target) {buf : List UInt8} (h : Answers sys buf.length) :
    ∃ r, osRandom sys t buf = some r := by
  have hgetrandom : ∃ r, fillGetrandom sys buf = some r := by
    obtain ⟨steady, hsub, hmany, hsteady⟩ := h.getrandom
    exact fillLoop_ends hsub (keeps_getrandom hsys) hsteady (Nat.zero_le _)
      (hmany.trans (Nat.le_add_left _ _))
  have hgetentropy : ∃ r, fillGetentropy sys buf = some r := by
    refine fillLoop_ends (List.Sublist.refl _) (keeps_getentropy hsys) ?_ (Nat.zero_le _)
      (h.getentropy.trans (Nat.le_add_left _ _))
    intro call _ n _
    unfold judgeGetentropy
    split_ifs <;> nofun
  unfold osRandom
  split
  case h_3 | h_4 => exact hgetentropy
  case h_1 | h_2 =>
    split_ifs
    · exact hgetrandom
    · exact ⟨_, rfl⟩
  all_goals exact ⟨_, rfl⟩

end Sources

section Salts
variable {sys : System} (hsys : Lawful sys) {w : PointerWidth} (compress : CompressFn)
  (backend backend' : Backend) (alloc alloc' : ℕ → Bool)
  (halloc : (Host.mk w backend' alloc').Allocates)
  (scheduler scheduler' : Scheduler)

/-- A hash with a random salt has a salt of the system in it, with which it verifies; where it
fails, no salt was there, or the hash with that salt failed. -/
structure Salted (sys : System) (t : Target) (argon2 : Argon2 w) (pwd : List UInt8) : Prop where
  ok : ∀ s, hashPasswordWithRandomSalt sys ⟨w, backend, alloc⟩ compress
      (pooledFill scheduler) t argon2 pwd = some (.ok s) → s.length ≤ 0xFFFFFFFF →
    ∃ salt, salt.length = 16 ∧ Supplied sys t 16 salt ∧
      (∃ d, decodeString ⟨w, backend', alloc'⟩ s argon2.algorithm = .ok d ∧ d.salt = salt) ∧
      Argon2.verifyEncodedWithAd ⟨w, backend', alloc'⟩ compress (pooledFill scheduler') s pwd [] []
        argon2.algorithm = .ok ()
  error : ∀ e, hashPasswordWithRandomSalt sys ⟨w, backend, alloc⟩ compress
      (pooledFill scheduler) t argon2 pwd = some (.error (.other e)) →
    ∃ salt, Supplied sys t 16 salt ∧ Argon2.hashEncodedWithAd ⟨w, backend, alloc⟩ compress
      (pooledFill scheduler) argon2 ⟨pwd, salt, [], []⟩ = .error e

theorem hash_of_salt {host : Host} {fill : Instance → Arena → Except Error Arena} {t : Target}
    {salt : List UInt8}
    (h : osRandom sys t (List.replicate randomSaltLen 0) = some (.ok salt))
    (argon2 : Argon2 host.width) (pwd : List UInt8) :
    hashPasswordWithRandomSalt sys host compress fill t argon2 pwd =
      some ((argon2.hashEncodedWithAd host compress fill ⟨pwd, salt, [], []⟩).mapError .other) := by
  unfold hashPasswordWithRandomSalt
  rw [h]
  rfl

theorem hash_salt {host : Host} {fill : Instance → Arena → Except Error Arena}
    {t : Target} {argon2 : Argon2 host.width} {pwd : List UInt8} {r : Filled}
    (h : hashPasswordWithRandomSalt sys host compress fill t argon2 pwd = some r) :
    r = .error .osRandom ∨ ∃ salt, osRandom sys t (List.replicate randomSaltLen 0) =
      some (.ok salt) ∧
        r = (argon2.hashEncodedWithAd host compress fill ⟨pwd, salt, [], []⟩).mapError .other := by
  unfold hashPasswordWithRandomSalt at h
  obtain ⟨filled, hfilled, hr⟩ := Option.map_eq_some_iff.mp h
  cases filled with
  | error e =>
    rw [osRandom_error t hfilled] at hr
    exact Or.inl hr.symm
  | ok salt => exact Or.inr ⟨salt, hfilled, hr.symm⟩

include hsys halloc

theorem salted (t : Target) (argon2 : Argon2 w) (pwd : List UInt8) :
    Salted compress backend backend' alloc alloc' scheduler scheduler' sys t argon2 pwd where
  ok s h hlen := by
    obtain hr | ⟨salt, hfilled, hr⟩ := hash_salt compress h
    · cases hr
    · have hsupplied : Supplied sys t 16 salt := osRandom_ok hsys t hfilled
      have hs : Argon2.hashEncodedWithAd ⟨w, backend, alloc⟩ compress (pooledFill scheduler) argon2
          ⟨pwd, salt, [], []⟩ = .ok s := by
        cases hrun : Argon2.hashEncodedWithAd ⟨w, backend, alloc⟩ compress (pooledFill scheduler)
            argon2 ⟨pwd, salt, [], []⟩ with
        | error e =>
          rw [hrun] at hr
          cases hr
        | ok s' =>
          rw [hrun] at hr
          cases hr
          rfl
      refine ⟨salt, hsupplied.length_eq hsys, hsupplied, ?_, ?_⟩
      · have hencode := hs
        unfold Argon2.hashEncodedWithAd at hencode
        rw [bind_ok_iff] at hencode
        obtain ⟨tag, htag, hencode⟩ := hencode
        obtain ⟨-, htagEq⟩ := hashWithAd_ok ⟨w, backend, alloc⟩ compress scheduler argon2 _ tag htag
        have htagLen : tag.length = argon2.params.tagLenBytes := by
          rw [htagEq]
          exact rfcTag_length compress _ _ _ _
        obtain ⟨d, hd, -, -, -, -, -, -, hsalt, -⟩ := encodeStringAlloc_carries backend backend'
          alloc alloc' halloc argon2.algorithm argon2.version argon2.params salt tag htagLen s
          hencode hlen
        exact ⟨d, hd, hsalt⟩
      · exact verifyEncodedWithAd_hashEncodedWithAd compress backend backend' alloc alloc' halloc
          scheduler scheduler' argon2 ⟨pwd, salt, [], []⟩ s hs hlen
  error e h := by
    obtain hr | ⟨salt, hfilled, hr⟩ := hash_salt compress h
    · cases hr
    · refine ⟨salt, osRandom_ok hsys t hfilled, ?_⟩
      cases hrun : Argon2.hashEncodedWithAd ⟨w, backend, alloc⟩ compress (pooledFill scheduler)
          argon2 ⟨pwd, salt, [], []⟩ with
      | error e' =>
        rw [hrun] at hr
        cases hr
        rfl
      | ok s =>
        rw [hrun] at hr
        cases hr

/-- On every target and under any replies of the system: a fill that succeeds has what one source
delivered for all of the buffer, whatever was in it before, a fill that fails has `OsRandom`, and
only interruptions keep a fill from an end. A hash with a random salt carries such a salt, and
verifies. -/
theorem random_salts (t : Target) :
    (∀ buf buf', buf'.length = buf.length → osRandom sys t buf' = osRandom sys t buf) ∧
    (∀ buf out, osRandom sys t buf = some (.ok out) →
      out.length = buf.length ∧ Supplied sys t buf.length out) ∧
    (∀ buf e, osRandom sys t buf = some (.error e) → e = .osRandom) ∧
    (∀ buf, Answers sys buf.length → ∃ r, osRandom sys t buf = some r) ∧
    ∀ (argon2 : Argon2 w) (pwd : List UInt8),
      Salted compress backend backend' alloc alloc' scheduler scheduler' sys t argon2 pwd := by
  refine ⟨fun buf buf' => osRandom_congr hsys t, fun buf out h => ?_, fun buf e h =>
    osRandom_error t h, fun buf h => osRandom_ends hsys t h, fun argon2 pwd =>
    salted hsys compress backend backend' alloc alloc' halloc scheduler scheduler' t argon2 pwd⟩
  have hsupplied := osRandom_ok hsys t h
  exact ⟨hsupplied.length_eq hsys, hsupplied⟩

end Salts

def interrupting : System where
  getrandom :=
    [fun _ => ⟨-1, eintr, []⟩, fun n => ⟨(min n 5 : ℕ), 0, List.replicate (min n 5) 7⟩,
      fun n => ⟨n, 0, List.replicate n 9⟩]
  getentropy := []
  ccRandomGenerateBytes n := ⟨0, 0, List.replicate n 1⟩
  processPrng n := ⟨1, 0, List.replicate n 1⟩
  randomGet n := ⟨0, 0, List.replicate n 1⟩
  urandom _ := none

theorem interrupting_lawful : Lawful interrupting where
  getrandom call hcall n := by
    simp only [interrupting, List.mem_cons, List.not_mem_nil, or_false] at hcall
    obtain rfl | rfl | rfl := hcall
    · exact ⟨Nat.zero_le n, fun hpos => absurd (show (0 : ℤ) < -1 from hpos) (by decide)⟩
    · dsimp only
      rw [List.length_replicate]
      exact ⟨Nat.min_le_left n 5, fun _ => rfl⟩
    · dsimp only
      rw [List.length_replicate]
      exact ⟨le_rfl, fun _ => rfl⟩
  getentropy _ hcall := by cases hcall
  ccRandomGenerateBytes n _ := List.length_replicate
  processPrng n _ := List.length_replicate
  randomGet n _ := List.length_replicate

def mixedSalt : List UInt8 := List.replicate 5 7 ++ List.replicate 11 9

theorem interrupting_fills :
    osRandom interrupting ⟨.linux, .x86_64 false⟩ (List.replicate randomSaltLen 0) =
      some (.ok mixedSalt) := rfl

def saltedInputs : Inputs := ⟨ascii "password", mixedSalt, [], []⟩

theorem hash_interrupting (scheduler : Scheduler) :
    hashPasswordWithRandomSalt interrupting plainHost compressScalar (pooledFill scheduler)
      ⟨.linux, .x86_64 false⟩ leastArgon2 (ascii "password") =
      some (.ok (leastEncoded saltedInputs)) :=
  (hash_of_salt compressScalar interrupting_fills leastArgon2 (ascii "password")).trans
    (congrArg (fun r => some (Except.mapError SaltError.other r))
      (hashEncodedWithAd_least saltedInputs scheduler (by decide) (by decide) (by decide)))

theorem random_salts_interrupting :
    ∃ s, hashPasswordWithRandomSalt interrupting plainHost compressScalar
        (pooledFill PooledAnswers.inOrder) ⟨.linux, .x86_64 false⟩
        leastArgon2 (ascii "password") = some (.ok s) ∧
      Argon2.verifyEncodedWithAd plainHost compressScalar (pooledFill PooledAnswers.inOrder) s
        (ascii "password") [] [] .argon2id = .ok () := by
  obtain ⟨-, -, -, -, hsalted⟩ := random_salts interrupting_lawful compressScalar .scalar .scalar
    (fun _ => true) (fun _ => true) (fun _ _ => rfl) PooledAnswers.inOrder PooledAnswers.inOrder
    ⟨.linux, .x86_64 false⟩
  have hs := hash_interrupting PooledAnswers.inOrder
  obtain ⟨salt, -, -, -, hverified⟩ := (hsalted leastArgon2 (ascii "password")).ok _ hs
    (by rw [leastEncoded_length]; decide)
  exact ⟨_, hs, hverified⟩

end Argon2Rust.Entropy
