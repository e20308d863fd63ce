import Argon2Rust.Memory
import Argon2Rust.OneShot

set_option autoImplicit false

/-!
# The hasher

A configuration and a workspace. Its methods compute in the workspace: they are
fallible programs over it, so whatever an early return leaves parked is part of
the program. What a hash leaves in the arena it borrowed is arbitrary.
-/
namespace Argon2Rust.Pooling
open Parameters Base64 Encoding DecodeString Compression Blake2 Segment IndexAlpha Hash Verification
open OneShot Memory

/-- A fallible program over the workspace. -/
def Pooled (α : Type) := Workspace → Outcome (Except Error α)

namespace Pooled

instance : Monad Pooled where
  pure a := fun ws => ⟨.ok a, ws, []⟩
  bind m k := fun ws =>
    match (m ws).result with
    | .error e => ⟨.error e, (m ws).workspace, (m ws).freed⟩
    | .ok a =>
      let o := k a (m ws).workspace
      ⟨o.result, o.workspace, (m ws).freed ++ o.freed⟩

section
variable {α β : Type} (m : Pooled α) (k : α → Pooled β) (ws : Workspace)

theorem bind_of_error {e : Error} (h : (m ws).result = .error e) :
    (m >>= k) ws = ⟨.error e, (m ws).workspace, (m ws).freed⟩ := by
  simp only [bind, h]

theorem bind_of_ok {a : α} (h : (m ws).result = .ok a) :
    (m >>= k) ws = ⟨(k a (m ws).workspace).result, (k a (m ws).workspace).workspace,
      (m ws).freed ++ (k a (m ws).workspace).freed⟩ := by
  simp only [bind, h]

end

def lift {α : Type} (r : Except Error α) : Pooled α := fun ws => ⟨r, ws, []⟩

def capacity : Pooled ℕ := fun ws => ⟨.ok ws.capacity, ws, []⟩

def acquire (wipeEnabled : Bool) (w : PointerWidth) (alloc : ℕ → Bool) (blocks : ℕ) :
    Pooled ArenaGuard := fun ws => ws.acquire wipeEnabled w alloc blocks

def dropGuard (wipeEnabled : Bool) (guard : ArenaGuard) : Pooled Unit := fun ws =>
  let o := ws.dropGuard wipeEnabled guard
  ⟨.ok o.result, o.workspace, o.freed⟩

end Pooled

/-- What one call gets from its surroundings: the answers of the allocator, for
arenas of the workspace and for the rest, the order in which the pool runs the
segments, and what its fill leaves in the borrowed window. -/
structure Env where
  alloc : ℕ → Bool
  arenaAlloc : ℕ → Bool
  scheduler : Scheduler
  residue : ℕ → Block

def fillResidue (env : Env) (guard : ArenaGuard) : ArenaGuard :=
  ⟨guard.arena.asMutPtr.store ((List.range guard.arena.blocks).map fun i => (i, env.residue i))⟩

section Methods
variable {w : PointerWidth} (wipeEnabled : Bool) (backend : Backend) (compress : CompressFn)
  (env : Env)

def hashInWorkspace (algorithm : Algorithm) (version : Version) (params : Params w) (x : Inputs)
    (out : List UInt8) : Pooled (List UInt8) := do
  let memoryBlocks ← Pooled.lift (validateAndSize params x out)
  let guard ← Pooled.acquire wipeEnabled w env.arenaAlloc memoryBlocks
  let result := hashInArena compress (pooledFill env.scheduler) guard.arena.visible algorithm
    version params x out
  Pooled.dropGuard wipeEnabled (fillResidue env guard)
  Pooled.lift result

def Env.host (w : PointerWidth) : Host := ⟨w, backend, env.alloc⟩

variable (argon2 : Argon2 w)

def pooledCeiling : Pooled ℕ := do
  let capacity ← Pooled.capacity
  pure (max capacity argon2.params.memoryBlocks.toNat)

def hashIntoUsing (x : Inputs) (out : List UInt8) : Pooled (List UInt8) :=
  hashInWorkspace wipeEnabled compress env argon2.algorithm argon2.version argon2.params x out

def hashIntoWithAd (x : Inputs) (out : List UInt8) : Pooled (List UInt8) :=
  hashIntoUsing wipeEnabled compress env argon2 x out

def hashInto (pwd salt out : List UInt8) : Pooled (List UInt8) :=
  hashIntoWithAd wipeEnabled compress env argon2 ⟨pwd, salt, [], []⟩ out

def hashWithAd (x : Inputs) : Pooled (List UInt8) := do
  let out ← Pooled.lift (tryZeroedVec (env.host backend w) argon2.params.tagLenBytes)
  hashIntoWithAd wipeEnabled compress env argon2 x out

def hash (pwd salt : List UInt8) : Pooled (List UInt8) :=
  hashWithAd wipeEnabled backend compress env argon2 ⟨pwd, salt, [], []⟩

def hashEncodedWithAd (x : Inputs) : Pooled (List UInt8) := do
  let tag ← hashWithAd wipeEnabled backend compress env argon2 x
  Pooled.lift (encodeStringAlloc argon2.algorithm argon2.version argon2.params x.salt tag
    (env.host backend w))

def hashEncoded (pwd salt : List UInt8) : Pooled (List UInt8) :=
  hashEncodedWithAd wipeEnabled backend compress env argon2 ⟨pwd, salt, [], []⟩

def verifyUsingAd (x : Inputs) (expected : List UInt8) : Pooled Unit := do
  let computed ← Pooled.lift (tryZeroedVec (env.host backend w) argon2.params.tagLenBytes)
  let computed ← hashIntoUsing wipeEnabled compress env argon2 x computed
  Pooled.lift (if constantTimeEq computed expected then .ok () else .error .verifyMismatch)

def verifyUsing (pwd salt expected : List UInt8) : Pooled Unit :=
  verifyUsingAd wipeEnabled backend compress env argon2 ⟨pwd, salt, [], []⟩ expected

def verifyWithAd (x : Inputs) (expected : List UInt8) : Pooled Unit :=
  verifyUsingAd wipeEnabled backend compress env argon2 x expected

def verify (pwd salt expected : List UInt8) : Pooled Unit :=
  verifyWithAd wipeEnabled backend compress env argon2 ⟨pwd, salt, [], []⟩ expected

/-- A decoded string above the ceiling is verified in a private arena. -/
def verifyEncoded (encoded pwd : List UInt8) (algorithm : Algorithm) : Pooled Unit :=
  if pwd.length > maxPwdLength.toNat then Pooled.lift (.error .pwdTooLong)
  else do
    let decoded ← Pooled.lift (decodeString (env.host backend w) encoded algorithm)
    let ceiling ← pooledCeiling argon2
    if decoded.params.memoryBlocks.toNat > ceiling then
      Pooled.lift (Verification.verify (env.host backend w) compress (pooledFill env.scheduler)
        decoded.algorithm decoded.version decoded.params pwd decoded.salt decoded.hash)
    else
      verifyUsing wipeEnabled backend compress env (ofDecoded decoded) pwd decoded.salt decoded.hash

/-- The one-shot arena of `verify_encoded_with_ad`, written out in the method itself. -/
def verifyPrivate (decoded : Decoded w) (pwd secret ad : List UInt8) : Except Error Unit := do
  let computed ← tryZeroedVec (env.host backend w) decoded.params.tagLenBytes
  let computed ← (ofDecoded decoded).hashIntoWithAd (env.host backend w) compress
    (pooledFill env.scheduler) ⟨pwd, decoded.salt, secret, ad⟩ computed
  if constantTimeEq computed decoded.hash then .ok () else .error .verifyMismatch

def verifyEncodedWithAd (encoded pwd secret ad : List UInt8) (algorithm : Algorithm) :
    Pooled Unit :=
  if pwd.length > maxPwdLength.toNat then Pooled.lift (.error .pwdTooLong)
  else do
    let decoded ← Pooled.lift (decodeString (env.host backend w) encoded algorithm)
    let ceiling ← pooledCeiling argon2
    if decoded.params.memoryBlocks.toNat > ceiling then
      Pooled.lift (verifyPrivate backend compress env decoded pwd secret ad)
    else
      verifyUsingAd wipeEnabled backend compress env (ofDecoded decoded)
        ⟨pwd, decoded.salt, secret, ad⟩ decoded.hash

def verifyEncodedBounded (encoded pwd : List UInt8) (algorithm : Algorithm) (ceiling : Params w) :
    Pooled Unit :=
  if pwd.length > maxPwdLength.toNat then Pooled.lift (.error .pwdTooLong)
  else do
    let decoded ← Pooled.lift (decodeBounded (env.host backend w) encoded algorithm ceiling)
    let pooled ← pooledCeiling argon2
    if decoded.params.memoryBlocks.toNat > pooled then
      Pooled.lift (Verification.verify (env.host backend w) compress (pooledFill env.scheduler)
        decoded.algorithm decoded.version decoded.params pwd decoded.salt decoded.hash)
    else
      verifyUsing wipeEnabled backend compress env (ofDecoded decoded) pwd decoded.salt decoded.hash

def verifyEncodedBoundedWithAd (encoded pwd secret ad : List UInt8) (algorithm : Algorithm)
    (ceiling : Params w) : Pooled Unit :=
  if pwd.length > maxPwdLength.toNat then Pooled.lift (.error .pwdTooLong)
  else do
    let decoded ← Pooled.lift (decodeBounded (env.host backend w) encoded algorithm ceiling)
    let pooled ← pooledCeiling argon2
    if decoded.params.memoryBlocks.toNat > pooled then
      Pooled.lift (verifyPrivate backend compress env decoded pwd secret ad)
    else
      verifyUsingAd wipeEnabled backend compress env (ofDecoded decoded)
        ⟨pwd, decoded.salt, secret, ad⟩ decoded.hash

end Methods

/-- A call of a method that hashes or verifies, with its arguments. -/
inductive Call (w : PointerWidth) where
  | hashInto (pwd salt out : List UInt8)
  | hashIntoWithAd (x : Inputs) (out : List UInt8)
  | hash (pwd salt : List UInt8)
  | hashWithAd (x : Inputs)
  | hashEncoded (pwd salt : List UInt8)
  | hashEncodedWithAd (x : Inputs)
  | verify (pwd salt expected : List UInt8)
  | verifyWithAd (x : Inputs) (expected : List UInt8)
  | verifyEncoded (encoded pwd : List UInt8) (algorithm : Algorithm)
  | verifyEncodedWithAd (encoded pwd secret ad : List UInt8) (algorithm : Algorithm)
  | verifyEncodedBounded (encoded pwd : List UInt8) (algorithm : Algorithm) (ceiling : Params w)
  | verifyEncodedBoundedWithAd (encoded pwd secret ad : List UInt8) (algorithm : Algorithm)
      (ceiling : Params w)

inductive Answer where
  | bytes (result : Except Error (List UInt8))
  | checked (result : Except Error Unit)

section Calls
variable {w : PointerWidth} (wipeEnabled : Bool) (backend : Backend) (compress : CompressFn)
  (env : Env) (argon2 : Argon2 w)

/-- The method of `Argon2` that a call names, in an arena of its own. -/
def oneShot : Call w → Answer
  | .hashInto pwd salt out => .bytes (argon2.hashIntoWithAd (env.host backend w) compress
      (pooledFill env.scheduler) ⟨pwd, salt, [], []⟩ out)
  | .hashIntoWithAd x out => .bytes (argon2.hashIntoWithAd (env.host backend w) compress
      (pooledFill env.scheduler) x out)
  | .hash pwd salt => .bytes (argon2.hashWithAd (env.host backend w) compress
      (pooledFill env.scheduler) ⟨pwd, salt, [], []⟩)
  | .hashWithAd x => .bytes (argon2.hashWithAd (env.host backend w) compress
      (pooledFill env.scheduler) x)
  | .hashEncoded pwd salt => .bytes (argon2.hashEncodedWithAd (env.host backend w) compress
      (pooledFill env.scheduler) ⟨pwd, salt, [], []⟩)
  | .hashEncodedWithAd x => .bytes (argon2.hashEncodedWithAd (env.host backend w) compress
      (pooledFill env.scheduler) x)
  | .verify pwd salt expected => .checked (argon2.verifyWithAd (env.host backend w) compress
      (pooledFill env.scheduler) ⟨pwd, salt, [], []⟩ expected)
  | .verifyWithAd x expected => .checked (argon2.verifyWithAd (env.host backend w) compress
      (pooledFill env.scheduler) x expected)
  | .verifyEncoded encoded pwd algorithm => .checked (Verification.verifyEncoded
      (env.host backend w) compress (pooledFill env.scheduler) encoded pwd algorithm)
  | .verifyEncodedWithAd encoded pwd secret ad algorithm => .checked (Argon2.verifyEncodedWithAd
      (env.host backend w) compress (pooledFill env.scheduler) encoded pwd secret ad algorithm)
  | .verifyEncodedBounded encoded pwd algorithm ceiling => .checked
      (Verification.verifyEncodedBounded (env.host backend w) compress (pooledFill env.scheduler)
        encoded pwd algorithm ceiling)
  | .verifyEncodedBoundedWithAd encoded pwd secret ad algorithm ceiling => .checked
      (Argon2.verifyEncodedBoundedWithAd (env.host backend w) compress (pooledFill env.scheduler)
        encoded pwd secret ad algorithm ceiling)

def Pooled.answer {α : Type} (m : Pooled α) (f : Except Error α → Answer) (ws : Workspace) :
    Outcome Answer := ⟨f (m ws).result, (m ws).workspace, (m ws).freed⟩

def pooledCall : Call w → Workspace → Outcome Answer
  | .hashInto pwd salt out =>
    (hashInto wipeEnabled compress env argon2 pwd salt out).answer .bytes
  | .hashIntoWithAd x out => (hashIntoWithAd wipeEnabled compress env argon2 x out).answer .bytes
  | .hash pwd salt => (hash wipeEnabled backend compress env argon2 pwd salt).answer .bytes
  | .hashWithAd x => (hashWithAd wipeEnabled backend compress env argon2 x).answer .bytes
  | .hashEncoded pwd salt =>
    (hashEncoded wipeEnabled backend compress env argon2 pwd salt).answer .bytes
  | .hashEncodedWithAd x =>
    (hashEncodedWithAd wipeEnabled backend compress env argon2 x).answer .bytes
  | .verify pwd salt expected =>
    (verify wipeEnabled backend compress env argon2 pwd salt expected).answer .checked
  | .verifyWithAd x expected =>
    (verifyWithAd wipeEnabled backend compress env argon2 x expected).answer .checked
  | .verifyEncoded encoded pwd algorithm =>
    (verifyEncoded wipeEnabled backend compress env argon2 encoded pwd algorithm).answer .checked
  | .verifyEncodedWithAd encoded pwd secret ad algorithm =>
    (verifyEncodedWithAd wipeEnabled backend compress env argon2 encoded pwd secret ad
      algorithm).answer .checked
  | .verifyEncodedBounded encoded pwd algorithm ceiling =>
    (verifyEncodedBounded wipeEnabled backend compress env argon2 encoded pwd algorithm
      ceiling).answer .checked
  | .verifyEncodedBoundedWithAd encoded pwd secret ad algorithm ceiling =>
    (verifyEncodedBoundedWithAd wipeEnabled backend compress env argon2 encoded pwd secret ad
      algorithm ceiling).answer .checked

end Calls

structure Hasher (w : PointerWidth) where
  argon2 : Argon2 w
  workspace : Workspace

inductive Operation (w : PointerWidth) where
  | setArgon2 (argon2 : Argon2 w)
  | reserve
  | clear
  | call (call : Call w)

namespace Hasher
variable {w : PointerWidth} (wipeEnabled : Bool) (backend : Backend) (compress : CompressFn)

/-- `Argon2::hasher`: nothing is allocated. -/
def new (argon2 : Argon2 w) : Hasher w := ⟨argon2, Workspace.new⟩

def reservedBlocks (hasher : Hasher w) : ℕ := hasher.workspace.capacity

/-- One operation; only a hash or verify call gives an answer. -/
def step (env : Env) (hasher : Hasher w) : Operation w → Option Answer × Hasher w
  | .setArgon2 argon2 => (none, { hasher with argon2 })
  | .reserve => (none, { hasher with
      workspace := (hasher.workspace.reserve wipeEnabled w env.arenaAlloc
        hasher.argon2.params.memoryBlocks.toNat).workspace })
  | .clear => (none, { hasher with workspace := (hasher.workspace.clear wipeEnabled).workspace })
  | .call call =>
    let o := pooledCall wipeEnabled backend compress env hasher.argon2 call hasher.workspace
    (some o.result, { hasher with workspace := o.workspace })

def run (hasher : Hasher w) : List (Env × Operation w) → List (Option Answer) × Hasher w
  | [] => ([], hasher)
  | (env, op) :: ops =>
    let (answer, hasher) := hasher.step wipeEnabled backend compress env op
    let (answers, hasher) := hasher.run ops
    (answer :: answers, hasher)

end Hasher

end Argon2Rust.Pooling
