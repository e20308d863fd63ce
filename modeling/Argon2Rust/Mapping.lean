import Argon2Rust.AddressSpace
import Argon2Rust.Memory
import Argon2Rust.Programs
import Argon2Rust.StripePlan

set_option autoImplicit false

/-!
# Aligned mappings

`os::map_aligned`: a mapping larger than asked for by the alignment, of which the
slack on both sides of the aligned part is handed back. The run is a program
over the system calls it makes; it has no outcome where an address overflows.
-/
namespace Argon2Rust.Mapping
open Parameters Programs Tiling AddressSpace
open Capacity (addUsize)
open StripePlan (subUsize nextMultipleOf)

/-- What the system answers: to `sysconf(_SC_PAGESIZE)`, and to `mmap` by the length asked for. -/
structure Kernel where
  sysconf : ℤ
  mmap : ℕ → ℕ

inductive Call where
  | mmap (len raw : ℕ)
  | munmap (addr len : ℕ)
  deriving DecidableEq

abbrev Os (α : Type) := Program (List Call) Unit α

def mapFailed (w : PointerWidth) : ℕ := 2 ^ w.bits - 1

def pageSize (k : Kernel) : ℕ := if k.sysconf ≤ 0 then 4096 else k.sysconf.toNat

def mmap (k : Kernel) (len : ℕ) : Os ℕ := fun calls =>
  some (.ok (k.mmap len), calls ++ [.mmap len (k.mmap len)])

def munmap (addr len : ℕ) : Os Unit := fun calls => some (.ok (), calls ++ [.munmap addr len])

def checkedNextMultipleOf (w : PointerWidth) (x y : ℕ) : Option ℕ :=
  if y = 0 then none else nextMultipleOf w x y

def orNone {α : Type} (x : Option α) : Os α := Program.lift (x.elim (.error ()) .ok)

/-- `add` on a pointer: the address must not wrap. -/
def ptrAdd (w : PointerWidth) (ptr n : ℕ) : Option ℕ := addUsize w ptr n

def handBack (start : Option ℕ) (len : ℕ) : Os Unit :=
  if len ≠ 0 then do
    let addr ← Program.access start
    munmap addr len
  else pure ()

/-- The slack of the mapping at `raw` is handed back, on both sides of `[base, base + len)`. -/
def trim (w : PointerWidth) (align raw len : ℕ) : Os Piece := do
  let next ← Program.access (nextMultipleOf w raw align)
  let head ← Program.access (subUsize next raw)
  let tail ← Program.access (subUsize align head)
  handBack (some raw) head
  let base ← Program.access (ptrAdd w raw head)
  handBack (ptrAdd w base len) tail
  pure (base, len)

def mapAligned (w : PointerWidth) (k : Kernel) (bytes align : ℕ) : Os Piece := do
  let page := pageSize k
  let len ← orNone (checkedNextMultipleOf w bytes page)
  let total ← orNone (addUsize w len align)
  let raw ← mmap k total
  if raw = mapFailed w ∨ raw = 0 then Program.lift (.error ())
  else trim w align raw len

section Request
variable (w : PointerWidth) (k : Kernel) (bytes align : ℕ)

def roundedLen : ℕ := pageSize k * (bytes ⌈/⌉ pageSize k)

def overLen : ℕ := roundedLen k bytes + align

theorem pageSize_pos : 0 < pageSize k := by
  unfold pageSize
  split_ifs with h
  · decide
  · omega

theorem roundUp_lt (x : ℕ) {y : ℕ} (hy : 0 < y) : y * (x ⌈/⌉ y) < x + y := by
  have hle := Nat.mul_div_le (x + y - 1) y
  rw [Nat.ceilDiv_eq_add_pred_div]
  omega

variable {w k bytes align}

theorem checkedNextMultipleOf_some (hbytes : bytes < 2 ^ w.bits) (len : ℕ) :
    checkedNextMultipleOf w bytes (pageSize k) = some len ↔
      roundedLen k bytes = len ∧ len < 2 ^ w.bits := by
  unfold checkedNextMultipleOf
  rw [if_neg (pageSize_pos k).ne']
  exact StripePlan.nextMultipleOf_some hbytes (pageSize_pos k) len

theorem mapAligned_overflow (hbytes : bytes < 2 ^ w.bits) (hover : 2 ^ w.bits ≤ overLen k bytes align)
    (calls : List Call) : mapAligned w k bytes align calls = some (.error (), calls) := by
  unfold mapAligned
  rcases hlen : checkedNextMultipleOf w bytes (pageSize k) with _ | len
  · rfl
  · obtain ⟨rfl, -⟩ := (checkedNextMultipleOf_some hbytes len).mp hlen
    have hadd : addUsize w (roundedLen k bytes) align = none := if_neg (not_lt.mpr hover)
    change (orNone (addUsize w (roundedLen k bytes) align) >>= _) calls = _
    rw [hadd]
    rfl

/-- Past the two checks the mapping is asked for, and trimmed if the system makes it. -/
theorem mapAligned_request (hbytes : bytes < 2 ^ w.bits) (hover : overLen k bytes align < 2 ^ w.bits)
    (calls : List Call) :
    mapAligned w k bytes align calls =
      let raw := k.mmap (overLen k bytes align)
      let calls := calls ++ [.mmap (overLen k bytes align) raw]
      if raw = mapFailed w ∨ raw = 0 then some (.error (), calls)
      else trim w align raw (roundedLen k bytes) calls := by
  have hlen : checkedNextMultipleOf w bytes (pageSize k) = some (roundedLen k bytes) :=
    (checkedNextMultipleOf_some hbytes _).mpr ⟨rfl, (Nat.le_add_right _ _).trans_lt hover⟩
  have hadd : addUsize w (roundedLen k bytes) align = some (overLen k bytes align) := if_pos hover
  unfold mapAligned
  rw [hlen]
  change (orNone (addUsize w (roundedLen k bytes) align) >>= _) calls = _
  rw [hadd]
  change (if _ then _ else _ : Os Piece) _ = _
  by_cases h : k.mmap (overLen k bytes align) = mapFailed w ∨ k.mmap (overLen k bytes align) = 0
  · rw [if_pos h]
    exact (if_pos h).symm
  · rw [if_neg h]
    exact (if_neg h).symm

end Request

section Trim
variable {w : PointerWidth} {align raw len : ℕ}

def headLen (align raw : ℕ) : ℕ := align * (raw ⌈/⌉ align) - raw

def headSlack (align raw : ℕ) : List Piece :=
  if headLen align raw ≠ 0 then [(raw, headLen align raw)] else []

def tailSlack (align raw len : ℕ) : Piece :=
  (raw + headLen align raw + len, align - headLen align raw)

def slackOf (align raw len : ℕ) : List Piece := headSlack align raw ++ [tailSlack align raw len]

def unmapping (ranges : List Piece) : List Call :=
  ranges.map fun range => .munmap range.1 range.2

theorem headLen_lt (raw : ℕ) (halign : 0 < align) : headLen align raw < align := by
  have hlt := roundUp_lt raw halign
  unfold headLen
  omega

theorem add_headLen (raw : ℕ) (halign : 0 < align) :
    raw + headLen align raw = align * (raw ⌈/⌉ align) :=
  Nat.add_sub_of_le (le_smul_ceilDiv halign)

theorem handBack_pos (addr : ℕ) (hlen : len ≠ 0) (calls : List Call) :
    handBack (some addr) len calls = some (.ok (), calls ++ unmapping [(addr, len)]) := by
  unfold handBack
  rw [if_pos hlen]
  rfl

theorem handBack_head (align raw : ℕ) (calls : List Call) :
    handBack (some raw) (headLen align raw) calls =
      some (.ok (), calls ++ unmapping (headSlack align raw)) := by
  unfold headSlack
  by_cases h : headLen align raw ≠ 0
  · rw [if_pos h, handBack_pos raw h]
  · unfold handBack
    rw [if_neg h, if_neg h, unmapping, List.map_nil, List.append_nil]
    rfl

/-- The two pieces of slack, the second of which is never empty. -/
theorem trim_eq (halign : 0 < align) (hfits : raw + (len + align) ≤ 2 ^ w.bits) (calls : List Call) :
    trim w align raw len calls =
      some (.ok (raw + headLen align raw, len),
        calls ++ unmapping (slackOf align raw len)) := by
  have hhead := headLen_lt raw halign
  have hsum := add_headLen raw halign
  have hnext : nextMultipleOf w raw align = some (raw + headLen align raw) :=
    (StripePlan.nextMultipleOf_some (by omega) halign _).mpr ⟨hsum.symm, by omega⟩
  have hsub : subUsize (raw + headLen align raw) raw = some (headLen align raw) :=
    (if_pos (Nat.le_add_right _ _)).trans (congrArg some (Nat.add_sub_cancel_left _ _))
  have htail : subUsize align (headLen align raw) = some (align - headLen align raw) :=
    if_pos hhead.le
  have hbase : ptrAdd w raw (headLen align raw) = some (raw + headLen align raw) :=
    if_pos (by omega)
  have hslack : ptrAdd w (raw + headLen align raw) len = some (raw + headLen align raw + len) :=
    if_pos (by omega)
  unfold trim
  rw [hnext, Program.access_some_bind, hsub, Program.access_some_bind, htail,
    Program.access_some_bind, Program.bind_of_ok (handBack_head align raw calls), hbase,
    Program.access_some_bind, hslack, Program.bind_of_ok (handBack_pos _ (by omega) _),
    List.append_assoc, unmapping, unmapping, ← List.map_append]
  rfl

end Trim

section Spec
variable (w : PointerWidth) (page align bytes : ℕ)

/-- What `mmap` answers when it makes a mapping of `len` bytes: neither null nor the failure
value, a page-aligned address from where the mapping fits the address space. -/
structure Grants (len raw : ℕ) : Prop where
  ne_null : raw ≠ 0
  ne_failed : raw ≠ mapFailed w
  page_dvd : page ∣ raw
  fits : raw + len ≤ 2 ^ w.bits

/-- `kept` is an aligned part of the mapping that is large enough, and the slack is the rest. -/
structure Trimmed (mapping kept : Piece) (slack : List Piece) : Prop where
  aligned : align ∣ kept.1
  room : bytes ≤ kept.2
  inside : mapping.1 ≤ kept.1 ∧ kept.1 + kept.2 ≤ mapping.1 + mapping.2
  pages : ∀ range ∈ slack, Whole page range
  partition : ∃ before after, slack = before ++ after ∧
    Tiles mapping.1 (before ++ kept :: after) (mapping.1 + mapping.2)

def afterCall (mapped : Set ℕ) : Call → Set ℕ
  | .mmap len raw => if raw = mapFailed w then mapped else AddressSpace.map page mapped (raw, len)
  | .munmap addr len => AddressSpace.unmap page mapped (addr, len)

def replay (mapped : Set ℕ) (calls : List Call) : Set ℕ := calls.foldl (afterCall w page) mapped

variable {w page align bytes}

theorem replay_unmapping (mapped : Set ℕ) (ranges : List Piece) :
    replay w page mapped (unmapping ranges) = ranges.foldl (AddressSpace.unmap page) mapped := by
  unfold replay unmapping
  rw [List.foldl_map]
  rfl

theorem slack_tiles (raw len : ℕ) (halign : 0 < align) :
    Tiles raw (headSlack align raw ++ (raw + headLen align raw, len) :: [tailSlack align raw len])
      (raw + (len + align)) := by
  have hhead := headLen_lt raw halign
  have hend : raw + (len + align) =
      raw + headLen align raw + len + (align - headLen align raw) := by omega
  have hrest : Tiles (raw + headLen align raw)
      ((raw + headLen align raw, len) :: [tailSlack align raw len]) (raw + (len + align)) := by
    rw [hend]
    exact .cons (.single _ _)
  unfold headSlack
  by_cases h : headLen align raw ≠ 0
  · rw [if_pos h]
    exact .cons hrest
  · rw [if_neg h]
    rw [not_not.mp h] at hrest ⊢
    exact hrest

theorem mapping_trimmed {k : Kernel} {raw : ℕ} (bytes : ℕ) (halign : 0 < align)
    (hdvd : pageSize k ∣ align) (hraw : pageSize k ∣ raw) :
    Trimmed (pageSize k) align bytes (raw, overLen k bytes align)
      (raw + headLen align raw, roundedLen k bytes) (slackOf align raw (roundedLen k bytes)) := by
  have htiles := slack_tiles raw (roundedLen k bytes) halign
  have hlen : pageSize k ∣ roundedLen k bytes := Nat.dvd_mul_right _ _
  have hroom : bytes ≤ roundedLen k bytes := le_smul_ceilDiv (pageSize_pos k)
  have hbase : align ∣ raw + headLen align raw := by
    rw [add_headLen raw halign]
    exact Nat.dvd_mul_right _ _
  have hhead : pageSize k ∣ headLen align raw := (Nat.dvd_add_right hraw).mp (hdvd.trans hbase)
  refine ⟨hbase, hroom, htiles.within _ (by simp), ?_, _, _, rfl, htiles⟩
  intro range hrange
  rcases List.mem_append.mp hrange with h | h
  · unfold headSlack at h
    split_ifs at h
    · rw [List.mem_singleton.mp h]
      exact ⟨hraw, hhead⟩
    · cases h
  · rw [List.mem_singleton.mp h]
    exact ⟨(hdvd.trans hbase).add hlen, Nat.dvd_sub hdvd hhead⟩

theorem replay_trimmed {k : Kernel} {raw : ℕ} {kept : Piece} {slack : List Piece}
    (hgrants : Grants w (pageSize k) (overLen k bytes align) raw) (hdvd : pageSize k ∣ align)
    (htrim : Trimmed (pageSize k) align bytes (raw, overLen k bytes align) kept slack)
    {mapped : Set ℕ} (hfresh : Disjoint mapped (addresses (raw, overLen k bytes align))) :
    replay w (pageSize k) mapped (.mmap (overLen k bytes align) raw :: unmapping slack) =
      mapped ∪ addresses kept := by
  obtain ⟨before, after, rfl, htiles⟩ := htrim.partition
  have hcall : afterCall w (pageSize k) mapped (.mmap (overLen k bytes align) raw) =
      AddressSpace.map (pageSize k) mapped (raw, overLen k bytes align) := if_neg hgrants.ne_failed
  have hwhole : Whole (pageSize k) (raw, overLen k bytes align) :=
    ⟨hgrants.page_dvd, (Nat.dvd_mul_right _ _).add hdvd⟩
  change replay w (pageSize k) (afterCall w (pageSize k) mapped _) (unmapping (before ++ after)) = _
  rw [hcall, replay_unmapping]
  exact trimmed (pageSize_pos k) htiles hwhole htrim.pages hfresh

section Answers
variable {k : Kernel} (hbytes : bytes < 2 ^ w.bits) (hover : overLen k bytes align < 2 ^ w.bits)
include hbytes hover

theorem mapAligned_refused
    (hrefused : k.mmap (overLen k bytes align) = mapFailed w ∨ k.mmap (overLen k bytes align) = 0)
    (calls : List Call) : mapAligned w k bytes align calls =
      some (.error (), calls ++ [.mmap (overLen k bytes align) (k.mmap (overLen k bytes align))]) := by
  rw [mapAligned_request hbytes hover]
  exact if_pos hrefused

variable (halign : 0 < align)
  (hgrants : Grants w (pageSize k) (overLen k bytes align) (k.mmap (overLen k bytes align)))
include halign hgrants

theorem mapAligned_granted (calls : List Call) :
    mapAligned w k bytes align calls =
      let raw := k.mmap (overLen k bytes align)
      some (.ok (raw + headLen align raw, roundedLen k bytes),
        calls ++ .mmap (overLen k bytes align) raw ::
          unmapping (slackOf align raw (roundedLen k bytes))) := by
  rw [mapAligned_request hbytes hover]
  dsimp only
  rw [if_neg (not_or.mpr ⟨hgrants.ne_failed, hgrants.ne_null⟩), trim_eq halign hgrants.fits,
    List.append_assoc]
  rfl

end Answers

/-- Whatever address the system gives the mapping, what is left of it after the slack is
unmapped is aligned and large enough; a request that overflows asks for nothing. -/
theorem mapAligned_trims (w : PointerWidth) (k : Kernel) (bytes align : ℕ)
    (hbytes : bytes < 2 ^ w.bits) (halign : 0 < align) (hdvd : pageSize k ∣ align) :
    let total := overLen k bytes align
    let raw := k.mmap total
    (total < 2 ^ w.bits → Grants w (pageSize k) total raw →
      ∃ base slack,
        (∀ calls, mapAligned w k bytes align calls =
          some (.ok (base, roundedLen k bytes), calls ++ .mmap total raw :: unmapping slack)) ∧
        Trimmed (pageSize k) align bytes (raw, total) (base, roundedLen k bytes) slack ∧
        ∀ mapped, Disjoint mapped (addresses (raw, total)) →
          replay w (pageSize k) mapped (.mmap total raw :: unmapping slack) =
            mapped ∪ addresses (base, roundedLen k bytes)) ∧
    (total < 2 ^ w.bits → raw = mapFailed w ∨ raw = 0 → ∀ calls,
      mapAligned w k bytes align calls = some (.error (), calls ++ [.mmap total raw])) ∧
    (2 ^ w.bits ≤ total → ∀ calls, mapAligned w k bytes align calls = some (.error (), calls)) := by
  dsimp only
  refine ⟨fun hover hgrants => ?_, mapAligned_refused hbytes, mapAligned_overflow hbytes⟩
  have htrim := mapping_trimmed bytes halign hdvd hgrants.page_dvd
  exact ⟨_, _, mapAligned_granted hbytes hover halign hgrants, htrim,
    fun mapped => replay_trimmed hgrants hdvd htrim⟩

theorem mapAligned_trims_unaligned :
    mapAligned .bits64 ⟨4096, fun _ => 0x7F3A12345000⟩ 0x300000 0x200000 [] =
      some (.ok (0x7F3A12400000, 0x300000),
        [.mmap 0x500000 0x7F3A12345000, .munmap 0x7F3A12345000 0xBB000,
          .munmap 0x7F3A12700000 0x145000]) ∧
      0x200000 ∣ 0x7F3A12400000 := by
  have hvalue : mapAligned .bits64 ⟨4096, fun _ => 0x7F3A12345000⟩ 0x300000 0x200000 [] =
      some (.ok (0x7F3A12400000, 0x300000),
        [.mmap 0x500000 0x7F3A12345000, .munmap 0x7F3A12345000 0xBB000,
          .munmap 0x7F3A12700000 0x145000]) := by rfl
  obtain ⟨base, slack, hrun, htrim, -⟩ := (mapAligned_trims .bits64
    ⟨4096, fun _ => 0x7F3A12345000⟩ 0x300000 0x200000 (by decide) (by decide) (by decide)).1
    (by decide) ⟨by decide, by decide, by decide, by decide⟩
  have hbase := (hrun []).symm.trans hvalue
  simp only [Option.some.injEq, Prod.mk.injEq, Except.ok.injEq] at hbase
  refine ⟨hvalue, ?_⟩
  rw [← hbase.1.1]
  exact htrim.aligned

end Spec

end Argon2Rust.Mapping
