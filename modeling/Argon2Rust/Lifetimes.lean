import Argon2Rust.ArenaBacking
import Argon2Rust.Ownership

set_option autoImplicit false

/-!
# The lifetimes of arenas

Arenas with their backing, parked in workspaces or in a caller's hands, under any
list of actions and any answers of the allocator and the kernel. The world logs
what it asks of the system. Every block is freed once, with the layout it was
allocated with, and every mapping is unmapped whole and once; what is out is what
the arenas are backed by.
-/
namespace Argon2Rust.Lifetimes
open Parameters Compression Hash Tiling AddressSpace Mapping ArenaBacking Ownership
open Memory (size_stores capacity_wipeVisible retarget_capacity)

inductive Event where
  | os (call : Mapping.Call)
  | alloc (block : HeapBlock)
  | dealloc (block : HeapBlock)

structure Answers where
  kernel : Kernel
  adviseHuge : Piece → Bool
  allocZeroed : ℕ → ℕ

/-- A guard knows the workspace that its arena goes back to. -/
inductive Place where
  | parked (workspace : ℕ)
  | owned (slot : ℕ)
  | onLoan (slot workspace : ℕ)
  deriving DecidableEq

structure World where
  arenas : Place → Option Placed
  events : List Event

def World.init : World := ⟨fun _ => none, []⟩

section Source
variable (wipeEnabled : Bool) (w : PointerWidth)

/-- `Arena::layout`; the other layout is the one the source calls unreachable. -/
def layout (a : Placed) : ℕ × ℕ :=
  if a.arena.capacity * blockSize ≤ 2 ^ (w.bits - 1) - arenaAlign then
    (a.arena.capacity * blockSize, arenaAlign)
  else (blockSize, arenaAlign)

def heapBlock (a : Placed) : HeapBlock := ⟨a.ptr, (layout w a).1, (layout w a).2⟩

def dropEvents (a : Placed) : List Event :=
  match a.backing with
  | .heap => [.dealloc (heapBlock w a)]
  | .mapped base len _ => [.os (.munmap base len)]

namespace World

def drop (W : World) (p : Place) : World :=
  match W.arenas p with
  | none => W
  | some a => ⟨Function.update W.arenas p none, W.events ++ dropEvents w a⟩

/-- `Arena::new`, with its place; it has no outcome where an address overflows. -/
def create (sys : Answers) (W : World) (p : Place) (blocks : ℕ) :
    Option (Except Error Unit × World) :=
  (ArenaBacking.new w sys.kernel sys.adviseHuge sys.allocZeroed blocks []).map fun run =>
    match run.1 with
    | .error e => (.error e, { W with events := W.events ++ run.2.map .os })
    | .ok a =>
      let served := match a.backing with
        | .heap => [.alloc ⟨a.ptr, blocks * blockSize, arenaAlign⟩]
        | .mapped _ _ _ => []
      (.ok (), ⟨Function.update W.arenas p (some a), W.events ++ (run.2.map .os ++ served)⟩)

def onArena (W : World) (p : Place) (f : Memory.Arena → Memory.Arena) : World :=
  match W.arenas p with
  | none => W
  | some a => { W with arenas := Function.update W.arenas p (some { a with arena := f a.arena }) }

def move (W : World) (p q : Place) : World :=
  { W with arenas := Function.update (Function.update W.arenas p none) q (W.arenas p) }

def capacity (W : World) (n : ℕ) : ℕ :=
  ((W.arenas (.parked n)).map fun a => a.arena.capacity).getD 0

def reserve (sys : Answers) (W : World) (n blocks : ℕ) : Option (Except Error Unit × World) :=
  if blocks = 0 ∨ W.capacity n ≥ blocks then some (.ok (), W)
  else match checkedLayout w blocks with
    | .error e => some (.error e, W)
    | .ok _ => (W.drop w (.parked n)).create w sys (.parked n) blocks

def takeOrNew (sys : Answers) (W : World) (n : ℕ) (p : Place) (blocks : ℕ) :
    Option (Except Error Unit × World) :=
  match W.arenas (.parked n) with
  | some a =>
    if a.arena.capacity ≥ blocks then
      some (.ok (), (W.onArena (.parked n) fun a => (a.retarget blocks).2).move (.parked n) p)
    else (W.drop w (.parked n)).create w sys p blocks
  | none => W.create w sys p blocks

def acquireOwned (sys : Answers) (W : World) (n : ℕ) (p : Place) (blocks : ℕ) :
    Option (Except Error Unit × World) :=
  if blocks = 0 then some (.error .memoryAllocationError, W)
  else if W.capacity n < blocks then match checkedLayout w blocks with
    | .error e => some (.error e, W)
    | .ok _ => W.takeOrNew w sys n p blocks
  else W.takeOrNew w sys n p blocks

def release (W : World) (n : ℕ) (p : Place) : World :=
  let W := W.onArena p (Memory.Arena.wipeVisible wipeEnabled)
  match W.arenas p with
  | none => W
  | some a =>
    let keepParked := (W.arenas (.parked n)).any fun parked =>
      parked.arena.capacity ≥ a.arena.capacity
    if keepParked then W.drop w p else (W.drop w (.parked n)).move p (.parked n)

end World

/-- A call names the places it works on, and brings the answers of the system. -/
inductive Action where
  | newArena (slot blocks : ℕ) (sys : Answers)
  | asMutSlice (p : Place) (stores : List (ℕ × Block))
  | asMutPtr (p : Place) (stores : List (ℕ × Block))
  | ensureZeroed (p : Place)
  | reserve (workspace blocks : ℕ) (sys : Answers)
  | acquire (slot workspace blocks : ℕ) (sys : Answers)
  | acquireOwned (slot workspace blocks : ℕ) (sys : Answers)
  | release (slot workspace : ℕ)
  | dropGuard (slot workspace : ℕ)
  | clear (workspace : ℕ)
  | dropArena (slot : ℕ)

def Action.answers : Action → Option Answers
  | .newArena _ _ sys | .reserve _ _ sys | .acquire _ _ _ sys | .acquireOwned _ _ _ sys => some sys
  | _ => none

namespace World

/-- A place in use takes no second arena. -/
def unlessUsed (W : World) (p : Place) (r : Option (Except Error Unit × World)) : Option World :=
  if (W.arenas p).isSome then some W else r.map Prod.snd

def step (W : World) : Action → Option World
  | .newArena slot blocks sys => W.unlessUsed (.owned slot) (W.create w sys (.owned slot) blocks)
  | .asMutSlice p stores => some (W.onArena p fun a => a.asMutSlice.store stores)
  | .asMutPtr p stores => some (W.onArena p fun a => a.asMutPtr.store stores)
  | .ensureZeroed p => some (W.onArena p Memory.Arena.ensureZeroed)
  | .reserve n blocks sys => (W.reserve w sys n blocks).map Prod.snd
  | .acquire slot n blocks sys =>
    W.unlessUsed (.onLoan slot n) (W.acquireOwned w sys n (.onLoan slot n) blocks)
  | .acquireOwned slot n blocks sys =>
    W.unlessUsed (.owned slot) (W.acquireOwned w sys n (.owned slot) blocks)
  | .release slot n => some (W.release wipeEnabled w n (.owned slot))
  | .dropGuard slot n => some (W.release wipeEnabled w n (.onLoan slot n))
  | .clear n => some (W.drop w (.parked n))
  | .dropArena slot => some (W.drop w (.owned slot))

def run (W : World) : List Action → Option World
  | [] => some W
  | action :: actions => do
    let W ← W.step wipeEnabled w action
    W.run actions

end World

end Source

section Judgement
variable (w : PointerWidth) (page : ℕ)

def after (m : System) : Event → System
  | .os call => { m with mapped := afterCall w page m.mapped call }
  | .alloc block => { m with heap := insert block m.heap }
  | .dealloc block => { m with heap := m.heap \ {block} }

/-- The system grants what it was asked for, and nothing that is out already. -/
def Honest (m : System) : Event → Prop
  | .os (.mmap len raw) => raw ≠ mapFailed w → Disjoint m.taken (addresses (raw, len))
  | .alloc block => Disjoint m.taken block.region ∧ block.align ∣ block.ptr
  | _ => True

/-- What is given back is out, and it is what was granted. -/
def Legal (m : System) : Event → Prop
  | .os (.munmap addr len) => page ∣ addr ∧ len ≠ 0 ∧ addresses (addr, len) ⊆ m.mapped
  | .dealloc block => block ∈ m.heap
  | _ => True

def Always (good : System → Event → Prop) (m : System) : List Event → Prop
  | [] => True
  | event :: events => good m event ∧ Always good (after w page m event) events

def World.system (W : World) : System := W.events.foldl (after w page) System.empty

def grant (a : Placed) : Grant :=
  match a.backing with
  | .heap => .heap (heapBlock w a)
  | .mapped base len _ => .mapping (base, len)

def World.owner (W : World) (p : Place) : Option Grant := (W.arenas p).map (grant w)

end Judgement

section Logs
variable {w : PointerWidth} {page : ℕ} {good : System → Event → Prop}

theorem always_append (m : System) (events events' : List Event) :
    Always w page good m (events ++ events') ↔ Always w page good m events ∧
      Always w page good (events.foldl (after w page) m) events' := by
  induction events generalizing m with
  | nil => exact (iff_of_eq (true_and _)).symm
  | cons event events ih => exact (and_congr_right fun _ => ih _).trans and_assoc.symm

theorem system_os (m : System) (calls : List Mapping.Call) :
    (calls.map Event.os).foldl (after w page) m =
      { m with mapped := replay w page m.mapped calls } := by
  induction calls generalizing m with
  | nil => rfl
  | cons call calls ih => exact ih _

theorem quiet_replay {calls : List Mapping.Call} (h : Quiet w calls) (mapped : Set ℕ) :
    replay w page mapped calls = mapped := by
  induction calls with
  | nil => rfl
  | cons call calls ih =>
    rw [Quiet, List.forall_mem_cons] at h
    obtain ⟨⟨len, rfl⟩, htail⟩ := h
    have hsame : afterCall w page mapped (.mmap len (mapFailed w)) = mapped := if_pos rfl
    change replay w page (afterCall w page mapped _) calls = mapped
    rw [hsame]
    exact ih htail

theorem quiet_legal {calls : List Mapping.Call} (h : Quiet w calls) (m : System) :
    Always w page (Legal page) m (calls.map .os) := by
  induction calls generalizing m with
  | nil => trivial
  | cons call calls ih =>
    rw [Quiet, List.forall_mem_cons] at h
    obtain ⟨⟨len, rfl⟩, htail⟩ := h
    exact ⟨trivial, ih htail _⟩

theorem unmapping_legal (hpage : 0 < page) {ranges : List Piece} (m : System)
    (hwhole : ∀ range ∈ ranges, Whole page range ∧ range.2 ≠ 0)
    (hdisjoint : ranges.Pairwise fun range range' => Disjoint (addresses range) (addresses range'))
    (hsub : ∀ range ∈ ranges, addresses range ⊆ m.mapped) :
    Always w page (Legal page) m ((unmapping ranges).map .os) := by
  induction ranges generalizing m with
  | nil => trivial
  | cons range ranges ih =>
    rw [List.forall_mem_cons] at hwhole hsub
    rw [List.pairwise_cons] at hdisjoint
    obtain ⟨⟨hpages, hpos⟩, hwhole⟩ := hwhole
    refine ⟨⟨hpages.start, hpos, hsub.1⟩, ih _ hwhole hdisjoint.2 ?_⟩
    intro range' hrange' x hx
    change x ∈ AddressSpace.unmap page m.mapped (range.1, range.2)
    rw [unmap_whole hpage hpages]
    exact ⟨hsub.2 range' hrange' hx, fun hx' =>
      Set.disjoint_left.mp (hdisjoint.1 range' hrange') hx' hx⟩

end Logs

section New
variable {w : PointerWidth} {k : Kernel}

theorem le_roundedLen (k : Kernel) (bytes : ℕ) : bytes ≤ roundedLen k bytes :=
  le_smul_ceilDiv (pageSize_pos k)

theorem slack_legal {align raw bytes : ℕ} (halign : 0 < align) (hpage : pageSize k ∣ align)
    (hgrants : Grants w (pageSize k) (overLen k bytes align) raw) (m : System) :
    Always w (pageSize k) (Legal (pageSize k))
      (after w (pageSize k) m (.os (.mmap (overLen k bytes align) raw)))
      ((unmapping (slackOf align raw (roundedLen k bytes))).map .os) := by
  have htrim : Trimmed (pageSize k) align bytes (raw, overLen k bytes align)
      (raw + headLen align raw, roundedLen k bytes) (slackOf align raw (roundedLen k bytes)) :=
    mapping_trimmed bytes halign hpage hgrants.page_dvd
  have hhead := headLen_lt raw halign
  refine unmapping_legal (pageSize_pos k) _ ?_ ?_ ?_
  · intro range hrange
    refine ⟨htrim.pages range hrange, ?_⟩
    rcases List.mem_append.mp hrange with hrange | hrange
    · unfold headSlack at hrange
      split_ifs at hrange with hne
      · rw [List.mem_singleton.mp hrange]
        exact hne
      · cases hrange
    · rw [List.mem_singleton.mp hrange]
      exact Nat.sub_ne_zero_of_lt hhead
  · unfold slackOf headSlack
    split_ifs with hne
    · refine List.pairwise_pair.mpr (Set.disjoint_left.mpr fun x hx hx' => ?_)
      have hx := hx.2
      have hx' := hx'.1
      dsimp only [tailSlack] at hx hx'
      omega
    · exact List.pairwise_singleton _ _
  · intro range hrange x hx
    have hcall : afterCall w (pageSize k) m.mapped (.mmap (overLen k bytes align) raw) =
        AddressSpace.map (pageSize k) m.mapped (raw, overLen k bytes align) :=
      if_neg hgrants.ne_failed
    change x ∈ afterCall w (pageSize k) m.mapped (.mmap (overLen k bytes align) raw)
    rw [hcall, map_whole (pageSize_pos k) ⟨hgrants.page_dvd, (Nat.dvd_mul_right _ _).add hpage⟩]
    right
    obtain ⟨before, behind, heq, htiles⟩ := htrim.partition
    have hmem : range ∈ before ++ (raw + headLen align raw, roundedLen k bytes) :: behind := by
      rw [heq, List.mem_append] at hrange
      rw [List.mem_append]
      exact hrange.imp_right (List.mem_cons_of_mem _)
    obtain ⟨hlow, hhigh⟩ := htiles.within range hmem
    exact ⟨hlow.trans hx.1, hx.2.trans_le hhigh⟩

theorem mapped_events {align raw bytes : ℕ} (halign : 0 < align) (hpage : pageSize k ∣ align)
    (hgrants : Grants w (pageSize k) (overLen k bytes align) raw) {m : System}
    (hfresh : Disjoint m.taken (addresses (raw, overLen k bytes align))) :
    let events := (.mmap (overLen k bytes align) raw ::
      unmapping (slackOf align raw (roundedLen k bytes))).map Event.os
    let kept : Piece := (raw + headLen align raw, roundedLen k bytes)
    Always w (pageSize k) (Legal (pageSize k)) m events ∧
      events.foldl (after w (pageSize k)) m = { m with mapped := m.mapped ∪ addresses kept } ∧
      Disjoint m.taken (addresses kept) := by
  intro events kept
  have htrim : Trimmed (pageSize k) align bytes (raw, overLen k bytes align) kept
      (slackOf align raw (roundedLen k bytes)) :=
    mapping_trimmed bytes halign hpage hgrants.page_dvd
  have hmapped : Disjoint m.mapped (addresses (raw, overLen k bytes align)) :=
    hfresh.mono_left fun x hx => Or.inl hx
  have hinside : addresses kept ⊆ addresses (raw, overLen k bytes align) :=
    Set.Ico_subset_Ico htrim.inside.1 htrim.inside.2
  refine ⟨⟨trivial, slack_legal halign hpage hgrants m⟩, ?_, hfresh.mono_right hinside⟩
  rw [system_os, replay_trimmed hgrants hpage htrim hmapped]

end New

/-- The window lies in the blocks and the blocks in the grant, and the layout that frees them
exists. -/
structure Fit (w : PointerWidth) (page : ℕ) (a : Placed) : Prop where
  layout : checkedLayout w a.arena.capacity = .ok (a.arena.capacity * blockSize)
  window : a.arena.blocks ≤ a.arena.capacity
  aligned : arenaAlign ∣ a.ptr
  backed : ∀ base len huge, a.backing = .mapped base len huge →
    a.ptr = base ∧ Whole page (base, len) ∧ a.arena.capacity * blockSize ≤ len

/-- What every action keeps. -/
structure Good (w : PointerWidth) (page : ℕ) (W : World) : Prop where
  legal : Always w page (Legal page) System.empty W.events
  accounted : Accounted (W.owner w) (W.system w page)
  fit : ∀ p a, W.arenas p = some a → Fit w page a

section Worlds
variable {w : PointerWidth} {page : ℕ} {W : World} {p q : Place} {a : Placed}

theorem Fit.capacity_pos (h : Fit w page a) : 0 < a.arena.capacity * blockSize := by
  obtain ⟨⟨hpos, -, -⟩, -⟩ := (checkedLayout_ok_iff w _ _).mp h.layout
  exact Nat.mul_pos (Nat.pos_of_ne_zero hpos) (by decide)

/-- The layout to free a block with is the one it was allocated with. -/
theorem Fit.layout_eq (h : Fit w page a) :
    Lifetimes.layout w a = (a.arena.capacity * blockSize, arenaAlign) := by
  obtain ⟨⟨-, -, hle⟩, -⟩ := (checkedLayout_ok_iff w _ _).mp h.layout
  exact if_pos hle

theorem grant_heap (h : a.backing = .heap) : grant w a = .heap (heapBlock w a) := by
  unfold grant
  rw [h]

theorem grant_mapped {base len : ℕ} {huge : Bool} (h : a.backing = .mapped base len huge) :
    grant w a = .mapping (base, len) := by
  unfold grant
  rw [h]

theorem owner_update (arenas : Place → Option Placed) (events : List Event) (x : Option Placed) :
    (⟨Function.update arenas p x, events⟩ : World).owner w =
      Function.update (World.owner w ⟨arenas, events⟩) p (x.map (grant w)) :=
  Function.comp_update (Option.map (grant w)) arenas p x

theorem system_append (arenas : Place → Option Placed) (events events' : List Event) :
    World.system w page ⟨arenas, events ++ events'⟩ =
      events'.foldl (after w page) (events.foldl (after w page) System.empty) :=
  List.foldl_append

theorem good_init : Good w page World.init where
  legal := trivial
  accounted := accounted_empty
  fit _ _ h := by cases h

theorem Good.drop (h : Good w page W) (hpage : 0 < page) (p : Place) :
    Good w page (W.drop w p) := by
  unfold World.drop
  cases hp : W.arenas p with
  | none => exact h
  | some a =>
    have howner : W.owner w p = some (grant w a) := congrArg (Option.map (grant w)) hp
    have hfit := h.fit p a hp
    have hrest : ∀ q b, Function.update W.arenas p none q = some b → Fit w page b := by
      intro q b hq
      by_cases hqp : q = p
      · rw [hqp, Function.update_self] at hq
        cases hq
      · rw [Function.update_of_ne hqp] at hq
        exact h.fit q b hq
    dsimp only
    cases hbacking : a.backing with
    | heap =>
      have hevents : dropEvents w a = [.dealloc (heapBlock w a)] := by
        unfold dropEvents
        rw [hbacking]
      rw [grant_heap hbacking] at howner
      have hout := (h.accounted.heap _).mpr ⟨p, howner⟩
      rw [hevents]
      refine ⟨(always_append _ _ _).mpr ⟨h.legal, hout, trivial⟩, ?_, hrest⟩
      rw [owner_update, system_append]
      refine h.accounted.returned howner (fun block => ?_) fun x => ?_
      · refine and_congr_right fun _ => ?_
        rw [Set.mem_singleton_iff, ne_eq, Grant.heap.injEq, eq_comm]
      · exact (and_iff_left fun range hrange => by cases hrange).symm
    | mapped base len huge =>
      obtain ⟨-, hwhole, hroom⟩ := hfit.backed base len huge hbacking
      have hpos : len ≠ 0 := (hfit.capacity_pos.trans_le hroom).ne'
      have hevents : dropEvents w a = [.os (.munmap base len)] := by
        unfold dropEvents
        rw [hbacking]
      rw [grant_mapped hbacking] at howner
      have hout := h.accounted.mapping_subset howner
      rw [hevents]
      refine ⟨(always_append _ _ _).mpr ⟨h.legal, ⟨hwhole.start, hpos, hout⟩, trivial⟩, ?_, hrest⟩
      rw [owner_update, system_append]
      refine h.accounted.returned howner (fun block => ?_) fun x => ?_
      · exact (and_iff_left fun hblock => by cases hblock).symm
      · change x ∈ AddressSpace.unmap page (W.system w page).mapped (base, len) ↔ _
        rw [unmap_whole hpage hwhole]
        refine and_congr_right fun _ => ?_
        constructor
        · rintro hx range hrange
          rw [← Grant.mapping.inj hrange]
          exact hx
        · exact fun hx => hx (base, len) rfl

theorem drop_arenas (W : World) (p : Place) :
    (W.drop w p).arenas = Function.update W.arenas p none := by
  unfold World.drop
  cases hp : W.arenas p with
  | none =>
    dsimp only
    rw [← hp, Function.update_eq_self]
  | some a => rfl

theorem Good.onArena (h : Good w page W) (p : Place) {f : Memory.Arena → Memory.Arena}
    (hcapacity : ∀ a, (f a).capacity = a.capacity)
    (hwindow : ∀ a : Memory.Arena, a.blocks ≤ a.capacity → (f a).blocks ≤ a.capacity) :
    Good w page (W.onArena p f) := by
  unfold World.onArena
  cases hp : W.arenas p with
  | none => exact h
  | some a =>
    have hgrant : grant w { a with arena := f a.arena } = grant w a := by
      unfold grant heapBlock layout
      simp only [hcapacity]
    have hsame : Function.update (W.owner w) p (some (grant w a)) = W.owner w := by
      have howner : W.owner w p = some (grant w a) := congrArg (Option.map (grant w)) hp
      rw [← howner, Function.update_eq_self]
    refine ⟨h.legal, ?_, ?_⟩
    · rw [owner_update, Option.map_some, hgrant]
      exact hsame.symm ▸ h.accounted
    · intro q b hq
      dsimp only at hq
      by_cases hqp : q = p
      · rw [hqp, Function.update_self, Option.some.injEq] at hq
        obtain ⟨hlayout, hle, haligned, hbacked⟩ := h.fit p a hp
        rw [← hq]
        refine ⟨?_, ?_, haligned, ?_⟩
        · rw [hcapacity]
          exact hlayout
        · rw [hcapacity]
          exact hwindow a.arena hle
        · rw [hcapacity]
          exact hbacked
      · rw [Function.update_of_ne hqp] at hq
        exact h.fit q b hq

theorem Good.move (h : Good w page W) (hp : W.arenas p = some a) (hq : W.arenas q = none) :
    Good w page (W.move p q) := by
  have howner : W.owner w p = some (grant w a) := congrArg (Option.map (grant w)) hp
  have hfree : W.owner w q = none := congrArg (Option.map (grant w)) hq
  refine ⟨h.legal, ?_, ?_⟩
  · unfold World.move
    rw [owner_update, owner_update, hp]
    exact h.accounted.moved howner hfree
  · intro r b hr
    unfold World.move at hr
    dsimp only at hr
    by_cases hrq : r = q
    · rw [hrq, Function.update_self] at hr
      exact h.fit p b hr
    · rw [Function.update_of_ne hrq] at hr
      by_cases hrp : r = p
      · rw [hrp, Function.update_self] at hr
        cases hr
      · rw [Function.update_of_ne hrp] at hr
        exact h.fit r b hr

/-- The log grows, and while the system is honest the invariant goes on. -/
structure Extends (w : PointerWidth) (page : ℕ) (W W' : World) : Prop where
  grows : ∃ events, W'.events = W.events ++ events
  good : Always w page (Honest w) System.empty W'.events → Good w page W → Good w page W'

theorem Extends.refl (W : World) : Extends w page W W :=
  ⟨⟨[], (List.append_nil _).symm⟩, fun _ h => h⟩

theorem Extends.honest {W' : World} (h : Extends w page W W')
    (honest : Always w page (Honest w) System.empty W'.events) :
    Always w page (Honest w) System.empty W.events := by
  obtain ⟨events, hevents⟩ := h.grows
  rw [hevents] at honest
  exact ((always_append _ _ _).mp honest).1

theorem Extends.trans {W' W'' : World} (h : Extends w page W W') (h' : Extends w page W' W'') :
    Extends w page W W'' := by
  obtain ⟨events, hevents⟩ := h.grows
  obtain ⟨events', hevents'⟩ := h'.grows
  refine ⟨⟨events ++ events', ?_⟩, fun honest hW => h'.good honest (h.good (h'.honest honest) hW)⟩
  rw [hevents', hevents, List.append_assoc]

theorem drop_extends (hpage : 0 < page) (W : World) (p : Place) :
    Extends w page W (W.drop w p) := by
  refine ⟨?_, fun _ h => h.drop hpage p⟩
  unfold World.drop
  cases W.arenas p with
  | none => exact ⟨[], (List.append_nil _).symm⟩
  | some a => exact ⟨_, rfl⟩

theorem onArena_extends (W : World) (p : Place) {f : Memory.Arena → Memory.Arena}
    (hcapacity : ∀ a, (f a).capacity = a.capacity)
    (hwindow : ∀ a : Memory.Arena, a.blocks ≤ a.capacity → (f a).blocks ≤ a.capacity) :
    Extends w page W (W.onArena p f) := by
  refine ⟨?_, fun _ h => h.onArena p hcapacity hwindow⟩
  unfold World.onArena
  cases W.arenas p <;> exact ⟨[], (List.append_nil _).symm⟩

theorem move_extends (hp : W.arenas p = some a) (hq : W.arenas q = none) :
    Extends w page W (W.move p q) :=
  ⟨⟨[], (List.append_nil _).symm⟩, fun _ h => h.move hp hq⟩

theorem freshArena_capacity (blocks : ℕ) : (freshArena blocks).capacity = blocks :=
  Array.size_replicate

theorem fit_update (h : Good w page W) (ha : Fit w page a) :
    ∀ q b, Function.update W.arenas p (some a) q = some b → Fit w page b := by
  intro q b hq
  by_cases hqp : q = p
  · rw [hqp, Function.update_self] at hq
    rw [← Option.some.inj hq]
    exact ha
  · rw [Function.update_of_ne hqp] at hq
    exact h.fit q b hq

section Create
variable (hp : W.arenas p = none) (h : Good w page W) {made : List Mapping.Call} {blocks : ℕ}
  (hlayout : checkedLayout w blocks = .ok (blocks * blockSize))
include hp h hlayout

theorem Good.served {ptr : ℕ} (hquiet : Quiet w made)
    (honest : Always w page (Honest w) System.empty
      (W.events ++ (made.map .os ++ [.alloc ⟨ptr, blocks * blockSize, arenaAlign⟩]))) :
    Good w page ⟨Function.update W.arenas p (some ⟨ptr, freshArena blocks, .heap⟩),
      W.events ++ (made.map .os ++ [.alloc ⟨ptr, blocks * blockSize, arenaAlign⟩])⟩ := by
  have hcapacity := freshArena_capacity blocks
  have hsame : (made.map Event.os).foldl (after w page) (W.system w page) = W.system w page := by
    rw [system_os, quiet_replay hquiet]
  have hsystem : W.events.foldl (after w page) System.empty = W.system w page := rfl
  rw [always_append, always_append, hsystem, hsame] at honest
  obtain ⟨-, -, ⟨hfresh, haligned⟩, -⟩ := honest
  have hclear : Disjoint (W.system w page).taken
      (Grant.heap ⟨ptr, blocks * blockSize, arenaAlign⟩).region := hfresh
  have hfit : Fit w page ⟨ptr, freshArena blocks, .heap⟩ := by
    refine ⟨?_, hcapacity.ge, haligned, fun _ _ _ hb => by cases hb⟩
    rw [hcapacity]
    exact hlayout
  have hgrant : grant w ⟨ptr, freshArena blocks, .heap⟩ =
      .heap ⟨ptr, blocks * blockSize, arenaAlign⟩ := by
    rw [grant_heap rfl, heapBlock, hfit.layout_eq, hcapacity]
  have hpos := hfit.capacity_pos
  rw [hcapacity] at hpos
  refine ⟨?_, ?_, fit_update h hfit⟩
  · rw [always_append, always_append, hsystem, hsame]
    exact ⟨h.legal, quiet_legal hquiet _, trivial, trivial⟩
  · rw [owner_update, Option.map_some, hgrant, system_append, List.foldl_append, hsystem, hsame]
    refine h.accounted.granted (congrArg (Option.map (grant w)) hp) hclear ?_ (fun block => ?_)
      fun x => ?_
    · exact Set.nonempty_Ico.mpr (Nat.lt_add_of_pos_right hpos)
    · change block ∈ insert _ (W.system w page).heap ↔ _
      rw [Set.mem_insert_iff, Grant.heap.injEq, or_comm, eq_comm]
    · exact (or_iff_left fun ⟨_, hrange, _⟩ => by cases hrange).symm

theorem Good.mapped {k : Kernel} (hpage : pageSize k = page) {align raw : ℕ} {huge : Bool}
    (halign : 0 < align) (harena : arenaAlign ∣ align) (hdvd : pageSize k ∣ align)
    (hgrants : Grants w (pageSize k) (overLen k (blocks * blockSize) align) raw)
    (honest : Always w page (Honest w) System.empty
      (W.events ++ (.mmap (overLen k (blocks * blockSize) align) raw ::
        unmapping (slackOf align raw (roundedLen k (blocks * blockSize)))).map .os)) :
    Good w page ⟨Function.update W.arenas p (some ⟨raw + headLen align raw, freshArena blocks,
        .mapped (raw + headLen align raw) (roundedLen k (blocks * blockSize)) huge⟩),
      W.events ++ (.mmap (overLen k (blocks * blockSize) align) raw ::
        unmapping (slackOf align raw (roundedLen k (blocks * blockSize)))).map .os⟩ := by
  subst hpage
  have hcapacity := freshArena_capacity blocks
  have hsystem : W.events.foldl (after w (pageSize k)) System.empty = W.system w (pageSize k) := rfl
  have hbase : align ∣ raw + headLen align raw := by
    rw [add_headLen raw halign]
    exact Nat.dvd_mul_right _ _
  have hroom : blocks * blockSize ≤ roundedLen k (blocks * blockSize) := le_roundedLen k _
  rw [always_append, hsystem] at honest
  obtain ⟨hlegal, hafter, hfresh⟩ :=
    mapped_events halign hdvd hgrants (honest.2.1 hgrants.ne_failed)
  have hclear : Disjoint (W.system w (pageSize k)).taken (Grant.mapping
      (raw + headLen align raw, roundedLen k (blocks * blockSize))).region := hfresh
  have hfit : Fit w (pageSize k) ⟨raw + headLen align raw, freshArena blocks,
      .mapped (raw + headLen align raw) (roundedLen k (blocks * blockSize)) huge⟩ := by
    refine ⟨?_, hcapacity.ge, harena.trans hbase, ?_⟩
    · rw [hcapacity]
      exact hlayout
    · rintro base len huge' hb
      cases hb
      rw [hcapacity]
      exact ⟨rfl, ⟨hdvd.trans hbase, Nat.dvd_mul_right _ _⟩, hroom⟩
  have hpos := hfit.capacity_pos
  rw [hcapacity] at hpos
  refine ⟨?_, ?_, fit_update h hfit⟩
  · rw [always_append, hsystem]
    exact ⟨h.legal, hlegal⟩
  · rw [owner_update, Option.map_some, grant_mapped rfl, system_append, hsystem, hafter]
    refine h.accounted.granted (congrArg (Option.map (grant w)) hp) hclear ?_ (fun block => ?_)
      fun x => ?_
    · exact Set.nonempty_Ico.mpr (Nat.lt_add_of_pos_right (hpos.trans_le hroom))
    · exact (or_iff_left fun hblock => by cases hblock).symm
    · change x ∈ (W.system w (pageSize k)).mapped ∪ _ ↔ _
      refine or_congr_right ?_
      constructor
      · exact fun hx => ⟨_, rfl, hx⟩
      · rintro ⟨range, hrange, hx⟩
        rw [Grant.mapping.inj hrange]
        exact hx

end Create

theorem create_extends {sys : Answers} (hk : ArenaBacking.Lawful w sys.kernel)
    (hpage : pageSize sys.kernel = page) (hp : W.arenas p = none) (blocks : ℕ) :
    ∃ r W', W.create w sys p blocks = some (r, W') ∧ Extends w page W W' := by
  unfold World.create
  obtain ⟨made, e, hquiet, -, hnew⟩ | ⟨made, ptr, hquiet, hlayout, hnew⟩ |
    ⟨raw, huge, hlayout, hgrants, hnew⟩ := new_outcomes hk sys.adviseHuge sys.allocZeroed blocks
  · rw [hnew]
    refine ⟨_, _, rfl, ⟨_, rfl⟩, fun _ h => ⟨?_, ?_, h.fit⟩⟩
    · exact (always_append _ _ _).mpr ⟨h.legal, quiet_legal hquiet _⟩
    · rw [system_append, system_os, quiet_replay hquiet]
      exact h.accounted
  · rw [hnew]
    exact ⟨_, _, rfl, ⟨_, rfl⟩, fun honest h => h.served hp hlayout hquiet honest⟩
  · rw [hnew]
    refine ⟨_, _, rfl, ⟨_, rfl⟩, fun honest h => ?_⟩
    dsimp only at honest ⊢
    rw [List.append_nil] at honest ⊢
    exact h.mapped hp hlayout hpage (by decide) (by decide) hk.page_dvd hgrants honest

theorem onArena_none {f : Memory.Arena → Memory.Arena} (hq : W.arenas q = none) :
    (W.onArena p f).arenas q = none := by
  unfold World.onArena
  cases hp : W.arenas p with
  | none => exact hq
  | some a =>
    have hne : q ≠ p := by
      rintro rfl
      rw [hq] at hp
      cases hp
    exact (Function.update_of_ne hne _ _).trans hq

theorem retarget_window (a : Memory.Arena) (blocks : ℕ) (h : a.blocks ≤ a.capacity) :
    (a.retarget blocks).2.blocks ≤ a.capacity := by
  unfold Memory.Arena.retarget
  split
  · exact h
  · exact Nat.le_of_not_lt (by assumption)

theorem unlessUsed_extends (p : Place) {r : Option (Except Error Unit × World)}
    (hr : W.arenas p = none → ∃ x W', r = some (x, W') ∧ Extends w page W W') :
    ∃ W', W.unlessUsed p r = some W' ∧ Extends w page W W' := by
  unfold World.unlessUsed
  cases hp : W.arenas p with
  | some a => exact ⟨W, rfl, .refl W⟩
  | none =>
    obtain ⟨x, W', rfl, hext⟩ := hr hp
    exact ⟨W', rfl, hext⟩

section Calls
variable (hpage : 0 < page)
include hpage

section Workspaces
variable {sys : Answers} (hk : ArenaBacking.Lawful w sys.kernel) (hsys : pageSize sys.kernel = page)
include hk hsys

theorem takeOrNew_extends (hp : W.arenas p = none) (n blocks : ℕ) :
    ∃ r W', W.takeOrNew w sys n p blocks = some (r, W') ∧ Extends w page W W' := by
  unfold World.takeOrNew
  cases hparked : W.arenas (.parked n) with
  | none => exact create_extends hk hsys hp blocks
  | some a =>
    dsimp only
    by_cases hfits : a.arena.capacity ≥ blocks
    · rw [if_pos hfits]
      have htaken : (W.onArena (.parked n) fun a => (a.retarget blocks).2).arenas (.parked n) =
          some { a with arena := (a.arena.retarget blocks).2 } := by
        unfold World.onArena
        rw [hparked]
        exact Function.update_self _ _ _
      refine ⟨_, _, rfl, (onArena_extends W _ ?_ ?_).trans (move_extends htaken (onArena_none hp))⟩
      · exact fun a => retarget_capacity a blocks
      · exact fun a => retarget_window a blocks
    · rw [if_neg hfits]
      have hne : p ≠ .parked n := by
        rintro rfl
        rw [hp] at hparked
        cases hparked
      have hp' : (W.drop w (.parked n)).arenas p = none := by
        rw [drop_arenas, Function.update_of_ne hne, hp]
      obtain ⟨r, W', hrun, hext⟩ := create_extends hk hsys hp' blocks
      exact ⟨r, W', hrun, (drop_extends hpage W _).trans hext⟩

theorem acquireOwned_extends (hp : W.arenas p = none) (n blocks : ℕ) :
    ∃ r W', W.acquireOwned w sys n p blocks = some (r, W') ∧ Extends w page W W' := by
  unfold World.acquireOwned
  by_cases hzero : blocks = 0
  · rw [if_pos hzero]
    exact ⟨_, W, rfl, .refl W⟩
  · rw [if_neg hzero]
    by_cases hgrows : W.capacity n < blocks
    · rw [if_pos hgrows]
      cases checkedLayout w blocks with
      | error e => exact ⟨_, W, rfl, .refl W⟩
      | ok _ => exact takeOrNew_extends hpage hk hsys hp n blocks
    · rw [if_neg hgrows]
      exact takeOrNew_extends hpage hk hsys hp n blocks

theorem reserve_extends (W : World) (n blocks : ℕ) :
    ∃ r W', W.reserve w sys n blocks = some (r, W') ∧ Extends w page W W' := by
  unfold World.reserve
  by_cases hroom : blocks = 0 ∨ W.capacity n ≥ blocks
  · rw [if_pos hroom]
    exact ⟨_, W, rfl, .refl W⟩
  · rw [if_neg hroom]
    cases checkedLayout w blocks with
    | error e => exact ⟨_, W, rfl, .refl W⟩
    | ok _ =>
      have hp : (W.drop w (.parked n)).arenas (.parked n) = none := by
        rw [drop_arenas, Function.update_self]
      obtain ⟨r, W', hrun, hext⟩ := create_extends hk hsys hp blocks
      exact ⟨r, W', hrun, (drop_extends hpage W _).trans hext⟩

end Workspaces

theorem release_extends (wipeEnabled : Bool) (W : World) {n : ℕ} (hne : p ≠ .parked n) :
    Extends w page W (W.release wipeEnabled w n p) := by
  have hwiped : Extends w page W (W.onArena p (Memory.Arena.wipeVisible wipeEnabled)) :=
    onArena_extends W p (capacity_wipeVisible wipeEnabled) fun _ h => h
  unfold World.release
  dsimp only
  generalize W.onArena p (Memory.Arena.wipeVisible wipeEnabled) = V at hwiped ⊢
  cases hp : V.arenas p with
  | none => exact hwiped
  | some a =>
    dsimp only
    by_cases hkeep : ((V.arenas (.parked n)).any fun parked =>
        parked.arena.capacity ≥ a.arena.capacity) = true
    · rw [if_pos hkeep]
      exact hwiped.trans (drop_extends hpage V p)
    · rw [if_neg hkeep]
      refine (hwiped.trans (drop_extends hpage V (.parked n))).trans (move_extends (a := a) ?_ ?_)
      · rw [drop_arenas, Function.update_of_ne hne, hp]
      · rw [drop_arenas, Function.update_self]

variable (wipeEnabled : Bool)

/-- Every action has an outcome, and keeps the invariant. -/
theorem step_extends (W : World) (action : Action)
    (hsys : ∀ sys, action.answers = some sys →
      ArenaBacking.Lawful w sys.kernel ∧ pageSize sys.kernel = page) :
    ∃ W', W.step wipeEnabled w action = some W' ∧ Extends w page W W' := by
  cases action with
  | newArena slot blocks sys =>
    obtain ⟨hk, hpages⟩ := hsys sys rfl
    exact unlessUsed_extends _ fun hp => create_extends hk hpages hp blocks
  | asMutSlice p stores =>
    exact ⟨_, rfl, onArena_extends W p (fun a => size_stores stores _) fun _ h => h⟩
  | asMutPtr p stores =>
    exact ⟨_, rfl, onArena_extends W p (fun a => size_stores stores _) fun _ h => h⟩
  | ensureZeroed p =>
    refine ⟨_, rfl, onArena_extends W p (fun a => ?_) fun a h => ?_⟩
    · unfold Memory.Arena.ensureZeroed
      split
      · rfl
      · exact Array.size_replicate
    · unfold Memory.Arena.ensureZeroed
      split <;> exact h
  | reserve n blocks sys =>
    obtain ⟨hk, hpages⟩ := hsys sys rfl
    obtain ⟨r, W', hrun, hext⟩ := reserve_extends hpage hk hpages W n blocks
    exact ⟨W', congrArg (Option.map Prod.snd) hrun, hext⟩
  | acquire slot n blocks sys =>
    obtain ⟨hk, hpages⟩ := hsys sys rfl
    exact unlessUsed_extends _ fun hp =>
      acquireOwned_extends hpage hk hpages hp n blocks
  | acquireOwned slot n blocks sys =>
    obtain ⟨hk, hpages⟩ := hsys sys rfl
    exact unlessUsed_extends _ fun hp =>
      acquireOwned_extends hpage hk hpages hp n blocks
  | release slot n => exact ⟨_, rfl, release_extends hpage wipeEnabled W nofun⟩
  | dropGuard slot n => exact ⟨_, rfl, release_extends hpage wipeEnabled W nofun⟩
  | clear n => exact ⟨_, rfl, drop_extends hpage W _⟩
  | dropArena slot => exact ⟨_, rfl, drop_extends hpage W _⟩

theorem run_extends (W : World) (actions : List Action)
    (hsys : ∀ action ∈ actions, ∀ sys, action.answers = some sys →
      ArenaBacking.Lawful w sys.kernel ∧ pageSize sys.kernel = page) :
    ∃ W', W.run wipeEnabled w actions = some W' ∧ Extends w page W W' := by
  induction actions generalizing W with
  | nil => exact ⟨W, rfl, .refl W⟩
  | cons action actions ih =>
    rw [List.forall_mem_cons] at hsys
    obtain ⟨V, hstep, hV⟩ := step_extends hpage wipeEnabled W action hsys.1
    obtain ⟨W', hrun, hW'⟩ := ih V hsys.2
    refine ⟨W', ?_, hV.trans hW'⟩
    unfold World.run
    rw [hstep]
    exact hrun

end Calls

theorem Fit.inside (h : Fit w page a) :
    addresses (a.ptr, a.arena.capacity * blockSize) ⊆ (grant w a).region := by
  cases hbacking : a.backing with
  | heap =>
    rw [grant_heap hbacking, heapBlock, h.layout_eq]
    exact Set.Subset.refl _
  | mapped base len huge =>
    obtain ⟨hptr, -, hroom⟩ := h.backed base len huge hbacking
    rw [grant_mapped hbacking, hptr]
    exact Set.Ico_subset_Ico_right (Nat.add_le_add_left hroom base)

end Worlds

/-- Where nothing is held and nothing parked, nothing is out. -/
theorem accounted_none {owner : Place → Option Grant} {m : System} (h : Accounted owner m)
    (hnone : ∀ p, owner p = none) : m = System.empty := by
  have hheap : m.heap = ∅ := Set.eq_empty_of_forall_notMem fun block hblock => by
    obtain ⟨p, hp⟩ := (h.heap block).mp hblock
    rw [hnone p] at hp
    cases hp
  have hmapped : m.mapped = ∅ := Set.eq_empty_of_forall_notMem fun x hx => by
    obtain ⟨p, range, hp, -⟩ := (h.mapped x).mp hx
    rw [hnone p] at hp
    cases hp
  cases m
  congr

/-- Over any actions with any answers of the system: nothing is freed that is not out or not as it
was granted, what is out is exactly what the arenas are backed by, each in memory of its own that
holds all its blocks, and once the last arena is gone nothing is. -/
theorem arenas_accounted (wipeEnabled : Bool) (w : PointerWidth) (page : ℕ) (hpage : 0 < page)
    (actions : List Action) (hsys : ∀ action ∈ actions, ∀ sys, action.answers = some sys →
      ArenaBacking.Lawful w sys.kernel ∧ pageSize sys.kernel = page) :
    ∃ W, World.init.run wipeEnabled w actions = some W ∧
      (Always w page (Honest w) System.empty W.events →
        Always w page (Legal page) System.empty W.events ∧
        Accounted (W.owner w) (W.system w page) ∧
        (∀ p a, W.arenas p = some a → a.arena.blocks ≤ a.arena.capacity ∧ arenaAlign ∣ a.ptr ∧
          addresses (a.ptr, a.arena.capacity * blockSize) ⊆ (grant w a).region) ∧
        ((∀ p, W.arenas p = none) → W.system w page = System.empty)) := by
  obtain ⟨W, hrun, hext⟩ := run_extends hpage wipeEnabled World.init actions hsys
  refine ⟨W, hrun, fun honest => ?_⟩
  have hgood := hext.good honest good_init
  refine ⟨hgood.legal, hgood.accounted, fun p a ha => ?_, fun hnone => ?_⟩
  · have hfit := hgood.fit p a ha
    exact ⟨hfit.window, hfit.aligned, hfit.inside⟩
  · exact accounted_none hgood.accounted fun p => congrArg (Option.map (grant w)) (hnone p)

def granting : Answers where
  kernel :=
    { sysconf := 4096
      mmap := fun len => if 0x7000001000 + len ≤ 2 ^ 64 then 0x7000001000 else mapFailed .bits64 }
  adviseHuge _ := false
  allocZeroed bytes := 64 * bytes

/-- Two blocks of the heap, the second of which is served once the first one is gone, and a
mapping whose slack lies on both sides. -/
def backedAndFreed : List Action :=
  [.reserve 0 2 granting, .acquire 0 0 4 granting, .newArena 0 2048 granting, .dropGuard 0 0,
    .dropArena 0, .clear 0]

def backedAndFreedEvents : List Event :=
  [.alloc ⟨131072, 2048, 64⟩, .dealloc ⟨131072, 2048, 64⟩, .alloc ⟨262144, 4096, 64⟩,
    .os (.mmap 4194304 0x7000001000), .os (.munmap 0x7000001000 2093056),
    .os (.munmap 0x7000400000 4096), .os (.munmap 0x7000200000 2097152),
    .dealloc ⟨262144, 4096, 64⟩]

theorem backedAndFreed_events :
    (World.init.run true .bits64 backedAndFreed).map World.events = some backedAndFreedEvents := rfl

theorem backedAndFreed_arenas (p : Place) :
    (World.init.run true .bits64 backedAndFreed).map (fun W => W.arenas p) = some none := by
  rcases p with n | slot | ⟨slot, n⟩
  · cases n <;> rfl
  · cases slot <;> rfl
  · cases slot <;> cases n <;> rfl

theorem granting_lawful : ArenaBacking.Lawful .bits64 granting.kernel where
  page_dvd := by decide
  answers len := by
    change (if _ then _ else _) = _ ∨ Grants _ _ len (if _ then _ else _)
    split
    case isTrue h => exact Or.inr ⟨by decide, by decide, by decide, h⟩
    case isFalse => exact Or.inl rfl

theorem backedAndFreed_answers {action : Action} (haction : action ∈ backedAndFreed) {sys : Answers}
    (hsys : action.answers = some sys) : sys = granting := by
  unfold backedAndFreed at haction
  simp only [List.mem_cons, List.not_mem_nil, or_false] at haction
  rcases haction with rfl | rfl | rfl | rfl | rfl | rfl <;> cases hsys <;> rfl

theorem backedAndFreed_honest :
    Always .bits64 4096 (Honest .bits64) System.empty backedAndFreedEvents := by
  refine ⟨⟨Set.disjoint_left.mpr ?_, by decide⟩, trivial, ⟨Set.disjoint_left.mpr ?_, by decide⟩,
    fun _ => Set.disjoint_left.mpr ?_, trivial, trivial, trivial, trivial, trivial⟩
  · rintro x (hx | ⟨block, hblock, -⟩) -
    · exact Set.notMem_empty x hx
    · exact Set.notMem_empty block hblock
  · rintro x (hx | ⟨block, ⟨hblock, hgone⟩, -⟩) -
    · exact Set.notMem_empty x hx
    · exact hgone (hblock.resolve_right (Set.notMem_empty block))
  · rintro x (hx | ⟨block, rfl | ⟨hblock, hgone⟩, hx⟩) hx'
    · exact Set.notMem_empty x hx
    · have hlow : 0x7000001000 ≤ x := hx'.1
      have hhigh : x < 262144 + 4096 := hx.2
      omega
    · exact hgone (hblock.resolve_right (Set.notMem_empty block))

theorem arenas_accounted_backedAndFreed :
    ∃ W, World.init.run true .bits64 backedAndFreed = some W ∧
      Always .bits64 4096 (Legal 4096) System.empty W.events ∧
      W.system .bits64 4096 = System.empty := by
  obtain ⟨W, hrun, hW⟩ := arenas_accounted true .bits64 4096 (by decide) backedAndFreed
    fun action haction sys hsys => by
      rw [backedAndFreed_answers haction hsys]
      exact ⟨granting_lawful, rfl⟩
  have hevents := backedAndFreed_events
  rw [hrun] at hevents
  obtain ⟨hlegal, -, -, hempty⟩ := hW (by
    rw [Option.some.inj hevents]
    exact backedAndFreed_honest)
  refine ⟨W, hrun, hlegal, hempty fun p => ?_⟩
  have harenas := backedAndFreed_arenas p
  rw [hrun] at harenas
  exact Option.some.inj harenas

end Argon2Rust.Lifetimes
