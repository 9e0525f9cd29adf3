/-
  What `deallocate` hands to the tier that takes the block back.

  `unshimmed` is the memory in which `rawDeallocate` is called: the user bytes are poisoned, and a
  shim is marked freed. `given` is the memory in which a small or medium block goes back: the
  raw header is marked too. Both differ from the memory before only inside the raw block.

  `payloadBehind m p` and `tierBehind m p` are the block and the tier that `deallocate(p)` reads off
  the headers in `m`.
-/
import MAlloc.Client.System

namespace MAlloc.Client

open Lib AllocatorImpl DebugLayer SizeClassTable

/-- The memory in which `rawDeallocate` gets the raw block of `a`. -/
def unshimmed (cfg : AllocatorConfig) (m : Mem) (a : Alloc) : Mem :=
  match a.shape with
  | .plain => poisonedOld cfg m a.ptr a.size
  | _ => BlockHeader.setState (poisonedOld cfg m a.ptr a.size) (a.ptr - 16) kStateFreed

/-- The memory in which the small or the medium tier gets the raw block of `a`. -/
def given (cfg : AllocatorConfig) (m : Mem) (a : Alloc) : Mem :=
  BlockHeader.setState (unshimmed cfg m a) a.raw.start kStateFreed

/-- The raw pointer behind the user pointer `p`. -/
def rawOf (m : Mem) (p : Nat) : Nat :=
  match (BlockHeader.load m (headerOf p)).tierValue with
  | some .DebugShim => ptrSub p (BlockHeader.load m (headerOf p)).offset
  | some .AlignedShim => ptrSub p (BlockHeader.load m (headerOf p)).offset
  | _ => p

/-- The payload of its tier behind the user pointer `p`. -/
def payloadBehind (m : Mem) (p : Nat) : Nat := headerOf (rawOf m p)

/-- The tier behind the user pointer `p`. -/
def tierBehind (m : Mem) (p : Nat) : Option Tier := (BlockHeader.load m (payloadBehind m p)).tierValue

section Release
variable {T : Tiers} {live : List Alloc} {a : Alloc} {cfg : AllocatorConfig}

theorem unshimmed_of_not {m : Mem} (h : a.Ok m) (hfit : a.raw.size ≤ a.raw.reserved) {x : Nat}
    (hx : ¬ (a.raw.user ≤ x ∧ x < a.raw.user + a.raw.reserved)) : unshimmed cfg m a x = m x := by
  have hb := h.placed.bounds hfit
  have hout : ¬ (a.ptr ≤ x ∧ x < a.ptr + a.size) := fun hx' => hx (by
    unfold Raw.Block.user
    omega)
  unfold unshimmed
  cases hsh : a.shape with
  | plain => exact poisonedOld_of_not hout
  | _ =>
    have hs := h.placed.shim (by rw [hsh]; simp)
    unfold Raw.Block.user at hx
    exact (BlockHeader.setState_of_not (by omega)).trans (poisonedOld_of_not hout)

theorem given_of_not {m : Mem} (h : a.Ok m) (hfit : a.raw.size ≤ a.raw.reserved) {x : Nat}
    (hx : ¬ a.raw.span.Has x) : given cfg m a x = m x := by
  unfold Span.Has Raw.Block.span at hx
  simp only at hx
  unfold given
  refine (BlockHeader.setState_of_not (by omega)).trans (unshimmed_of_not h hfit ?_)
  unfold Raw.Block.user
  omega

/-- The tiers just before the block goes. -/
theorem Live.given_tiers (h : Live T live) (ha : a ∈ live) (cfg : AllocatorConfig) {parts : Small.Places}
    {segs : List Heap.Seg} (hr : Raw.RawTiers T (live.map Alloc.raw) parts segs) :
    Raw.RawTiers (T.setMem (given cfg T.mem a)) (live.map Alloc.raw) parts segs :=
  hr.write (Live.raw_mem ha) fun _ hx => given_of_not (h.ok a ha) (h.fits ha) hx

/-- **`release`** of a live allocation is `rawDeallocate` of the raw block under it. -/
theorem release_eq (h : Live T live) (ha : a ∈ live) (cfg : AllocatorConfig) (t : Nat) :
    release cfg T t a.ptr a.header =
      (T.setMem (unshimmed cfg T.mem a)).rawDeallocate cfg.enableThreadCache t a.raw.user := by
  have hb := h.bounds ha
  have hok := h.ok a ha
  have hshim : a.shape ≠ .plain → releaseShim cfg (T.setMem (poisonedOld cfg T.mem a.ptr a.size)) t a.ptr =
      (T.setMem (BlockHeader.setState (poisonedOld cfg T.mem a.ptr a.size) (a.ptr - 16)
        kStateFreed)).rawDeallocate cfg.enableThreadCache t a.raw.user := by
    intro hs
    have hoff : (BlockHeader.load (BlockHeader.setState (poisonedOld cfg T.mem a.ptr a.size) (a.ptr - 16)
        kStateFreed) (a.ptr - 16)).offset = a.header.offset := by
      refine setState_keeps_offset.trans (congrArg BlockHeader.offset ?_)
      exact (BlockHeader.load_congr fun x h1 h2 => poisonedOld_of_not (by omega)).trans hok.header
    unfold releaseShim
    rw [h.headerOf_ptr ha]
    dsimp only
    rw [Tiers.setMem_mem, Tiers.setMem_mem, Tiers.setMem_setMem, hoff, hok.raw_of_offset hs (by omega)]
  unfold release unshimmed
  rw [a.header_size, poisonOld_eq, a.header_tier]
  dsimp only
  cases hsh : a.shape with
  | guarded => exact hshim (by rw [hsh]; simp)
  | aligned alignment => exact hshim (by rw [hsh]; simp)
  | plain =>
    have hp := hok.placed
    unfold Alloc.Placed at hp
    rw [hsh] at hp
    obtain ⟨parts, segs, hr⟩ := h.raw.tiers
    dsimp only
    rw [hp.1]
    rcases (hr.ok _ (Live.raw_mem ha)).tiers with ht | ht | ht
    · rw [ht]
    · rw [ht]
    · rw [ht]

/-- The raw header is still there when the raw block goes. -/
theorem Live.raw_header (h : Live T live) (ha : a ∈ live) (cfg : AllocatorConfig) :
    BlockHeader.load (unshimmed cfg T.mem a) a.raw.start = rawHeader a.raw.size a.raw.tier := by
  refine (BlockHeader.load_congr fun x h1 h2 => ?_).trans (h.raw.header a.raw (Live.raw_mem ha))
  exact unshimmed_of_not (h.ok a ha) (h.fits ha) (by unfold Raw.Block.user; omega)

theorem Live.raw_headerOf (h : Live T live) (ha : a ∈ live) : headerOf a.raw.user = a.raw.start := by
  have hb := h.bounds ha
  unfold Raw.Block.user
  rw [headerOf_eq (by omega) (by omega)]
  omega

theorem rawDeallocate_tier (h : Live T live) (ha : a ∈ live) (cfg : AllocatorConfig) (t : Nat) :
    release cfg T t a.ptr a.header = (T.setMem (unshimmed cfg T.mem a)).rawDeallocateBy
      cfg.enableThreadCache t a.raw.user (rawHeader a.raw.size a.raw.tier) := by
  rw [release_eq h ha]
  unfold Tiers.rawDeallocate
  rw [h.raw_headerOf ha, Tiers.setMem_mem, h.raw_header ha cfg]

theorem release_small (h : Live T live) (ha : a ∈ live) (ht : a.raw.tier = .Small) (cfg : AllocatorConfig)
    (t : Nat) : release cfg T t a.ptr a.header = (.ok (classSize (classIndex a.raw.size)),
      (T.setMem (given cfg T.mem a)).giveSmall cfg.enableThreadCache t (classIndex a.raw.size)
        a.raw.start) := by
  rw [rawDeallocate_tier h ha, ht]
  unfold Tiers.rawDeallocateBy
  rw [BlockHeader.tierValue_of_code (t := .Small) rfl, h.raw_headerOf ha]
  rfl

theorem rawDeallocateMedium_tiers {payload : Nat} {w' : World} {h' : SegmentHeap}
    (hd : SegmentHeap.deallocate (T.setMem (BlockHeader.setState T.mem payload kStateFreed)).world
      (T.setMem (BlockHeader.setState T.mem payload kStateFreed)).segments payload = (w', h')) :
    (T.rawDeallocateMedium payload).2 = { T with world := w', segments := h' } := by
  unfold Tiers.rawDeallocateMedium
  dsimp only
  rw [hd]
  rfl

theorem release_medium (h : Live T live) (ha : a ∈ live) (ht : a.raw.tier = .Medium) {t : Nat} {w' : World}
    {h' : SegmentHeap} (hd : SegmentHeap.deallocate { T.world with mem := given cfg T.mem a } T.segments
      a.raw.start = (w', h')) :
    release cfg T t a.ptr a.header = (.ok a.raw.reserved, { T with world := w', segments := h' }) := by
  obtain ⟨T', he, -⟩ := release_spec h ha cfg t
  have hres := congrArg Prod.fst he
  have hm := rawDeallocateMedium_tiers (T := T.setMem (unshimmed cfg T.mem a)) hd
  rw [rawDeallocate_tier h ha, ht] at hres ⊢
  unfold Tiers.rawDeallocateBy at hres ⊢
  rw [BlockHeader.tierValue_of_code (t := .Medium) rfl, h.raw_headerOf ha] at hres ⊢
  exact Prod.ext hres hm

/-- The headers lead from the user pointer to the raw block. -/
theorem Live.behind (h : Live T live) (ha : a ∈ live) : rawOf T.mem a.ptr = a.raw.user ∧
    payloadBehind T.mem a.ptr = a.raw.start ∧ tierBehind T.mem a.ptr = some a.raw.tier := by
  have hb := h.bounds ha
  have hok := h.ok a ha
  have hhead : BlockHeader.load T.mem (headerOf a.ptr) = a.header := by
    rw [h.headerOf_ptr ha]
    exact hok.header
  have hraw : rawOf T.mem a.ptr = a.raw.user := by
    unfold rawOf
    rw [hhead, a.header_tier]
    cases hsh : a.shape with
    | guarded => exact hok.raw_of_offset (by rw [hsh]; simp) (by omega)
    | aligned alignment => exact hok.raw_of_offset (by rw [hsh]; simp) (by omega)
    | plain =>
      have hp := hok.placed
      unfold Alloc.Placed at hp
      rw [hsh] at hp
      obtain ⟨parts, segs, hr⟩ := h.raw.tiers
      rcases (hr.ok _ (Live.raw_mem ha)).tiers with ht | ht | ht
      · rw [ht]
        exact hp.1
      · rw [ht]
        exact hp.1
      · rw [ht]
        exact hp.1
  have hpay : payloadBehind T.mem a.ptr = a.raw.start := by
    unfold payloadBehind
    rw [hraw, h.raw_headerOf ha]
  refine ⟨hraw, hpay, ?_⟩
  unfold tierBehind
  rw [hpay, h.raw.header a.raw (Live.raw_mem ha)]
  exact BlockHeader.tierValue_of_code rfl

end Release

end MAlloc.Client
