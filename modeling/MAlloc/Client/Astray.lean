/-
  Which block has gone back.

  Told from the outside: a free of the small tier leaves its class's cache or the pool's list changed, a free
  of the large tier leaves a region less, a free of the medium tier leaves its address at the head of a bin.
  So the free of one block cannot come out as the free of another (`giveSmall_block`, `Live.ne_small`,
  `Live.ne_medium`), save for a medium block freed at another address of its own segment. There the memory
  beside the block decides: with tags beside it that say no neighbour is free, either free takes its own
  address to its own bin (`Underflown.strays`).
-/
import MAlloc.Client.Underflow
import MAlloc.Heap.Alone

namespace MAlloc.Client

open Lib AllocatorImpl DebugLayer SizeClassTable PoolAllocator

/-! ## What a free of the small tier leaves -/

/-- What a full cache keeps before it takes a block back. -/
def kept (k : ClassCache) : ClassCache :=
  if k.count = kCapacity then { k with count := kCapacity - kBatchSize } else k

theorem kept_count (k : ClassCache) : (kept k).count + 1 ≠ k.count := by
  unfold kept
  split
  · rename_i hfull
    rw [hfull]
    change 64 - 16 + 1 ≠ 64
    decide
  · omega

section GiveSmall
variable {T : Tiers} {enabled : Bool} {t c d b b' : Nat} {cache : ThreadCache} {m m' : Mem}

/-- With a cache the block is its newest slot. -/
theorem giveSmall_cached (h : (T.threadCache enabled t).1 = some cache) :
    Raw.caches (T.giveSmall enabled t c b) t = Function.update cache c ((kept (cache c)).put b) := by
  unfold Tiers.giveSmall
  generalize T.threadCache enabled t = q at h
  obtain ⟨o, T₁⟩ := q
  obtain rfl : o = some cache := h
  unfold ThreadCache.freeBlock Raw.caches kept
  dsimp only
  rw [Function.update_self]
  split_ifs <;> rfl

/-- Without one it is the head of its shard's list. -/
theorem giveSmall_direct (h : (T.threadCache enabled t).1 = none) :
    (T.giveSmall enabled t c b).pools c = { T.pools c with
      freeList := ⟨b, ((T.pools c).freeList.size + 1) % 2 ^ 64⟩ } := by
  obtain ⟨o, T₁, heq, -, hpools, -⟩ := Raw.threadCache_spec T enabled t
  unfold Tiers.giveSmall
  rw [heq] at h ⊢
  obtain rfl : o = none := h
  unfold PoolAllocator.freeBlock FreeList.push
  dsimp only
  rw [Function.update_self, hpools]

theorem giveSmall_direct_of_ne (h : (T.threadCache enabled t).1 = none) (hd : d ≠ c) :
    (T.giveSmall enabled t c b).pools d = T.pools d := by
  obtain ⟨o, T₁, heq, -, hpools, -⟩ := Raw.threadCache_spec T enabled t
  unfold Tiers.giveSmall
  rw [heq] at h ⊢
  obtain rfl : o = none := h
  unfold PoolAllocator.freeBlock
  dsimp only
  rw [Function.update_of_ne hd, hpools]

/-- The tiers hold the same small blocks. -/
def SameSmall (T T' : Tiers) : Prop := Raw.caches T' = Raw.caches T ∧ T'.pools = T.pools

theorem SameSmall.of_slots {T' : Tiers} (hslots : T'.tlsCaches = T.tlsCaches) (hpools : T'.pools = T.pools) :
    SameSmall T T' := by
  refine ⟨?_, hpools⟩
  unfold Raw.caches
  rw [hslots]

/-- A block that comes back is noticed. -/
theorem giveSmall_changes : ¬ SameSmall T ((T.setMem m).giveSmall enabled t c b) := by
  rintro ⟨hcaches, hpools⟩
  obtain ⟨o, T₁, heq, -, -, -, -, -, hslot⟩ := Raw.threadCache_spec (T.setMem m) enabled t
  cases o with
  | some cache =>
    have hcache : cache = Raw.caches T t := hslot cache rfl
    have hnew := giveSmall_cached (c := c) (b := b) (congrArg Prod.fst heq)
    rw [hcaches, ← hcache] at hnew
    have hat := congrFun hnew c
    rw [Function.update_self] at hat
    exact kept_count (cache c) (congrArg ClassCache.count hat).symm
  | none =>
    have hnew := giveSmall_direct (c := c) (b := b) (congrArg Prod.fst heq)
    rw [hpools] at hnew
    have hsize : (T.pools c).freeList.size = ((T.pools c).freeList.size + 1) % 2 ^ 64 :=
      congrArg (fun s : Shard => s.freeList.size) hnew
    omega

/-- The block that comes back can be told. -/
theorem giveSmall_block (h : SameSmall ((T.setMem m).giveSmall enabled t c b)
    ((T.setMem m').giveSmall enabled t d b')) : b' = b := by
  obtain ⟨hcaches, hpools⟩ := h
  obtain ⟨hc, -⟩ := threadCache_setMem T m enabled t
  obtain ⟨hc', -⟩ := threadCache_setMem T m' enabled t
  have hfst := congrArg Prod.fst hc
  have hfst' := congrArg Prod.fst hc'
  dsimp only at hfst hfst'
  cases ho : (T.threadCache enabled t).1 with
  | some cache =>
    rw [ho] at hfst hfst'
    have heq := congrFun hcaches t
    rw [giveSmall_cached hfst, giveSmall_cached hfst'] at heq
    have hat := congrFun heq c
    rw [Function.update_self] at hat
    by_cases hcd : c = d
    · subst hcd
      rw [Function.update_self] at hat
      have hslot := congrArg (fun k : ClassCache => k.slots (kept (cache c)).count) hat
      unfold ClassCache.put at hslot
      dsimp only at hslot
      rwa [Function.update_self, Function.update_self] at hslot
    · rw [Function.update_of_ne hcd] at hat
      exact absurd (congrArg ClassCache.count hat).symm (kept_count (cache c))
  | none =>
    rw [ho] at hfst hfst'
    have hat := congrFun hpools c
    rw [giveSmall_direct hfst] at hat
    by_cases hcd : c = d
    · subst hcd
      rw [giveSmall_direct hfst'] at hat
      exact congrArg (fun s : Shard => s.freeList.head) hat
    · rw [giveSmall_direct_of_ne hfst' hcd] at hat
      have hsize : (T.pools c).freeList.size = ((T.pools c).freeList.size + 1) % 2 ^ 64 :=
        congrArg (fun s : Shard => s.freeList.size) hat
      omega

theorem pushBatch_of_not {x : Nat} (blocks : List Nat) (m : Mem) (l : FreeList)
    (h : ∀ u ∈ blocks, ¬ (u ≤ x ∧ x < u + 8)) : (pushBatch blocks m l).1 x = m x := by
  induction blocks generalizing m l with
  | nil => rfl
  | cons u blocks ih =>
    refine (ih _ _ fun v hv => h v (List.mem_cons_of_mem _ hv)).trans ?_
    exact writeLE_of_not (h u List.mem_cons_self)

/-- Only links of blocks that were free or come back are written. -/
theorem giveSmall_of_not {x : Nat} (hb : ¬ (b ≤ x ∧ x < b + 8))
    (hcached : ∀ u ∈ (Raw.caches T t c).below (Raw.caches T t c).count, ¬ (u ≤ x ∧ x < u + 8)) :
    (T.giveSmall enabled t c b).mem x = T.mem x := by
  obtain ⟨o, T₁, heq, hworld, -, -, -, -, hslot⟩ := Raw.threadCache_spec T enabled t
  have hmem : T₁.mem x = T.mem x := by
    unfold Tiers.mem
    rw [hworld]
  unfold Tiers.giveSmall
  rw [heq]
  refine Eq.trans ?_ hmem
  cases o with
  | some cache =>
    have hcache : cache = Raw.caches T t := hslot cache rfl
    rw [← hcache] at hcached
    unfold ThreadCache.freeBlock
    dsimp only
    by_cases hfull : (cache c).count = kCapacity
    · rw [if_pos hfull]
      change (pushBatch ((cache c).window (kCapacity - kBatchSize) kBatchSize) T₁.mem
        (T₁.pools c).freeList).1 x = T₁.mem x
      refine pushBatch_of_not _ _ _ fun u hu => hcached u ?_
      obtain ⟨i, hi, rfl⟩ := List.mem_map.mp hu
      have hlt := List.mem_range.mp hi
      refine List.mem_map.mpr ⟨kCapacity - kBatchSize + i, List.mem_range.mpr ?_, rfl⟩
      rw [hfull]
      change i < 16 at hlt
      change 64 - 16 + i < 64
      omega
    · rw [if_neg hfull]
  | none => exact writeLE_of_not hb

end GiveSmall

/-! ## Raw frees at any address -/

section RawFree
variable {T : Tiers} {live : List Alloc} {a : Alloc} {enabled : Bool} {t raw x c : Nat} {m m₁ : Mem}

theorem rawDeallocate_small (h : (BlockHeader.load T.mem (headerOf raw)).tier = Tier.Small.code) :
    T.rawDeallocate enabled t raw = T.rawDeallocateSmall enabled t (headerOf raw)
      (classIndex (BlockHeader.load T.mem (headerOf raw)).payloadSize) := by
  unfold Tiers.rawDeallocate Tiers.rawDeallocateBy
  rw [BlockHeader.tierValue_of_code h]

theorem rawDeallocate_medium (h : (BlockHeader.load T.mem (headerOf raw)).tier = Tier.Medium.code) :
    T.rawDeallocate enabled t raw = T.rawDeallocateMedium (headerOf raw) := by
  unfold Tiers.rawDeallocate Tiers.rawDeallocateBy
  rw [BlockHeader.tierValue_of_code h]

theorem rawDeallocate_large (h : (BlockHeader.load T.mem (headerOf raw)).tier = Tier.Large.code) :
    T.rawDeallocate enabled t raw = T.rawDeallocateLarge (headerOf raw) := by
  unfold Tiers.rawDeallocate Tiers.rawDeallocateBy
  rw [BlockHeader.tierValue_of_code h]

/-- Where a small or a medium header stands, something is freed. -/
theorem rawDeallocate_frees (enabled : Bool) (t : Nat) {tier : Tier} (htier : tier = .Small ∨ tier = .Medium)
    (h : (BlockHeader.load T.mem (headerOf raw)).tier = tier.code) :
    ∃ n, (T.rawDeallocate enabled t raw).1 = .ok n := by
  rcases htier with rfl | rfl
  · rw [rawDeallocate_small h]
    exact ⟨_, rfl⟩
  · rw [rawDeallocate_medium h]
    exact ⟨_, rfl⟩

/-- The one error of a raw free. -/
theorem rawDeallocate_error {e : Error} (h : (T.rawDeallocate enabled t raw).1 = .error e) : e = .InvalidPointer := by
  unfold Tiers.rawDeallocate Tiers.rawDeallocateBy at h
  split at h
  · cases h
  · cases h
  · unfold Tiers.rawDeallocateLarge at h
    dsimp only at h
    split_ifs at h
    exact (Except.error.inj h).symm
  · exact (Except.error.inj h).symm

/-- What the free of a medium block does with the heap. -/
theorem rawDeallocateMedium_heap : ((T.setMem m).rawDeallocateMedium x).2 =
    { T with
      world := (SegmentHeap.deallocate { T.world with mem := BlockHeader.setState m x kStateFreed } T.segments x).1
      segments :=
        (SegmentHeap.deallocate { T.world with mem := BlockHeader.setState m x kStateFreed } T.segments x).2 } := by
  unfold Tiers.rawDeallocateMedium
  dsimp only
  rw [Tiers.setMem_mem]
  generalize BlockHeader.setState m x kStateFreed = M
  rfl

theorem rawDeallocateMedium_of {w : World} {h : SegmentHeap} (hq : SegmentHeap.deallocate
    { T.world with mem := BlockHeader.setState m x kStateFreed } T.segments x = (w, h)) :
    ((T.setMem m).rawDeallocateMedium x).2 = { T with world := w, segments := h } := by
  rw [rawDeallocateMedium_heap, hq]

theorem rawDeallocateMedium_small : SameSmall T ((T.setMem m).rawDeallocateMedium x).2 := by
  rw [rawDeallocateMedium_heap]
  exact .of_slots rfl rfl

theorem rawDeallocateLarge_small : SameSmall T ((T.setMem m).rawDeallocateLarge x).2 := by
  unfold Tiers.rawDeallocateLarge
  dsimp only
  split_ifs
  · exact .of_slots rfl rfl
  · exact .of_slots rfl rfl

/-- The free of a live block goes by its tier. -/
theorem Live.rawDeallocate_tier (h : Live T live) (ha : a ∈ live)
    (hm : BlockHeader.load m a.raw.start = rawHeader a.raw.size a.raw.tier) :
    (BlockHeader.load (T.setMem m).mem (headerOf a.raw.user)).tier = a.raw.tier.code := by
  rw [h.raw_headerOf ha, Tiers.setMem_mem, hm]
  rfl

/-- A large block that went back is no longer held. -/
theorem Live.rawDeallocate_gone (h : Live T live) (ha : a ∈ live) (ht : a.raw.tier = .Large)
    (hm : BlockHeader.load m a.raw.start = rawHeader a.raw.size a.raw.tier) :
    ((T.setMem m).rawDeallocate enabled t a.raw.user).2.large ≠ T.large := by
  obtain ⟨parts, segs, hr⟩ := h.raw.tiers
  have hlook := hr.lookup_region (Live.raw_mem ha) ht
  have htier := h.rawDeallocate_tier ha hm
  rw [ht] at htier
  have hlook' : (T.setMem m).large.lookup a.raw.start = some a.raw.region := hlook
  rw [rawDeallocate_large htier, h.raw_headerOf ha]
  unfold Tiers.rawDeallocateLarge LargeAllocator.deallocate
  rw [hlook']
  intro heq
  have hnone : (T.large.filter fun e => decide (e.1 ≠ a.raw.start)).lookup a.raw.start = none := by
    refine List.lookup_eq_none_iff.mpr fun e he => ?_
    have hne := (List.mem_filter.mp he).2
    rw [bne_iff_ne]
    exact fun h0 => (of_decide_eq_true hne) h0.symm
  have heq' : (T.large.filter fun e => decide (e.1 ≠ a.raw.start)) = T.large := heq
  rw [heq', hlook] at hnone
  cases hnone

/-- Another small block went back than the live one. -/
theorem Live.ne_small (h : Live T live) (ha : a ∈ live)
    (hm : BlockHeader.load m₁ a.raw.start = rawHeader a.raw.size a.raw.tier) (hx : x ≠ a.raw.start) :
    ((T.setMem m).rawDeallocateSmall enabled t x c).2 ≠ ((T.setMem m₁).rawDeallocate enabled t a.raw.user).2 := by
  obtain ⟨parts, segs, hr⟩ := h.raw.tiers
  have htier := h.rawDeallocate_tier ha hm
  intro heq
  rcases (hr.ok _ (Live.raw_mem ha)).tiers with ht | ht | ht
  · rw [ht] at htier
    rw [rawDeallocate_small htier, h.raw_headerOf ha] at heq
    unfold Tiers.rawDeallocateSmall at heq
    dsimp only at heq
    rw [Tiers.setMem_setMem, Tiers.setMem_setMem] at heq
    exact hx (giveSmall_block ⟨congrArg Raw.caches heq, congrArg Tiers.pools heq⟩)
  · rw [ht] at htier
    rw [rawDeallocate_medium htier] at heq
    have hsame : SameSmall T ((T.setMem m).rawDeallocateSmall enabled t x c).2 := by
      rw [heq]
      exact rawDeallocateMedium_small
    exact giveSmall_changes hsame
  · rw [ht] at htier
    rw [rawDeallocate_large htier] at heq
    have hsame : SameSmall T ((T.setMem m).rawDeallocateSmall enabled t x c).2 := by
      rw [heq]
      exact rawDeallocateLarge_small
    exact giveSmall_changes hsame

/-- A medium block went back, and the live one is none. -/
theorem Live.ne_medium (h : Live T live) (ha : a ∈ live)
    (hm : BlockHeader.load m₁ a.raw.start = rawHeader a.raw.size a.raw.tier) (hne : a.raw.tier ≠ .Medium) :
    ((T.setMem m).rawDeallocateMedium x).2 ≠ ((T.setMem m₁).rawDeallocate enabled t a.raw.user).2 := by
  obtain ⟨parts, segs, hr⟩ := h.raw.tiers
  have htier := h.rawDeallocate_tier ha hm
  intro heq
  rcases (hr.ok _ (Live.raw_mem ha)).tiers with ht | ht | ht
  · rw [ht] at htier
    rw [rawDeallocate_small htier] at heq
    have hsame := rawDeallocateMedium_small (T := T) (m := m) (x := x)
    rw [heq] at hsame
    exact giveSmall_changes hsame
  · exact hne ht
  · have hlarge : ((T.setMem m).rawDeallocateMedium x).2.large = T.large := by
      rw [rawDeallocateMedium_heap]
    rw [heq] at hlarge
    exact h.rawDeallocate_gone ha ht hm hlarge

end RawFree

/-! ## Memory beyond the block -/

/-- Memory with a block of `m` in it, and `f` around. -/
def around (p reserved : Nat) (m f : Mem) : Mem := fun x => if (blockUnder p reserved).Has x then m x else f x

/-- Nothing stands there, but for two tags in front of the block: of a last block, and of one that is first
    and last. -/
def beyondBytes (p : Nat) : Mem := fun x =>
  if p - 72 ≤ x ∧ x < p - 64 then 0xF6 else if p - 64 ≤ x ∧ x < p - 56 then 0xF4 else 0

section Around
variable {p reserved x : Nat} {m f : Mem}

theorem around_off (p reserved : Nat) (m f : Mem) : SameOff (Beyond p reserved) m (around p reserved m f) :=
  fun _ hx => if_pos (not_not.mp hx)

theorem around_beyond (hx : ¬ (blockUnder p reserved).Has x) : around p reserved m f x = f x := if_neg hx

theorem beyondBytes_zero (hx : x < p - 72 ∨ p - 56 ≤ x) : beyondBytes p x = 0 := by
  unfold beyondBytes
  rw [if_neg (by omega), if_neg (by omega)]

theorem beyondBytes_last (hx : p - 64 ≤ x ∧ x < p - 56) : beyondBytes p x = 0xF4 := by
  unfold beyondBytes
  rw [if_neg (by omega), if_pos hx]

theorem beyondBytes_only (hx : p - 72 ≤ x ∧ x < p - 64) : beyondBytes p x = 0xF6 := if_pos hx

end Around

/-- The memory `m₀` is that of `s`, but for the shim in front of the guarded allocation `a`. -/
structure Underflown (s : AllocatorImpl) (live : List Alloc) (a : Alloc) (m₀ : Mem) : Prop where
  memory : Live s.tiers live
  out : a ∈ live
  shape : a.shape = .guarded
  guards : a.Guarded s.tiers.mem
  config : s.config.enableGuardBytes = true
  passes : Passes s a.ptr
  same : ∀ x, ¬ (a.ptr - 16 ≤ x ∧ x < a.ptr) → m₀ x = s.tiers.mem x

/-- The tag in front of the block under `a` is that of the last block of a segment. -/
structure Tagged (a : Alloc) (m : Mem) : Prop where
  tag : ∀ i < 8, m (a.ptr - 64 + i) = 0xF4
  prev : ∀ i < 8, m (a.ptr - 56 + i) = 0

/-- So it is, and the raw header stands. -/
structure Ready (a : Alloc) (m : Mem) : Prop extends Tagged a m where
  raw : BlockHeader.load m a.raw.start = rawHeader a.raw.size a.raw.tier

section Right
variable {s : AllocatorImpl} {live : List Alloc} {a : Alloc} {m m₀ m₁ : Mem} {t x n : Nat} {enabled : Bool}

theorem Underflown.place (h : Underflown s live a m₀) : a.ptr = a.raw.start + 48 ∧ 16 ≤ a.raw.start ∧
    a.ptr % 16 = 0 ∧ 64 < a.raw.reserved ∧ a.raw.start + a.raw.reserved + 16 < 2 ^ 64 := by
  have hb := h.memory.bounds h.out
  have hfit := h.memory.fits h.out
  have h16 := h.memory.ptr_mod_16 h.out
  have hpos := (h.memory.ok a h.out).pos
  obtain ⟨hptr, hsz⟩ := (h.memory.ok a h.out).placed.guarded h.shape
  omega

theorem Underflown.user (h : Underflown s live a m₀) : a.ptr - 32 = a.raw.user := by
  have hp := h.place
  unfold Raw.Block.user
  omega

theorem Underflown.load (h : Underflown s live a m₀) (hm : SameOff (Beyond a.ptr a.raw.reserved) m₀ m) :
    BlockHeader.load m (a.ptr - 16) = BlockHeader.load m₀ (a.ptr - 16) := by
  have hp := h.place
  refine BlockHeader.load_congr fun x h1 h2 => same_in_block hm ?_
  rw [has_blockUnder]
  omega

theorem Underflown.struck (h : Underflown s live a m₀) (hm : SameOff (Beyond a.ptr a.raw.reserved) m₀ m) :
    Struck a m := h.memory.struck h.out h.shape h.guards h.same hm

/-- In the chosen surroundings the right free finds what it needs. -/
theorem Underflown.ready (h : Underflown s live a m₀)
    (hm : ∀ x, x < a.ptr - 16 → m₁ x = around a.ptr a.raw.reserved m₀ (beyondBytes a.ptr) x) : Ready a m₁ := by
  have hp := h.place
  have hout : ∀ x, x < a.ptr - 48 → m₁ x = beyondBytes a.ptr x := by
    intro x hx
    refine (hm x (by omega)).trans (around_beyond ?_)
    rw [has_blockUnder]
    omega
  refine ⟨⟨fun i hi => ?_, fun i hi => ?_⟩, ?_⟩
  · rw [hout _ (by omega)]
    exact beyondBytes_last (by omega)
  · rw [hout _ (by omega)]
    exact beyondBytes_zero (by omega)
  · exact (BlockHeader.load_congr fun x h1 h2 => hm x (by omega)).trans (h.struck (around_off _ _ _ _)).raw

/-- A medium block is in a segment, behind a tag. -/
theorem Underflown.medium (h : Underflown s live a m₀) (ht : a.raw.tier = .Medium) :
    32 ≤ a.raw.start ∧ a.raw.reserved + 64 < 2 ^ 31 := by
  obtain ⟨parts, segs, hr⟩ := h.memory.raw.tiers
  have hu : a.raw.span ∈ Heap.used segs :=
    hr.mediums.mem_iff.mpr (List.mem_map_of_mem (Raw.mem_ofTier.mpr ⟨Live.raw_mem h.out, ht⟩))
  obtain ⟨p, hp, -, hpb⟩ := Heap.mem_used.mp hu
  have hpok := hr.heap.layout.placed_ok hp
  have hat : p.addr + 16 = a.raw.start := congrArg Span.data hpb
  obtain ⟨g, hg, hi⟩ := Heap.used_inside hr.heap.layout hu
  have hfull : g.span.size = Heap.segmentBytes s.tiers.world := hr.heap.full g hg
  have hround := (SystemMemory.roundToPages_bounds (p := s.tiers.world.page)
    (n := SegmentHeap.kSegmentSize) (by decide)).2
  have hpage := s.tiers.world.page.bounds
  have hseg : SegmentHeap.kSegmentSize = 4194304 := rfl
  unfold Span.Inside Raw.Block.span at hi
  unfold Heap.segmentBytes at hfull
  simp only at hi
  omega

/-- What the right free of a medium block finds in front of it. -/
theorem Tagged.medium (h : Tagged a m) (hp : a.ptr = a.raw.start + 48) (h32 : 32 ≤ a.raw.start)
    (hlt : a.ptr < 2 ^ 64) :
    SegmentHeap.blockOf a.raw.start = a.ptr - 64 ∧ Heap.Alone m (a.ptr - 64) ∧
      MediumBlock.isLast m (a.ptr - 64) = true ∧ MediumBlock.isFirst m (a.ptr - 64) = false ∧
      SegmentHeap.binIndex (MediumBlock.size m (a.ptr - 64)) = 17 := by
  have hbyte := h.tag 0 (by decide)
  rw [Nat.add_zero] at hbyte
  have hprev : MediumBlock.prevSize m (a.ptr - 64) = 0 := by
    have hat : a.ptr - 64 + 8 = a.ptr - 56 := by omega
    unfold MediumBlock.prevSize
    rw [hat, Heap.readLE_const h.prev]
    rfl
  have hself : SegmentHeap.prevBlock m (a.ptr - 64) = a.ptr - 64 := by
    unfold SegmentHeap.prevBlock
    rw [hprev]
    exact ptrSub_eq (Nat.zero_le _) (by omega)
  have hlast : MediumBlock.isLast m (a.ptr - 64) = true := by
    unfold MediumBlock.isLast
    rw [Heap.flag_of_byte (by decide), hbyte]
    rfl
  refine ⟨?_, ⟨Or.inl hlast, Or.inr ?_⟩, hlast, ?_, Heap.binIndex_big ?_⟩
  · have hat : SegmentHeap.blockOf a.raw.start = a.raw.start - 16 :=
      ptrSub_eq (show 16 ≤ a.raw.start by omega) (by omega)
    omega
  · rw [hself]
    unfold MediumBlock.isFree
    rw [Heap.flag_of_byte (by decide), hbyte]
    rfl
  · unfold MediumBlock.isFirst
    rw [Heap.flag_of_byte (by decide), hbyte]
    rfl
  · have hsize := Heap.size_of_byte (m := m) (b := a.ptr - 64) (k := 7) (by decide) (by decide)
    rw [h.tag 7 (by decide)] at hsize
    exact le_trans (by decide) hsize

theorem Tagged.freed (h : Tagged a m) (hp : a.ptr = a.raw.start + 48) (v : Nat) :
    Tagged a (BlockHeader.setState m a.raw.start v) :=
  ⟨fun i hi => (BlockHeader.setState_of_not (by omega)).trans (h.tag i hi),
    fun i hi => (BlockHeader.setState_of_not (by omega)).trans (h.prev i hi)⟩

/-- The right free of a medium block: it is the head of the last bin, and what was there points to it. -/
theorem Underflown.right_medium (h : Underflown s live a m₀) (ht : a.raw.tier = .Medium) (hr : Ready a m) :
    ((s.tiers.setMem m).rawDeallocate enabled t a.raw.user).2.segments.bins =
        Function.update s.tiers.segments.bins 17 (a.ptr - 32) ∧
      ∀ x, a.ptr ≤ x → ¬ (s.tiers.segments.bins 17 % 2 ^ 64 ≤ x ∧ x < s.tiers.segments.bins 17 % 2 ^ 64 + 8) →
        ((s.tiers.setMem m).rawDeallocate enabled t a.raw.user).2.mem x = m x := by
  have hp := h.place
  obtain ⟨h32, -⟩ := h.medium ht
  have htier := h.memory.rawDeallocate_tier h.out hr.raw
  rw [ht] at htier
  have hmark : ∀ x, a.ptr ≤ x → BlockHeader.setState m a.raw.start kStateFreed x = m x := fun x hx =>
    BlockHeader.setState_of_not (by omega)
  have htag := hr.toTagged.freed hp.1 kStateFreed
  cases hq : SegmentHeap.deallocate { s.tiers.world with
    mem := BlockHeader.setState m a.raw.start kStateFreed } s.tiers.segments a.raw.start with
  | mk w' h' =>
  rw [rawDeallocate_medium htier, h.memory.raw_headerOf h.out, rawDeallocateMedium_of hq]
  generalize BlockHeader.setState m a.raw.start kStateFreed = M at hmark htag hq
  obtain ⟨hb, halone, hlast, hfirst, hbin⟩ := htag.medium hp.1 h32 (by omega)
  have hone : (MediumBlock.isFirst M (a.ptr - 64) && MediumBlock.isLast M (a.ptr - 64)) = false := by
    rw [hfirst, Bool.false_and]
  have hnode : SegmentHeap.nodeOf (a.ptr - 64) = a.ptr - 32 := by
    unfold SegmentHeap.nodeOf SegmentHeap.kNodeOffset
    omega
  have hbins := Heap.deallocate_alone (w := { s.tiers.world with mem := M }) (h := s.tiers.segments) hb halone
    (Or.inl hone)
  have hkeep := fun x => Heap.deallocate_of_not (w := { s.tiers.world with mem := M }) (h := s.tiers.segments)
    (x := x) hb halone hlast (Or.inl hone)
  rw [hq, hbin, hnode] at hbins
  simp only [hq, hbin] at hkeep
  exact ⟨hbins, fun x hx hno => (hkeep x (by omega) (by omega) hno).trans (hmark x hx)⟩

/-- A byte behind the block that the right free leaves alone, when nearly all addresses are behind `p`. -/
theorem Underflown.exists_kept (h : Underflown s live a m₀) (enabled : Bool) (t : Nat)
    (hn : a.raw.reserved < n + 32) (hwide : 2 ^ 64 ≤ n + 79) : ∃ x, a.ptr + a.raw.reserved ≤ x + 32 ∧ x < a.ptr + n ∧
      ∀ m, Ready a m → ((s.tiers.setMem m).rawDeallocate enabled t a.raw.user).2.mem x = m x := by
  have hp := h.place
  obtain ⟨parts, segs, hr⟩ := h.memory.raw.tiers
  have hok := hr.ok _ (Live.raw_mem h.out)
  rcases hok.tiers with ht | ht | ht
  · -- the links of small blocks end 16 bytes before the address space does
    obtain ⟨hc, hcl⟩ := hr.client (Live.raw_mem h.out) ht
    have hst := Small.blockStride_bounds _ hc
    have hres := (hok.small ht).2
    have hblock : ∀ u q, u ∈ parts (classIndex a.raw.size) q →
        u + blockStride (classIndex a.raw.size) + 16 ≤ 2 ^ 64 := by
      intro u q hu
      have := hr.small.pools.block_ok hc (((hr.small.pools.parts _ hc).cover _).mpr ⟨q, hu⟩)
      omega
    have hmine := hblock _ _ hcl
    refine ⟨2 ^ 64 - 16, by omega, by omega, fun m hm => ?_⟩
    have htier := h.memory.rawDeallocate_tier h.out hm.raw
    rw [ht] at htier
    have hload : (BlockHeader.load (s.tiers.setMem m).mem a.raw.start).payloadSize = a.raw.size := by
      rw [Tiers.setMem_mem, hm.raw]
      rfl
    rw [rawDeallocate_small htier, h.memory.raw_headerOf h.out, hload]
    unfold Tiers.rawDeallocateSmall
    dsimp only
    refine (giveSmall_of_not (by omega) fun u hu => ?_).trans (BlockHeader.setState_of_not (by omega))
    have hcached : u ∈ parts (classIndex a.raw.size) (.cached t) := by
      rw [hr.small.cached t _ hc]
      exact hu
    have := hblock u _ hcached
    omega
  · -- of two words behind the block the heap writes one at most
    obtain ⟨h32, hlt⟩ := h.medium ht
    by_cases hhit : s.tiers.segments.bins 17 % 2 ^ 64 ≤ a.ptr + (a.raw.reserved - 32) ∧
        a.ptr + (a.raw.reserved - 32) < s.tiers.segments.bins 17 % 2 ^ 64 + 8
    · exact ⟨a.ptr + (a.raw.reserved - 32) + 8, by omega, by omega, fun m hm =>
        (h.right_medium ht hm).2 _ (by omega) (by omega)⟩
    · exact ⟨a.ptr + (a.raw.reserved - 32), by omega, by omega, fun m hm =>
        (h.right_medium ht hm).2 _ (by omega) hhit⟩
  · refine ⟨a.ptr + (a.raw.reserved - 32), by omega, by omega, fun m hm => ?_⟩
    have htier := h.memory.rawDeallocate_tier h.out hm.raw
    rw [ht] at htier
    rw [rawDeallocate_large htier]
    unfold Tiers.rawDeallocateLarge LargeAllocator.deallocate
    dsimp only
    split_ifs <;> split <;> rfl

end Right

/-! ## A medium block beside the block -/

section Strays
variable {s : AllocatorImpl} {live : List Alloc} {a : Alloc} {m m₀ M : Mem} {off : Nat}

/-- No segment starts off a multiple of 16. -/
theorem Live.segment_aligned {T : Tiers} (h : Live T live) {b : Nat} (hb : b % 16 ≠ 0) :
    ∀ g ∈ T.segments.segments, g.data ≠ b := by
  rintro g hg rfl
  obtain ⟨parts, segs, hr⟩ := h.raw.tiers
  exact hb (hr.world.aligned g (hr.zone_mapped (t := .Medium) hg))

/-- Where the tier field of a medium block can be read in the block, other than in its header. -/
theorem Underflown.near (h : Underflown s live a m₀) (ht : a.raw.tier = .Medium) (hle : off ≤ 40) (h32 : off ≠ 32)
    (hshim : (m₀ (a.ptr - 8)).toNat ≠ 0x52) (hbyte : m₀ (a.ptr - off - 8) = 0x52) :
    1 ≤ off ∧ off ≤ 8 ∨ 33 ≤ off ∧ off ≤ 40 := by
  have hp := h.place
  have hst := h.struck (m := m₀) (fun _ _ => rfl)
  by_contra hno
  have hbyte' : (m₀ (a.ptr - off - 8)).toNat = 0x52 := by
    rw [hbyte]
    rfl
  have hcase : off = 0 ∨ 9 ≤ off ∧ off ≤ 24 ∨ 25 ≤ off ∧ off ≤ 31 := by omega
  rcases hcase with rfl | hoff | hoff
  · -- the tier field of the shim
    exact hshim hbyte'
  · -- the front guard
    have hfront := hst.front (24 - off) (by omega)
    rw [ptrSub_eq (show 32 ≤ a.ptr by omega) (by omega),
      show a.ptr - 32 + (24 - off) = a.ptr - off - 8 by omega, hbyte] at hfront
    exact absurd hfront (by decide)
  · -- the raw header behind its size and its tier
    have h1 : readLE m₀ (a.raw.start + 8) 2 = 0x52 := by
      have := congrArg BlockHeader.tier hst.raw
      rw [ht] at this
      exact this
    have h2 : readLE m₀ (a.raw.start + 10) 2 = 0xA11C := congrArg BlockHeader.state hst.raw
    have h3 : readLE m₀ (a.raw.start + 12) 4 = 0 := congrArg BlockHeader.offset hst.raw
    simp only [readLE, Nat.add_assoc, Nat.reduceAdd] at h1 h2 h3
    obtain ⟨j, hj, hat⟩ : ∃ j, (9 ≤ j ∧ j ≤ 15) ∧ a.ptr - off - 8 = a.raw.start + j :=
      ⟨40 - off, by omega, by omega⟩
    rw [hat] at hbyte'
    have hb8 := (m₀ (a.raw.start + 8)).toNat_lt
    have hb10 := (m₀ (a.raw.start + 10)).toNat_lt
    have hcases : j = 9 ∨ j = 10 ∨ j = 11 ∨ j = 12 ∨ j = 13 ∨ j = 14 ∨ j = 15 := by omega
    rcases hcases with rfl | rfl | rfl | rfl | rfl | rfl | rfl <;> omega

/-- The memory in which the heap is called for a block beside the block: as it was up to the shim, and as chosen
    around, but for the state that was written. -/
structure Beside (a : Alloc) (m₀ : Mem) (off : Nat) (M : Mem) : Prop where
  inside : ∀ x, a.ptr - 48 ≤ x → x < a.ptr - 16 → ¬ (a.ptr - off - 6 ≤ x ∧ x < a.ptr - off - 4) → M x = m₀ x
  around : ∀ x, x < a.ptr - 48 ∨ a.ptr + a.raw.reserved ≤ x + 32 →
    ¬ (a.ptr - off - 6 ≤ x ∧ x < a.ptr - off - 4) → M x = beyondBytes a.ptr x

theorem Underflown.beside (h : Underflown s live a m₀) (hoff : off ≤ 40)
    (hM : SameOff (shimOn a.ptr a.raw.reserved).Has (around a.ptr a.raw.reserved m₀ (beyondBytes a.ptr)) M) :
    Beside a m₀ off (BlockHeader.setState M (a.ptr - off - 16) kStateFreed) := by
  have hp := h.place
  constructor
  · intro x h1 h2 h3
    refine (BlockHeader.setState_of_not (by omega)).trans ((hM x ?_).trans (if_pos ?_))
    · rw [has_shimOn]
      omega
    · rw [has_blockUnder]
      omega
  · intro x h1 h3
    refine (BlockHeader.setState_of_not (by omega)).trans ((hM x ?_).trans (around_beyond ?_))
    · rw [has_shimOn]
      omega
    · rw [has_blockUnder]
      omega

/-- A tag made of the raw header and of the front guard. -/
theorem Underflown.alone_behind (h : Underflown s live a m₀) (hres : a.raw.reserved + 64 < 2 ^ 31)
    (hb : Beside a m₀ off M) (hoff : 1 ≤ off ∧ off ≤ 8) :
    Heap.Alone M (a.ptr - off - 32) ∧ 2 ^ 22 ≤ MediumBlock.size M (a.ptr - off - 32) := by
  have hp := h.place
  have hst := h.struck (m := m₀) (fun _ _ => rfl)
  have hguard : ∀ i < 16, m₀ (a.ptr - 32 + i) = kGuardPattern := by
    intro i hi
    have hfront := hst.front i hi
    rwa [ptrSub_eq (show 32 ≤ a.ptr by omega) (by omega)] at hfront
  have hsize : 2 ^ 31 ≤ MediumBlock.size M (a.ptr - off - 32) := by
    by_cases h8 : off = 8
    · -- the high byte of the state of the raw header
      have hstate : readLE m₀ (a.raw.start + 10) 2 = 0xA11C := congrArg BlockHeader.state hst.raw
      simp only [readLE, Nat.add_assoc, Nat.reduceAdd] at hstate
      have hlow := (m₀ (a.raw.start + 10)).toNat_lt
      have hbyte := Heap.size_of_byte (m := M) (b := a.ptr - off - 32) (k := 3) (by decide) (by decide)
      rw [show a.ptr - off - 32 + 3 = a.raw.start + 11 by omega, hb.inside _ (by omega) (by omega) (by omega),
        show (m₀ (a.raw.start + 11)).toNat = 0xA1 by omega] at hbyte
      exact le_trans (by decide) hbyte
    · have hbyte := Heap.size_of_byte (m := M) (b := a.ptr - off - 32) (k := 7) (by decide) (by decide)
      rw [show a.ptr - off - 32 + 7 = a.ptr - 32 + (7 - off) by omega,
        hb.inside _ (by omega) (by omega) (by omega), hguard _ (by omega)] at hbyte
      exact le_trans (by decide) hbyte
  have hprev : MediumBlock.prevSize M (a.ptr - off - 32) = 0xFBFBFBFBFBFBFBFB := by
    have hbytes : ∀ i < 8, M (a.ptr - off - 32 + 8 + i) = kGuardPattern := by
      intro i hi
      rw [show a.ptr - off - 32 + 8 + i = a.ptr - 32 + (8 - off + i) by omega,
        hb.inside _ (by omega) (by omega) (by omega), hguard _ (by omega)]
    have hpattern : kGuardPattern.toNat = 0xFB := rfl
    unfold MediumBlock.prevSize
    rw [Heap.readLE_const hbytes]
    simp [readLE, hpattern]
  -- both sizes lead far out of the block, where nothing stands
  refine ⟨⟨Or.inr (Heap.not_free_of_zero ?_), Or.inr (Heap.not_free_of_zero ?_)⟩, le_trans (by decide) hsize⟩
  · unfold SegmentHeap.nextBlock
    rw [hb.around _ (Or.inr (by omega)) (by omega)]
    exact beyondBytes_zero (by omega)
  · unfold SegmentHeap.prevBlock ptrSub
    rw [hprev, hb.around _ (by omega) (by omega)]
    exact beyondBytes_zero (by omega)

/-- The tag that was chosen. -/
theorem Underflown.alone_before (h : Underflown s live a m₀) (h32 : 32 ≤ a.raw.start)
    (hb : Beside a m₀ off M) (hoff : 33 ≤ off ∧ off ≤ 40) :
    Heap.Alone M (a.ptr - off - 32) ∧ 2 ^ 22 ≤ MediumBlock.size M (a.ptr - off - 32) := by
  have hp := h.place
  have hbyte : M (a.ptr - off - 32) = 0xF6 := by
    rw [hb.around _ (by omega) (by omega)]
    exact beyondBytes_only (by omega)
  refine ⟨⟨Or.inl ?_, Or.inl ?_⟩, ?_⟩
  · unfold MediumBlock.isLast
    rw [Heap.flag_of_byte (by decide), hbyte]
    rfl
  · unfold MediumBlock.isFirst
    rw [Heap.flag_of_byte (by decide), hbyte]
    rfl
  · have htop : 0xF4 ≤ (M (a.ptr - off - 32 + 7)).toNat := by
      rw [hb.around _ (by omega) (by omega)]
      by_cases h64 : a.ptr - off - 32 + 7 < a.ptr - 64
      · rw [beyondBytes_only (by omega)]
        decide
      · rw [beyondBytes_last (by omega)]
        decide
    have hsize := Heap.size_of_byte (m := M) (b := a.ptr - off - 32) (k := 7) (by decide) (by decide)
    have hmul := Nat.mul_le_mul_right (256 ^ 7) htop
    exact le_trans (by decide) (hmul.trans hsize)

/-- **The free of a medium block beside the block**, in the chosen surroundings: it is the head of the last
    bin. -/
theorem Underflown.strays (h : Underflown s live a m₀) (ht : a.raw.tier = .Medium)
    (hoff : 1 ≤ off ∧ off ≤ 8 ∨ 33 ≤ off ∧ off ≤ 40)
    (hM : SameOff (shimOn a.ptr a.raw.reserved).Has (around a.ptr a.raw.reserved m₀ (beyondBytes a.ptr)) M) :
    ((s.tiers.setMem M).rawDeallocateMedium (a.ptr - off - 16)).2.segments.bins =
      Function.update s.tiers.segments.bins 17 (a.ptr - off) := by
  have hp := h.place
  obtain ⟨h32, hres⟩ := h.medium ht
  have hbeside := h.beside (show off ≤ 40 by omega) hM
  cases hq : SegmentHeap.deallocate { s.tiers.world with
    mem := BlockHeader.setState M (a.ptr - off - 16) kStateFreed } s.tiers.segments (a.ptr - off - 16) with
  | mk w' h' =>
  rw [rawDeallocateMedium_of hq]
  generalize BlockHeader.setState M (a.ptr - off - 16) kStateFreed = M' at hbeside hq
  have hb : SegmentHeap.blockOf (a.ptr - off - 16) = a.ptr - off - 32 :=
    (ptrSub_eq (show 16 ≤ a.ptr - off - 16 by omega) (by omega)).trans (by omega)
  have hnode : SegmentHeap.nodeOf (a.ptr - off - 32) = a.ptr - off := by
    unfold SegmentHeap.nodeOf SegmentHeap.kNodeOffset
    omega
  have hseg := h.memory.segment_aligned (b := a.ptr - off - 32) (by omega)
  have hends : Heap.Alone M' (a.ptr - off - 32) ∧ 2 ^ 22 ≤ MediumBlock.size M' (a.ptr - off - 32) := by
    rcases hoff with hoff | hoff
    · exact h.alone_behind hres hbeside hoff
    · exact h.alone_before h32 hbeside hoff
  have hbins := Heap.deallocate_alone (w := { s.tiers.world with mem := M' }) (h := s.tiers.segments) hb hends.1
    (Or.inr hseg)
  rwa [hq, Heap.binIndex_big hends.2, hnode] at hbins

end Strays

end MAlloc.Client
