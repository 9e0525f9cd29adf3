/-
  The three tiers side by side.

  A `Block` is a raw allocation that is out: where its header stands, the size asked for, the tier
  that serves it and what that tier reserved behind the header. `RawTiers T raws parts segs`: the
  small tier's client blocks, the medium tier's used payloads and the large tier's regions are
  exactly the blocks of `raws`, and the runs, the segments and the large regions are together
  what the OS has mapped.

  The facts a client of the tiers needs: the extents of the blocks are apart (`apart`), each lies
  inside a mapped region (`home`), and a write inside one disturbs no tier (`RawTiers.write`).
-/
import MAlloc.Heap.System
import MAlloc.Model.AllocatorImpl
import MAlloc.Small.Cache

namespace MAlloc.Raw

open Lib SystemMemory SizeClassTable PoolAllocator

/-- A raw allocation that is out; `start` is the address of its header. -/
structure Block where
  start : Nat
  size : Nat
  tier : Tier
  reserved : Nat
  deriving DecidableEq, Repr

namespace Block

def user (b : Block) : Nat := b.start + 16

/-- Header and reserved bytes. -/
def span (b : Block) : Span := ⟨b.start, b.reserved + 16⟩

/-- The region of a large block. -/
def region (b : Block) : Span := ⟨b.start - 16, b.reserved + 32⟩

/-- The tier is the one for the size, and it has reserved enough. -/
structure Ok (b : Block) : Prop where
  fits : b.size ≤ b.reserved
  small : b.tier = .Small → b.size ≤ kSmallMax ∧ b.reserved = classSize (classIndex b.size)
  medium : b.tier = .Medium → kSmallMax < b.size ∧ b.size ≤ kMediumMax
  large : b.tier = .Large → kMediumMax < b.size ∧ 16 ≤ b.start
  tiers : b.tier = .Small ∨ b.tier = .Medium ∨ b.tier = .Large

/-- A large block lies in a region that was not mapped. -/
def New (T : Tiers) (b : Block) : Prop :=
  b.tier = .Large → ∀ r ∈ T.world.mapped, r.Disjoint b.region

end Block

/-- The cache of each thread. -/
def caches (T : Tiers) : Small.Caches := fun t => (T.tlsCaches t).getD ThreadCache.empty

/-- The blocks of `raws` served from class `c`. -/
def ofClass (raws : List Block) (c : Nat) : List Nat :=
  (raws.filter fun b => decide (b.tier = .Small ∧ classIndex b.size = c)).map Block.start

def ofTier (raws : List Block) (tier : Tier) : List Block :=
  raws.filter fun b => decide (b.tier = tier)

/-- The regions a tier has mapped. -/
def zone (T : Tiers) : Tier → List Span
  | .Small => Small.allRuns T.pools
  | .Medium => T.segments.segments
  | .Large => T.large.held
  | _ => []

structure RawTiers (T : Tiers) (raws : List Block) (parts : Small.Places) (segs : List Heap.Seg) :
    Prop where
  small : Small.SmallOk T.world T.pools (caches T) parts (T.segments.segments ++ T.large.held)
  heap : Heap.HeapOk T.world T.segments segs (Small.allRuns T.pools ++ T.large.held)
  retained : Heap.Retained segs
  keys : ∀ e ∈ T.large, e.1 = e.2.data + 16
  smalls : ∀ c < 30, (parts c .client).Perm (ofClass raws c)
  mediums : (Heap.used segs).Perm ((ofTier raws .Medium).map Block.span)
  larges : T.large.held.Perm ((ofTier raws .Large).map Block.region)
  ok : ∀ b ∈ raws, b.Ok
  apart : (raws.map Block.span).Pairwise Span.Disjoint

/-- The state of the tiers with `raws` out, headers written. -/
structure RawOk (T : Tiers) (raws : List Block) : Prop where
  tiers : ∃ parts segs, RawTiers T raws parts segs
  header : ∀ b ∈ raws, BlockHeader.load T.mem b.start = rawHeader b.size b.tier

section Frames
variable {w w' : World} {others others' : List Span}

/-- The world around the segments may change, the segments keeping their bytes. -/
theorem HeapOk.frame {h : SegmentHeap} {segs : List Heap.Seg} (hok : Heap.HeapOk w h segs others)
    (hw : w'.Ok) (hm : w'.mapped.Perm (h.segments ++ others')) (hp : w'.page = w.page)
    (hk : ∀ r ∈ h.segments, SameOn w.mem w'.mem r.data r.size) : Heap.HeapOk w' h segs others' := by
  obtain ⟨lists, hr⟩ := hok.rep
  have hin : ∀ p ∈ Heap.placed segs, SameOn w.mem w'.mem p.addr p.size := fun p hp => by
    obtain ⟨s, hs, hps⟩ := Heap.mem_placed.mp hp
    have := Heap.Seg.placed_within hps
    exact (hk s.span (by rw [hok.spans]; exact List.mem_map_of_mem hs)).mono this.1 this.2
  refine ⟨hw, hm, hok.spans, ⟨lists, hr.congr (fun p hp => ?_) fun p hp _ => ?_⟩, fun s hs => ?_⟩
  · have := hok.layout.placed_ok hp
    exact (hin p hp).mono (Nat.le_refl _) (by omega)
  · have := hok.layout.placed_ok hp
    exact (hin p hp).mono (by unfold Heap.PBlk.node; omega) (by unfold Heap.PBlk.node; omega)
  · rw [hok.full s hs]
    unfold Heap.segmentBytes
    rw [hp]

theorem SmallOk.frame {pools : PoolAllocator} {k : Small.Caches} {parts : Small.Places}
    (h : Small.SmallOk w pools k parts others) (hw : w'.Ok)
    (hm : w'.mapped.Perm (Small.allRuns pools ++ others'))
    (hk : ∀ r ∈ Small.allRuns pools, SameOn w.mem w'.mem r.data r.size) :
    Small.SmallOk w' pools k parts others' :=
  ⟨h.pools.frame hw hm hk, h.cached, h.count⟩

end Frames

section Facts
variable {T : Tiers} {raws : List Block} {parts : Small.Places} {segs : List Heap.Seg}

theorem RawTiers.world (h : RawTiers T raws parts segs) : T.world.Ok := h.small.pools.world

theorem RawTiers.mapped (h : RawTiers T raws parts segs) :
    T.world.mapped.Perm (Small.allRuns T.pools ++ (T.segments.segments ++ T.large.held)) :=
  h.small.pools.mapped

theorem mem_ofClass {b : Block} {c : Nat} (hb : b ∈ raws) (ht : b.tier = .Small)
    (hc : classIndex b.size = c) : b.start ∈ ofClass raws c :=
  List.mem_map.mpr ⟨b, List.mem_filter.mpr ⟨hb, decide_eq_true ⟨ht, hc⟩⟩, rfl⟩

theorem mem_ofTier {b : Block} {tier : Tier} : b ∈ ofTier raws tier ↔ b ∈ raws ∧ b.tier = tier := by
  simp [ofTier]

/-- A small block is a client block of its class. -/
theorem RawTiers.client (h : RawTiers T raws parts segs) {b : Block} (hb : b ∈ raws)
    (ht : b.tier = .Small) : classIndex b.size < 30 ∧ b.start ∈ parts (classIndex b.size) .client := by
  have hc : classIndex b.size < 30 := classIndex_lt ((h.ok b hb).small ht).1
  exact ⟨hc, (h.smalls _ hc).mem_iff.mpr (mem_ofClass hb ht rfl)⟩

/-- A block lies inside a region of its tier. -/
theorem RawTiers.home (h : RawTiers T raws parts segs) {b : Block} (hb : b ∈ raws) :
    ∃ r ∈ zone T b.tier, b.span.Inside r := by
  have hok := h.ok b hb
  rcases hok.tiers with ht | ht | ht
  · obtain ⟨hc, hcl⟩ := h.client hb ht
    have hs := Small.blockStride_bounds _ hc
    obtain ⟨r, hr, hi⟩ := h.small.pools.inside hc (((h.small.pools.parts _ hc).cover _).mpr ⟨_, hcl⟩)
    rw [ht]
    refine ⟨r, Small.mem_allRuns hc hr, Span.Inside.trans ?_ hi⟩
    have := (hok.small ht).2
    unfold Span.Inside Block.span
    simp only
    omega
  · have hu : b.span ∈ Heap.used segs :=
      h.mediums.mem_iff.mpr (List.mem_map_of_mem (mem_ofTier.mpr ⟨hb, ht⟩))
    obtain ⟨s, hs, hi⟩ := Heap.used_inside h.heap.layout hu
    rw [ht]
    refine ⟨s.span, ?_, hi⟩
    change s.span ∈ T.segments.segments
    rw [h.heap.spans]
    exact List.mem_map_of_mem hs
  · have hr : b.region ∈ T.large.held :=
      h.larges.mem_iff.mpr (List.mem_map_of_mem (mem_ofTier.mpr ⟨hb, ht⟩))
    rw [ht]
    refine ⟨b.region, hr, ?_⟩
    have := (hok.large ht).2
    unfold Span.Inside Block.span Block.region
    simp only
    omega

theorem RawTiers.zone_mapped (h : RawTiers T raws parts segs) {t : Tier} {r : Span}
    (hr : r ∈ zone T t) : r ∈ T.world.mapped := by
  rw [h.mapped.mem_iff, List.mem_append, List.mem_append]
  cases t with
  | Small => exact Or.inl hr
  | Medium => exact Or.inr (Or.inl hr)
  | Large => exact Or.inr (Or.inr hr)
  | AlignedShim => exact absurd hr List.not_mem_nil
  | DebugShim => exact absurd hr List.not_mem_nil

/-- Regions of different tiers are apart. -/
theorem RawTiers.zones_apart (h : RawTiers T raws parts segs) {tier tier' : Tier} (hne : tier ≠ tier')
    {r r' : Span} (hr : r ∈ zone T tier) (hr' : r' ∈ zone T tier') : r.Disjoint r' := by
  have hp := Span.pairwise_disjoint_perm h.mapped h.world.apart
  obtain ⟨-, hp2, h1⟩ := List.pairwise_append.mp hp
  obtain ⟨-, -, h2⟩ := List.pairwise_append.mp hp2
  cases tier <;> cases tier' <;>
    first
    | exact absurd rfl hne
    | exact absurd hr List.not_mem_nil
    | exact absurd hr' List.not_mem_nil
    | exact h1 _ hr _ (List.mem_append_left _ hr')
    | exact h1 _ hr _ (List.mem_append_right _ hr')
    | exact h2 _ hr _ hr'
    | exact (h1 _ hr' _ (List.mem_append_left _ hr)).symm
    | exact (h1 _ hr' _ (List.mem_append_right _ hr)).symm
    | exact (h2 _ hr' _ hr).symm

theorem RawTiers.span_bound (h : RawTiers T raws parts segs) {b : Block} (hb : b ∈ raws) :
    0 < b.start ∧ b.start + b.reserved + 16 < 2 ^ 64 := by
  obtain ⟨r, hr, hi⟩ := h.home hb
  have hm := h.zone_mapped hr
  have h1 := h.world.pos r hm
  have h2 := h.world.bound r hm
  unfold Span.Inside Block.span at hi
  simp only at hi
  omega

/-- Headers stand at multiples of 16. -/
theorem RawTiers.aligned (h : RawTiers T raws parts segs) {b : Block} (hb : b ∈ raws) :
    b.start % 16 = 0 := by
  have hok := h.ok b hb
  rcases hok.tiers with ht | ht | ht
  · obtain ⟨hc, hcl⟩ := h.client hb ht
    exact (h.small.pools.block_ok hc (((h.small.pools.parts _ hc).cover _).mpr ⟨_, hcl⟩)).2.1
  · have hu : b.span ∈ Heap.used segs :=
      h.mediums.mem_iff.mpr (List.mem_map_of_mem (mem_ofTier.mpr ⟨hb, ht⟩))
    obtain ⟨p, hp, -, hpb⟩ := Heap.mem_used.mp hu
    have hpok := h.heap.layout.placed_ok hp
    have he : p.addr + 16 = b.start := congrArg Span.data hpb
    omega
  · have hr : b.region ∈ T.large.held :=
      h.larges.mem_iff.mpr (List.mem_map_of_mem (mem_ofTier.mpr ⟨hb, ht⟩))
    have h1 := h.world.aligned b.region (h.zone_mapped (t := .Large) hr)
    have h2 := (hok.large ht).2
    unfold Block.region at h1
    simp only at h1
    omega

/-- A write inside a block leaves the regions of the other tiers alone. -/
theorem RawTiers.zone_write (h : RawTiers T raws parts segs) {b : Block} (hb : b ∈ raws) {m' : Mem}
    (hm : ∀ x, ¬ b.span.Has x → m' x = T.mem x) {t : Tier} (hne : b.tier ≠ t) {r : Span}
    (hr : r ∈ zone T t) : SameOn T.mem m' r.data r.size := by
  obtain ⟨q, hq, hi⟩ := h.home hb
  intro x h1 h2
  exact hm x fun hx => (h.zones_apart hne hq hr).not_has (hi.has hx) ⟨h1, h2⟩

/-- **A write inside a block disturbs no tier.** -/
theorem RawTiers.write (h : RawTiers T raws parts segs) {b : Block} (hb : b ∈ raws) {m : Mem}
    (hm : ∀ x, ¬ b.span.Has x → m x = T.mem x) : RawTiers (T.setMem m) raws parts segs := by
  have hok := h.ok b hb
  have hw : ({ T.world with mem := m } : World).Ok := ok_mem h.world m
  have hsmall : b.tier ≠ .Small → Small.SmallOk { T.world with mem := m } T.pools (caches T) parts
      (T.segments.segments ++ T.large.held) := fun hne =>
    SmallOk.frame h.small hw h.small.pools.mapped fun r hr => h.zone_write hb hm hne (t := .Small) hr
  have hheap : b.tier ≠ .Medium → Heap.HeapOk { T.world with mem := m } T.segments segs
      (Small.allRuns T.pools ++ T.large.held) := fun hne =>
    HeapOk.frame h.heap hw h.heap.mapped rfl fun r hr => h.zone_write hb hm hne (t := .Medium) hr
  have hboth : Small.SmallOk { T.world with mem := m } T.pools (caches T) parts
      (T.segments.segments ++ T.large.held) ∧
      Heap.HeapOk { T.world with mem := m } T.segments segs (Small.allRuns T.pools ++ T.large.held) := by
    rcases hok.tiers with ht | ht | ht
    · refine ⟨?_, hheap (by rw [ht]; simp)⟩
      obtain ⟨hc, hcl⟩ := h.client hb ht
      have hs := Small.blockStride_bounds _ hc
      refine ⟨h.small.pools.write hc (by simp) hcl fun x hx => hm x fun hx' => hx ?_, h.small.cached,
        h.small.count⟩
      have := (hok.small ht).2
      unfold Span.Has Block.span at hx'
      simp only at hx'
      omega
    · refine ⟨hsmall (by rw [ht]; simp), h.heap.write ?_ hm⟩
      exact h.mediums.mem_iff.mpr (List.mem_map_of_mem (mem_ofTier.mpr ⟨hb, ht⟩))
    · exact ⟨hsmall (by rw [ht]; simp), hheap (by rw [ht]; simp)⟩
  exact ⟨hboth.1, hboth.2, h.retained, h.keys, h.smalls, h.mediums, h.larges, h.ok, h.apart⟩

/-- Two blocks that are out are one, or apart. -/
theorem RawTiers.eq_or_apart (h : RawTiers T raws parts segs) {b d : Block} (hb : b ∈ raws)
    (hd : d ∈ raws) : b.span = d.span ∨ b.span.Disjoint d.span := by
  exact Span.eq_or_disjoint_of_pairwise h.apart (List.mem_map_of_mem hb) (List.mem_map_of_mem hd)

/-- No tag and no free node of the medium tier stands in a block that is out. -/
theorem RawTiers.quiet (h : RawTiers T raws parts segs) {b : Block} (hb : b ∈ raws) {x : Nat}
    (hx : b.span.Has x) : Heap.Quiet segs x := by
  by_cases ht : b.tier = .Medium
  · exact Heap.quiet_of_used h.heap.layout
      (h.mediums.mem_iff.mpr (List.mem_map_of_mem (mem_ofTier.mpr ⟨hb, ht⟩))) hx
  · obtain ⟨r, hr, hi⟩ := h.home hb
    refine Heap.quiet_of_outside h.heap.layout fun s hs hsx => ?_
    have hz : s.span ∈ zone T .Medium := by
      change s.span ∈ T.segments.segments
      rw [h.heap.spans]
      exact List.mem_map_of_mem hs
    exact (h.zones_apart ht hr hz).not_has (hi.has hx) hsx

/-- A block of the small tier that no client holds is apart from the blocks that are out. -/
theorem RawTiers.small_apart (h : RawTiers T raws parts segs) {b : Block} (hb : b ∈ raws) {c n : Nat}
    {p : Small.Place} (hc : c < 30) (hp : p ≠ .client) (hn : n ∈ parts c p) :
    b.span.Disjoint ⟨n, blockStride c⟩ := by
  have hcv := ((h.small.pools.parts c hc).cover n).mpr ⟨p, hn⟩
  by_cases ht : b.tier = .Small
  · obtain ⟨hd, hcl⟩ := h.client hb ht
    have hs := Small.blockStride_bounds _ hd
    have hap := h.small.pools.apart hd hc (((h.small.pools.parts _ hd).cover _).mpr ⟨_, hcl⟩) hcv
      fun e => by
        obtain ⟨rfl, rfl⟩ := Prod.mk.injEq .. ▸ e
        exact hp ((h.small.pools.parts _ hc).apart _ _ _ hn hcl)
    have := ((h.ok b hb).small ht).2
    unfold Span.Disjoint at hap ⊢
    unfold Block.span
    simp only at hap ⊢
    omega
  · obtain ⟨r, hr, hi⟩ := h.home hb
    obtain ⟨q, hq, hqi⟩ := h.small.pools.inside hc hcv
    exact hi.disjoint hqi (h.zones_apart ht hr (Small.mem_allRuns hc hq))

/-- A write behind the header of a block keeps the state of the tiers. -/
theorem RawOk.write (h : RawOk T raws) {b : Block} (hb : b ∈ raws) {m' : Mem}
    (hm : ∀ x, ¬ (b.user ≤ x ∧ x < b.user + b.reserved) → m' x = T.mem x) :
    RawOk (T.setMem m') raws := by
  obtain ⟨parts, segs, ht⟩ := h.tiers
  have hin : ∀ x, ¬ b.span.Has x → m' x = T.mem x := fun x hx => hm x fun hx' => hx (by
    unfold Span.Has Block.span
    unfold Block.user at hx'
    simp only
    omega)
  refine ⟨⟨parts, segs, ht.write hb hin⟩, fun d hd => ?_⟩
  refine (BlockHeader.load_congr fun x h1 h2 => hm x fun hx => ?_).trans (h.header d hd)
  unfold Block.user at hx
  rcases ht.eq_or_apart hb hd with he | hap
  · have := congrArg Span.data he
    unfold Block.span at this
    simp only at this
    omega
  · unfold Span.Disjoint Block.span at hap
    simp only at hap
    omega

/-- The order of the blocks does not matter. -/
theorem RawOk.perm (h : RawOk T raws) {raws' : List Block} (hp : raws.Perm raws') : RawOk T raws' := by
  obtain ⟨parts, segs, ht⟩ := h.tiers
  refine ⟨⟨parts, segs, ht.small, ht.heap, ht.retained, ht.keys, fun c hc => ?_, ?_, ?_, fun b hb => ?_,
    Span.pairwise_disjoint_perm (hp.map _) ht.apart⟩, fun b hb => h.header b (hp.mem_iff.mpr hb)⟩
  · exact (ht.smalls c hc).trans ((hp.filter _).map _)
  · exact ht.mediums.trans ((hp.filter _).map _)
  · exact ht.larges.trans ((hp.filter _).map _)
  · exact ht.ok b (hp.mem_iff.mpr hb)

end Facts

end MAlloc.Raw
