/-
  Separation: the ranges of live allocations, the allocator's own bytes, and the regions the OS
  has mapped.

  `Metadata s u` lists, read off the state `s`, every span `u` the allocator keeps for itself: the
  header in front of each user pointer, the raw header a shim points back to, guard bytes, tags and
  free nodes of the medium tier, links of the shards' free lists and the headers of cached blocks.
  `separation_of_run`: after every run the live ranges meet neither each other nor any of these.
-/
import MAlloc.Client.System

namespace MAlloc.Client

open Lib AllocatorImpl DebugLayer SegmentHeap

/-- The header in front of the user bytes of an entry, as memory has it. -/
def headerAt (s : ClientSys) (e : Entry) : BlockHeader := BlockHeader.load s.mem (e.ptr - 16)

/-- The spans the allocator keeps for itself. -/
inductive Metadata (s : ClientSys) : Span → Prop
  | header {e} : e ∈ s.ledger → Metadata s ⟨e.ptr - 16, 16⟩
  | rawHeader {e} : e ∈ s.ledger → Metadata s ⟨e.ptr - (headerAt s e).offset - 16, 16⟩
  | frontGuard {e} : e ∈ s.ledger → (headerAt s e).tierValue = some .DebugShim →
      Metadata s ⟨e.ptr - 32, 16⟩
  | rearGuard {e} : e ∈ s.ledger → (headerAt s e).tierValue = some .DebugShim →
      Metadata s ⟨e.ptr + (headerAt s e).payloadSize, 32⟩
  | tag {b} : b ∈ Heap.allBlocks s.mem s.impl.tiers.segments → Metadata s ⟨b, 16⟩
  | node {i n} : i < kBinCount →
      n ∈ binNodes s.mem s.impl.tiers.segments.fuel (s.impl.tiers.segments.bins i) → Metadata s ⟨n, 16⟩
  | link {c n} : c < SizeClassTable.kClassCount →
      Reaches (FreeList.next s.mem) (s.impl.tiers.pools c).freeList.head n → Metadata s ⟨n, 8⟩
  | cached {t c b cache} : c < SizeClassTable.kClassCount → s.impl.tiers.tlsCaches t = some cache →
      b ∈ (cache c).below (cache c).count → Metadata s ⟨b, 16⟩

/-- Live allocations are apart from each other and from the allocator's own bytes, in mapped memory,
    aligned, and of the size they were asked for. -/
structure Separated (s : ClientSys) : Prop where
  apart : (s.ledger.map Entry.range).Pairwise Span.Disjoint
  mapped : ∀ e ∈ s.ledger, ∃ r ∈ s.impl.tiers.world.mapped, e.range.Inside r
  aligned : ∀ e ∈ s.ledger, e.ptr % 16 = 0 ∧ e.ptr % e.align = 0
  metadata : ∀ e ∈ s.ledger, ∀ u, Metadata s u → e.range.Disjoint u
  size : ∀ e ∈ s.ledger, s.impl.allocationSize e.ptr = e.size

section Separation
variable {s : ClientSys} {live : List Alloc} {a d : Alloc} {e : Entry}

/-- An entry is its allocation. -/
theorem Sound.alloc_eq (h : Sound s live) (he : e ∈ s.ledger) :
    ∃ a ∈ live, a.ptr = e.ptr ∧ a.size = e.size ∧ a.raw.reserved = e.reserved := by
  obtain ⟨a, ha, hkey⟩ := h.alloc_of he
  exact ⟨a, ha, congrArg Prod.fst hkey, congrArg (fun k => k.2.1) hkey, congrArg (fun k => k.2.2) hkey⟩

/-- Spans with no byte in common. -/
theorem disjoint_of_bytes {u v : Span} (hu : 0 < u.size) (hv : 0 < v.size)
    (h : ∀ x, u.Has x → ¬ v.Has x) : u.Disjoint v := by
  have h1 := h u.data
  have h2 := h v.data
  unfold Span.Has at h1 h2
  unfold Span.Disjoint
  omega

theorem Alloc.offset_eq {T : Tiers} (h : Live T live) (ha : a ∈ live) :
    a.ptr - a.header.offset = a.raw.user := by
  have hb := h.bounds ha
  have hp := (h.ok a ha).placed
  have hfit := h.fits ha
  unfold Alloc.Placed Raw.Block.user at hp
  unfold Alloc.header Raw.Block.user
  cases hs : a.shape with
  | plain =>
    rw [hs] at hp
    change a.ptr - 0 = _
    dsimp only at hp
    omega
  | guarded =>
    rw [hs] at hp
    change a.ptr - 32 = _
    dsimp only at hp
    omega
  | aligned A =>
    rw [hs] at hp
    change a.ptr - (a.ptr - (a.raw.start + 16)) % 2 ^ 32 = _
    dsimp only at hp
    omega

/-- Headers and guards lie in the raw block, off the user bytes. -/
theorem Live.metadata_spec {T : Tiers} (h : Live T live) (hd : d ∈ live) {u : Span}
    (hu : u ∈ d.metadata) : u.Inside d.raw.span ∧ d.range.Disjoint u := by
  have hb := h.bounds hd
  have hp := (h.ok d hd).placed
  have hfit := h.fits hd
  unfold Span.Inside Span.Disjoint Raw.Block.span Alloc.range
  unfold Alloc.metadata at hu
  rw [List.mem_cons, List.mem_cons] at hu
  rcases hu with rfl | rfl | hu
  · simp only
    omega
  · simp only
    omega
  · cases hs : d.shape with
    | plain => rw [hs] at hu; cases hu
    | aligned A => rw [hs] at hu; cases hu
    | guarded =>
      obtain ⟨h1, h2⟩ := hp.guarded hs
      rw [hs] at hu
      rcases List.mem_cons.mp hu with rfl | hu
      · unfold Raw.Block.user
        simp only
        omega
      · rw [List.mem_singleton.mp hu]
        simp only
        omega

theorem Live.metadata_apart {T : Tiers} (h : Live T live) (ha : a ∈ live) (hd : d ∈ live) {u : Span}
    (hu : u ∈ d.metadata) : a.range.Disjoint u := by
  obtain ⟨hi, hap⟩ := h.metadata_spec hd hu
  rcases h.eq_or_apart ha hd with rfl | hne
  · exact hap
  · exact (Alloc.range_inside h ha).disjoint hi hne

/-- A debug shim stands in front of guarded allocations only. -/
theorem Live.guarded_of_tier {T : Tiers} (h : Live T live) (hd : d ∈ live)
    (ht : d.header.tierValue = some .DebugShim) : d.shape = .guarded := by
  obtain ⟨parts, segs, hr⟩ := h.raw.tiers
  have hok := (hr.ok _ (Live.raw_mem hd)).tiers
  rw [d.header_tier] at ht
  cases hs : d.shape with
  | guarded => rfl
  | aligned A =>
    rw [hs] at ht
    cases ht
  | plain =>
    rw [hs] at ht
    rcases hok with h0 | h0 | h0 <;> rw [h0] at ht <;> cases ht

/-- The metadata in front of and behind the entries is the metadata of their allocations. -/
theorem Sound.headerAt_eq (h : Sound s live) (ha : a ∈ live) (hptr : a.ptr = e.ptr) :
    headerAt s e = a.header := by
  unfold headerAt
  rw [← hptr]
  exact (h.memory.ok a ha).header

/-- **No byte of a live allocation is one of the allocator's own.** -/
theorem Sound.metadata_disjoint (h : Sound s live) (ha : a ∈ live) {u : Span} (hu : Metadata s u) :
    a.range.Disjoint u := by
  obtain ⟨parts, segs, hr⟩ := h.memory.raw.tiers
  have hpos := (h.memory.ok a ha).pos
  have hin := Alloc.range_inside h.memory ha
  cases hu with
  | header he =>
    obtain ⟨d, hd, hptr, -⟩ := h.alloc_eq he
    rw [← hptr]
    refine h.memory.metadata_apart ha hd ?_
    unfold Alloc.metadata
    exact List.mem_cons_of_mem _ List.mem_cons_self
  | rawHeader he =>
    obtain ⟨d, hd, hptr, -⟩ := h.alloc_eq he
    rw [h.headerAt_eq hd hptr, ← hptr, Alloc.offset_eq h.memory hd]
    refine h.memory.metadata_apart ha hd ?_
    unfold Raw.Block.user
    rw [Nat.add_sub_cancel]
    exact List.mem_cons_self
  | frontGuard he ht =>
    obtain ⟨d, hd, hptr, -⟩ := h.alloc_eq he
    rw [h.headerAt_eq hd hptr] at ht
    have hg := h.memory.guarded_of_tier hd ht
    have hp := ((h.memory.ok d hd).placed.guarded hg).1
    refine h.memory.metadata_apart ha hd ?_
    unfold Alloc.metadata
    rw [hg, ← hptr, hp]
    exact List.mem_cons_of_mem _ (List.mem_cons_of_mem _ List.mem_cons_self)
  | rearGuard he ht =>
    obtain ⟨d, hd, hptr, -⟩ := h.alloc_eq he
    rw [h.headerAt_eq hd hptr] at ht ⊢
    have hg := h.memory.guarded_of_tier hd ht
    refine h.memory.metadata_apart ha hd ?_
    unfold Alloc.metadata
    rw [hg, ← hptr, d.header_size]
    simp
  | tag hb =>
    rw [hr.heap.allBlocks_eq] at hb
    obtain ⟨p, hp, rfl⟩ := List.mem_map.mp hb
    refine disjoint_of_bytes hpos (show 0 < 16 by decide) fun x hx hx' => ?_
    exact (hr.quiet (Live.raw_mem ha) (hin.has hx) p hp).1 hx'
  | node hi hn =>
    obtain ⟨lists, hrep⟩ := hr.heap.rep
    rw [hrep.binNodes_eq hr.heap.spans] at hn
    obtain ⟨p, hp, rfl, hpf, -⟩ := (hrep.mem_lists _ _).mp hn
    refine disjoint_of_bytes hpos (show 0 < 16 by decide) fun x hx hx' => ?_
    exact (hr.quiet (Live.raw_mem ha) (hin.has hx) p hp).2 hpf hx'
  | link hc hn =>
    have hfree := ((hr.small.pools.shard _ hc).chain.reaches_iff).mp hn
    have hs := Small.blockStride_bounds _ hc
    have hap := hr.small_apart (Live.raw_mem ha) hc (by simp) hfree
    refine hin.disjoint (show Span.Inside _ ⟨_, PoolAllocator.blockStride _⟩ from ?_) hap
    unfold Span.Inside
    simp only
    omega
  | @cached t c b cache hc ht hb =>
    have hcache : Raw.caches s.impl.tiers t = cache := by
      unfold Raw.caches
      rw [ht]
      rfl
    have hin' : b ∈ parts c (.cached t) := by
      rw [hr.small.cached t c hc, hcache]
      exact hb
    have hs := Small.blockStride_bounds _ hc
    have hap := hr.small_apart (Live.raw_mem ha) hc (by simp) hin'
    refine hin.disjoint (show Span.Inside _ ⟨_, PoolAllocator.blockStride _⟩ from ?_) hap
    unfold Span.Inside
    simp only
    omega

theorem Sound.separated (h : Sound s live) : Separated s := by
  have hrange : ∀ {a : Alloc} {e : Entry}, a.ptr = e.ptr → a.size = e.size → a.range = e.range := by
    intro a e h1 h2
    unfold Alloc.range Entry.range
    rw [h1, h2]
  refine ⟨?_, fun e he => ?_, h.aligned, fun e he u hu => ?_, fun e he => ?_⟩
  · -- the ranges lie in raw blocks that are apart, and no two entries have one pointer
    have hnd := h.ptr_nodup
    unfold ClientSys.pointers at hnd
    refine List.pairwise_map.mpr ((List.pairwise_map.mp hnd).imp_of_mem fun {e f} he hf hne => ?_)
    obtain ⟨a, ha, h1, h2, -⟩ := h.alloc_eq he
    obtain ⟨d, hd, h3, h4, -⟩ := h.alloc_eq hf
    rw [← hrange h1 h2, ← hrange h3 h4]
    rcases h.memory.eq_or_apart ha hd with rfl | hap
    · exact absurd (h1.symm.trans h3) hne
    · exact (Alloc.range_inside h.memory ha).disjoint (Alloc.range_inside h.memory hd) hap
  · obtain ⟨a, ha, h1, h2, -⟩ := h.alloc_eq he
    obtain ⟨parts, segs, hr⟩ := h.memory.raw.tiers
    obtain ⟨r, hr', hi⟩ := hr.home (Live.raw_mem ha)
    rw [← hrange h1 h2]
    exact ⟨r, hr.zone_mapped hr', (Alloc.range_inside h.memory ha).trans hi⟩
  · obtain ⟨a, ha, h1, h2, -⟩ := h.alloc_eq he
    rw [← hrange h1 h2]
    exact h.metadata_disjoint ha hu
  · obtain ⟨a, ha, h1, h2, -⟩ := h.alloc_eq he
    rw [← h1, ← h2]
    exact allocationSize_spec h.memory ha (h.passes ha)

end Separation

/-- **Separation holds after every run**, and no step from there changes a byte of an allocation
    that stays live, except the byte a client writes. -/
theorem separation_of_run {cfg : AllocatorConfig} {m : Mem} {page : PageSize}
    {answers : List (Option Nat)} {faults : List Bool} {calls : List ClientCall} {s : ClientSys}
    (hrun : runFrom ClientSys.step (ClientSys.start cfg (World.boot m page answers) faults) calls = some s) :
    Separated s ∧ ∀ call s', s.step call = some s' → ∀ e ∈ s.ledger, e ∈ s'.ledger →
      ∀ x, e.range.Has x → (∀ v, call ≠ .write x v) → s'.mem x = s.mem x := by
  obtain ⟨live, h⟩ := good_of_run hrun
  exact ⟨h.separated, fun call s' hs => (step_good h hs).2.1⟩

/-- Blocks of all three tiers, a block freed by another thread and handed out again, a refusal; then
    the large allocation moves while a written byte stays. -/
theorem separation_of_run_mixed : ∃ s s',
    runFrom ClientSys.step (ClientSys.start { enableGuardBytes := true } roomyWorld [])
      [.request 0 (.allocate 100), .request 1 (.alignedAllocate 64 5000), .request 0 (.allocate 300000),
        .write 16777283 7, .deallocate 1 1051744, .request 1 (.allocate 110), .request 0 (.allocate 2000)] = some s ∧
    s.step (.reallocate 0 33554496 9000) = some s' ∧ Separated s ∧
    s.ledger.map Entry.range = [⟨1051744, 110⟩, ⟨33554496, 300000⟩, ⟨16777280, 5000⟩] ∧
    s'.pointers = [16782384, 1051744, 16777280] ∧ s'.mem 16777283 = 7 := by
  have hrun : (runFrom ClientSys.step (ClientSys.start { enableGuardBytes := true } roomyWorld [])
      [.request 0 (.allocate 100), .request 1 (.alignedAllocate 64 5000), .request 0 (.allocate 300000),
        .write 16777283 7, .deallocate 1 1051744, .request 1 (.allocate 110), .request 0 (.allocate 2000)]).map
      (fun s => (s.ledger, s.mem 16777283, (s.step (.reallocate 0 33554496 9000)).map ClientSys.ledger)) =
      some ([⟨1051744, 110, 16, 192⟩, ⟨33554496, 300000, 16, 303072⟩, ⟨16777280, 5000, 64, 5072⟩], 7,
        some [⟨16782384, 9000, 16, 9072⟩, ⟨1051744, 110, 16, 192⟩, ⟨16777280, 5000, 64, 5072⟩]) := by
    decide +kernel
  obtain ⟨s, hs, hv⟩ := Option.map_eq_some_iff.mp hrun
  obtain ⟨hledger, hv⟩ := Prod.mk.inj hv
  obtain ⟨hbyte, hv⟩ := Prod.mk.inj hv
  obtain ⟨s', hs', hledger'⟩ := Option.map_eq_some_iff.mp hv
  obtain ⟨hsep, hframe⟩ := separation_of_run hs
  have hkept := hframe _ s' hs' ⟨16777280, 5000, 64, 5072⟩ (by simp [hledger]) (by simp [hledger']) 16777283
    (by decide) nofun
  refine ⟨s, s', hs, hs', hsep, ?_, ?_, hkept.trans hbyte⟩
  · rw [hledger]
    rfl
  · unfold ClientSys.pointers
    rw [hledger']
    rfl

end MAlloc.Client
