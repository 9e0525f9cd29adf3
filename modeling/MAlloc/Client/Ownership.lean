/-
  Who owns what the OS has mapped.

  `Owns T`: the mapped regions are the regions in `SegmentHeap::segments_`, in the `runs` of the
  shards and in `LargeAllocator::regions_`, each in one place, and what the OS has handed out is
  what it got back and what is mapped. `destroyed` is the destructor of the `CentralState`.
  `Releases` is about the one place where a region leaves the middle of a vector: a medium
  free that merges a block up to a whole segment.
-/
import MAlloc.Client.Release
import MAlloc.Model.MappedRegion

namespace MAlloc.Client

open Lib AllocatorImpl SystemMemory SegmentHeap MappedRegion

/-- The regions in all containers of the tiers. -/
def holdings (T : Tiers) : List Span :=
  T.segments.segments ++ (Small.allRuns T.pools ++ T.large.held)

structure Owns (T : Tiers) : Prop where
  mapped : T.world.mapped.Perm (holdings T)
  once : (holdings T).Nodup
  apart : (holdings T).Pairwise Span.Disjoint
  balanced : T.world.granted.Perm (T.world.returned ++ T.world.mapped)

/-- The members of a `CentralState` are destroyed in reverse order: `large`, `segments`, `pools`. -/
def destroyed (T : Tiers) : World :=
  let w := destroyAll T.world (owners T.large.held)
  let w := destroyAll w (owners T.segments.segments)
  destroyAll w (owners (PoolAllocator.runsOf T.pools))

/-- `deallocate(payload)` of the heap, with `q` the block it has merged, gives back the region `r` at
    position `i` of the vector, and no other. -/
structure GivesBack (w : World) (h : SegmentHeap) (payload : Nat) (q : Nat × Mem × (Nat → Nat)) (i : Nat)
    (r : Span) : Prop where
  position : h.segments[i]? = some r
  base : r.data = q.1
  has : r.Has payload
  released : SegmentHeap.deallocate w h payload =
    (unmap { w with mem := q.2.1 } r, ⟨q.2.2, h.segments.eraseIdx i⟩)
  erased : Owned.releaseSegment { w with mem := q.2.1 } q.2.2 (owners h.segments) q.1 =
    (unmap { w with mem := q.2.1 } r, q.2.2, owners (h.segments.eraseIdx i))
  mapped : r ∈ w.mapped
  gone : r ∉ w.mapped.erase r
  others : ∀ s ∈ h.segments.eraseIdx i, s ∈ w.mapped.erase r

/-- When the block `q` that `deallocate(payload)` has merged is a whole segment, and there is
    another, `releaseSegment` finds the segment, wherever it stands in the vector. -/
def Releases (w : World) (h : SegmentHeap) (payload : Nat) : Prop :=
  ∀ q, Heap.mergeBlock w.mem h.bins (blockOf payload) = q →
    MediumBlock.isFirst q.2.1 q.1 = true → MediumBlock.isLast q.2.1 q.1 = true →
    1 < h.segments.length → ∃ i r, GivesBack w h payload q i r

/-- The large payloads behind the live pointers. -/
def largePayloads (s : ClientSys) : List Nat :=
  (s.pointers.filter fun p => decide (tierBehind s.mem p = some .Large)).map (payloadBehind s.mem)

section Heap
variable {w : World} {h : SegmentHeap} {segs : List Heap.Seg} {others : List Span} {u : Span}

theorem releases (hok : Heap.HeapOk w h segs others) (hu : u ∈ Heap.used segs) : Releases w h u.data := by
  intro q hq hfirst hlast hlen
  obtain ⟨c, mid, hblock, hg⟩ := Heap.mergeBlock_merged hok hu
  have hde := Heap.deallocate_eq w h u.data
  rw [hq] at hblock hg hde
  obtain ⟨block, m', bins'⟩ := q
  dsimp only at hblock hg hde hfirst hlast
  subst hblock
  obtain ⟨lists, hr⟩ := hg.rep
  have htag : Heap.HasTag m' c.addr c.hole ⟨false, c.first, c.last⟩ := hr.tags _ (c.blk_mem false)
  have hleft : c.left = [] := by
    rw [htag.isFirst] at hfirst
    simpa [Heap.Ctx.first] using hfirst
  have hright : c.right = [] := by
    rw [htag.isLast] at hlast
    simpa [Heap.Ctx.last] using hlast
  have hspans := hg.spans_eq hok hleft hright
  have hfound := hg.found hok hleft hright (by omega)
  have hidx : h.segments.eraseIdx c.before.length =
      c.before.map Heap.Seg.span ++ c.after.map Heap.Seg.span := by
    rw [hspans, List.eraseIdx_append_of_length_le (by simp)]
    simp
  have hpos : ∀ s ∈ h.segments, 0 < s.size := fun s hs =>
    (hok.world.pos s (hok.mapped.mem_iff.mpr (List.mem_append_left _ hs))).2
  have hnd : w.mapped.Nodup := Span.nodup_of_pairwise hok.world.apart fun s hs => (hok.world.pos s hs).2
  have hsn : h.segments.Nodup := (List.nodup_append.mp (hok.mapped.nodup_iff.mp hnd)).1
  refine ⟨c.before.length, ⟨c.addr, c.hole⟩, ?_, rfl, ?_, ?_, ?_, ?_, ?_, ?_⟩
  · rw [hspans, List.getElem?_append_right (by simp)]
    simp
  · exact (hg.inside hok).has ⟨Nat.le_refl _, by have := Heap.used_size hok.layout hu; omega⟩
  · rw [hde, hidx, hfirst, hlast, Bool.and_true, if_pos rfl]
    exact hfound
  · have howned := releaseSegment_owned (w := { w with mem := m' }) (h := { h with bins := bins' }) hpos
      c.addr
    rw [hfound] at howned
    rw [hidx]
    exact howned
  · exact hok.mapped.mem_iff.mpr (List.mem_append_left _ (by rw [hspans]; simp))
  · exact fun hm => (hnd.mem_erase_iff.mp hm).1 rfl
  · intro s hs
    have hs' : s ∈ h.segments := List.mem_of_mem_eraseIdx hs
    refine hnd.mem_erase_iff.mpr ⟨?_, hok.mapped.mem_iff.mpr (List.mem_append_left _ hs')⟩
    rintro rfl
    rw [hspans, List.nodup_middle] at hsn
    rw [hidx] at hs
    exact (List.nodup_cons.mp hsn).1 hs

end Heap

section Owns
variable {T : Tiers} {raws : List Raw.Block} {parts : Small.Places} {segs : List Heap.Seg}

theorem owns (h : Raw.RawTiers T raws parts segs) : Owns T := by
  have hm : T.world.mapped.Perm (holdings T) := h.heap.mapped
  have hap := Span.pairwise_disjoint_perm hm h.world.apart
  exact ⟨hm, Span.nodup_of_pairwise hap fun r hr => (h.world.pos r (hm.mem_iff.mpr hr)).2, hap,
    h.world.balanced⟩

/-- **Destruction** gives everything back. -/
theorem destroyed_spec (h : Raw.RawTiers T raws parts segs) :
    (destroyed T).mapped = [] ∧ (destroyed T).granted = T.world.granted ∧
      (destroyed T).returned.Perm T.world.granted := by
  have hm : T.world.mapped.Perm
      (T.large.held ++ (T.segments.segments ++ (PoolAllocator.runsOf T.pools ++ []))) := by
    rw [List.append_nil]
    refine (h.heap.mapped.trans ?_).trans
      (((Small.runsOf_perm T.pools).symm.append_left _).append_left _)
    rw [← List.append_assoc]
    exact List.perm_append_comm
  obtain ⟨hw1, hm1, hg1⟩ := destroyAll_ok h.world hm
  obtain ⟨hw2, hm2, hg2⟩ := destroyAll_ok hw1 hm1
  obtain ⟨hw3, hm3, hg3⟩ := destroyAll_ok hw2 hm2
  have hnil : (destroyed T).mapped = [] := List.perm_nil.mp hm3
  have hgr : (destroyed T).granted = T.world.granted := hg3.trans (hg2.trans hg1)
  have hbal : (destroyed T).granted.Perm ((destroyed T).returned ++ (destroyed T).mapped) := hw3.balanced
  rw [hnil, List.append_nil, hgr] at hbal
  exact ⟨hnil, hgr, hbal.symm⟩

/-- `regions_` has the live large payloads. -/
theorem large_keys (h : Raw.RawTiers T raws parts segs) :
    (T.large.map Prod.fst).Perm ((Raw.ofTier raws .Large).map Raw.Block.start) := by
  have h1 : T.large.map Prod.fst = T.large.held.map fun r => r.data + 16 := by
    unfold LargeAllocator.held
    rw [List.map_map]
    exact List.map_congr_left h.keys
  have h2 : (Raw.ofTier raws .Large).map Raw.Block.start =
      ((Raw.ofTier raws .Large).map Raw.Block.region).map fun r => r.data + 16 := by
    rw [List.map_map]
    refine List.map_congr_left fun b hb => ?_
    obtain ⟨hb, ht⟩ := Raw.mem_ofTier.mp hb
    have := (h.ok b hb).large ht
    unfold Function.comp Raw.Block.region
    simp only
    omega
  rw [h1, h2]
  exact h.larges.map _

end Owns

section Client
variable {s : ClientSys} {live : List Alloc}

/-- Two ways to list the large blocks. -/
theorem map_large {tier : Nat → Option Tier} {payload : Nat → Nat}
    (htier : ∀ a ∈ live, (tier a.ptr = some .Large ↔ a.raw.tier = .Large))
    (hpay : ∀ a ∈ live, payload a.ptr = a.raw.start) :
    ((live.map Alloc.ptr).filter fun p => decide (tier p = some .Large)).map payload =
      (Raw.ofTier (live.map Alloc.raw) .Large).map Raw.Block.start := by
  unfold Raw.ofTier
  rw [List.filter_map, List.filter_map, List.map_map, List.map_map]
  have hf : live.filter ((fun p => decide (tier p = some .Large)) ∘ Alloc.ptr) =
      live.filter ((fun b : Raw.Block => decide (b.tier = .Large)) ∘ Alloc.raw) :=
    List.filter_congr fun a ha => decide_eq_decide.mpr (htier a ha)
  rw [hf]
  exact List.map_congr_left fun a ha => hpay a (List.mem_of_mem_filter ha)

theorem Sound.large_payloads (h : Sound s live) :
    (largePayloads s).Perm ((Raw.ofTier (live.map Alloc.raw) .Large).map Raw.Block.start) := by
  unfold largePayloads
  refine ((h.ptrs.symm.filter _).map _).trans (List.Perm.of_eq (map_large (fun a ha => ?_) fun a ha => ?_))
  · rw [(h.memory.behind ha).2.2]
    exact Option.some_inj
  · exact (h.memory.behind ha).2.1

/-- A medium free of a live pointer: what it does to the heap, and that `releaseSegment` finds its
    segment there. -/
theorem Good.releases (h : Good s live) {p : Nat} (hp : p ∈ s.pointers)
    (ht : tierBehind s.mem p = some .Medium) (t : Nat) :
    ∃ m' : Mem, (∀ x, ¬ (payloadBehind s.mem p ≤ x ∧ x < payloadBehind s.mem p +
        payloadCapacity s.mem (payloadBehind s.mem p)) → m' x = s.mem x) ∧
      (s.impl.deallocate t p).2.tiers = { s.impl.tiers with
        world := (SegmentHeap.deallocate { s.impl.tiers.world with mem := m' } s.impl.tiers.segments
          (payloadBehind s.mem p)).1
        segments := (SegmentHeap.deallocate { s.impl.tiers.world with mem := m' }
          s.impl.tiers.segments (payloadBehind s.mem p)).2 } ∧
      Releases { s.impl.tiers.world with mem := m' } s.impl.tiers.segments (payloadBehind s.mem p) := by
  obtain ⟨a, ha, rfl⟩ := h.alloc_of_ptr hp
  obtain ⟨-, hpay, htier⟩ := h.memory.behind ha
  rw [htier, Option.some.injEq] at ht
  obtain ⟨parts, segs, hr⟩ := h.memory.raw.tiers
  have hb : a.raw ∈ live.map Alloc.raw := Live.raw_mem ha
  have hcap : payloadCapacity s.mem a.raw.start = a.raw.reserved + 16 :=
    Heap.payloadCapacity_used (u := a.raw.span) hr.heap (hr.used_span hb ht)
  have hout : ∀ x, ¬ a.raw.span.Has x → given s.impl.config s.mem a x = s.mem x := fun x hx =>
    given_of_not (h.memory.ok a ha) (h.memory.fits ha) hx
  have hr' := hr.write hb hout
  rw [hpay, hcap]
  refine ⟨given s.impl.config s.mem a, hout, ?_, ?_⟩
  · obtain ⟨T', hrel, he, -⟩ := deallocate_checked h.memory ha (h.passes ha) (Or.inr (h.guards a ha)) t
    rw [he, discharge_tiers]
    rw [release_medium h.memory ha ht Prod.mk.eta.symm] at hrel
    exact (congrArg Prod.snd hrel).symm
  · exact Client.releases (u := a.raw.span) hr'.heap (hr'.used_span hb ht)

end Client

/-- **Mapping ownership.** In every state a run reaches, the mapped regions are held once each by the
    containers, `regions_` has exactly the live large payloads, and a medium free that empties a
    segment unmaps that one; destruction then leaves nothing mapped, every region the OS
    has handed out having come back once. -/
theorem ownership_of_run {cfg : AllocatorConfig} {m : Mem} {page : PageSize}
    {answers : List (Option Nat)} {faults : List Bool} {calls : List ClientCall} {s : ClientSys}
    (hrun : runFrom ClientSys.step (ClientSys.start cfg (World.boot m page answers) faults) calls = some s) :
    Owns s.impl.tiers ∧
    ((destroyed s.impl.tiers).mapped = [] ∧
      (destroyed s.impl.tiers).granted = s.impl.tiers.world.granted ∧
      (destroyed s.impl.tiers).returned.Perm s.impl.tiers.world.granted) ∧
    ((∀ e ∈ s.impl.tiers.large, e.1 = e.2.data + 16) ∧
      (s.impl.tiers.large.map Prod.fst).Perm (largePayloads s)) ∧
    ∀ p ∈ s.pointers, tierBehind s.mem p = some .Medium → ∀ t, ∃ m' : Mem,
      (∀ x, ¬ (payloadBehind s.mem p ≤ x ∧ x < payloadBehind s.mem p +
        payloadCapacity s.mem (payloadBehind s.mem p)) → m' x = s.mem x) ∧
      (s.impl.deallocate t p).2.tiers = { s.impl.tiers with
        world := (SegmentHeap.deallocate { s.impl.tiers.world with mem := m' } s.impl.tiers.segments
          (payloadBehind s.mem p)).1
        segments := (SegmentHeap.deallocate { s.impl.tiers.world with mem := m' }
          s.impl.tiers.segments (payloadBehind s.mem p)).2 } ∧
      Releases { s.impl.tiers.world with mem := m' } s.impl.tiers.segments (payloadBehind s.mem p) := by
  obtain ⟨live, h⟩ := good_of_run hrun
  obtain ⟨parts, segs, hr⟩ := h.memory.raw.tiers
  refine ⟨owns hr, destroyed_spec hr, ⟨hr.keys, ?_⟩, fun p hp ht t => h.releases hp ht t⟩
  exact (large_keys hr).trans h.large_payloads.symm

/-- An OS that refuses once between a run, a large region and two segments. -/
def grudgingWorld : World :=
  World.boot (fun _ => 0) smallWorld.page
    [some 0x100000, none, some 0x1000000, some 0x2000000, some 0x4000000]

/-- The first segment is filled and the second begun; then the large region and all blocks of the
    first segment but the lowest are freed. -/
def churn : List ClientCall :=
  [.request 0 (.allocate 100), .request 1 (.allocate 5000), .request 0 (.allocate 300000)] ++
    List.replicate 16 (.request 1 (.allocate 262144)) ++ [.deallocate 1 16777248] ++
    (List.range 14).map fun i => .deallocate 0 (33816640 + 262176 * i)

/-- The last free of the first segment unmaps that one, and the second stays. -/
theorem ownership_of_run_tiers : ∃ s s',
    runFrom ClientSys.step (ClientSys.start {} grudgingWorld []) churn = some s ∧
    s.step (.deallocate 1 33554464) = some s' ∧ Owns s.impl.tiers ∧ Owns s'.impl.tiers ∧
    holdings s.impl.tiers = [⟨33554432, 4194304⟩, ⟨67108864, 4194304⟩, ⟨1048576, 65536⟩] ∧
    holdings s'.impl.tiers = [⟨67108864, 4194304⟩, ⟨1048576, 65536⟩] ∧
    (destroyed s'.impl.tiers).mapped = [] ∧
    (destroyed s'.impl.tiers).returned.Perm s'.impl.tiers.world.granted ∧
    s'.impl.tiers.world.granted.length = 4 := by
  have hrun : (runFrom ClientSys.step (ClientSys.start {} grudgingWorld []) churn).map (fun s =>
      (holdings s.impl.tiers, (s.step (.deallocate 1 33554464)).map fun s' =>
        (holdings s'.impl.tiers, s'.impl.tiers.world.granted.length))) =
      some ([⟨33554432, 4194304⟩, ⟨67108864, 4194304⟩, ⟨1048576, 65536⟩],
        some ([⟨67108864, 4194304⟩, ⟨1048576, 65536⟩], 4)) := by
    decide +kernel
  obtain ⟨s, hs, hv⟩ := Option.map_eq_some_iff.mp hrun
  obtain ⟨hheld, hv⟩ := Prod.mk.inj hv
  obtain ⟨s', hs', hv⟩ := Option.map_eq_some_iff.mp hv
  obtain ⟨hheld', hgranted⟩ := Prod.mk.inj hv
  obtain ⟨hown, -, -⟩ := ownership_of_run hs
  obtain ⟨hown', ⟨hgone, -, hback⟩, -⟩ := ownership_of_run (run_snoc.mpr ⟨s, hs, hs'⟩)
  exact ⟨s, s', hs, hs', hown, hown', hheld, hheld', hgone,
    hback, hgranted⟩

end MAlloc.Client
