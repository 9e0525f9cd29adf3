/-
  Pointers that were freed, long after.

  Once `p` is freed, the 16 bytes in front of it may be covered by a `FreeList` link, a `FreeNode` or
  a `MediumBlock` tag, of whatever block lies there by then. As long as the bytes stay mapped and no
  live small or medium block covers them (`Vacant`), every change of them is tame: the tier field is
  kept, or its last four bits become zero, and no tier has such a code. So the header stays dead,
  and `deallocate(p)` fails.

  Leak tracking is off here; with it the registry answers (`Books`).
-/
import MAlloc.Client.Release

namespace MAlloc.Client

open Lib AllocatorImpl SizeClassTable

/-- The payload, of its tier, that the small or medium allocation at `p` occupies: the raw header, and
    all behind it up to the end of the block. -/
def blockBehind (m : Mem) (p : Nat) : Option Span :=
  match tierBehind m p with
  | some .Small => some ⟨payloadBehind m p, PoolAllocator.blockStride
      (classIndex (BlockHeader.load m (payloadBehind m p)).payloadSize)⟩
  | some .Medium => some ⟨payloadBehind m p, SegmentHeap.payloadCapacity m (payloadBehind m p)⟩
  | _ => none

/-- The header bytes of `p` are mapped, and in no block of a live small or medium allocation. -/
structure Vacant (p : Nat) (s : ClientSys) : Prop where
  mapped : ∃ r ∈ s.impl.tiers.world.mapped, Span.Inside ⟨p - 16, 16⟩ r
  vacant : ∀ q ∈ s.pointers, ∀ u, blockBehind s.mem q = some u → u.Disjoint ⟨p - 16, 16⟩

instance (p : Nat) (s : ClientSys) : Decidable (Vacant p s) :=
  decidable_of_iff ((∃ r ∈ s.impl.tiers.world.mapped, Span.Inside ⟨p - 16, 16⟩ r) ∧
      ∀ q ∈ s.pointers, ∀ u ∈ blockBehind s.mem q, u.Disjoint ⟨p - 16, 16⟩)
    ⟨fun h => ⟨h.1, h.2⟩, fun h => ⟨h.mapped, h.vacant⟩⟩

/-- The header bytes of `p` are dead, and in the region of no live large allocation. -/
structure Stale (p : Nat) (s : ClientSys) (live : List Alloc) : Prop extends Good s live where
  cell : (p - 16) % 16 = 0
  dead : BlockHeader.Dead s.mem (p - 16)
  large : ∀ a ∈ live, a.raw.tier = .Large → a.raw.region.Disjoint ⟨p - 16, 16⟩

section Vacant
variable {T : Tiers} {s s' : ClientSys} {live live' : List Alloc} {a : Alloc} {p : Nat}

/-- The block of a live small or medium allocation covers its raw block. -/
theorem Live.blockBehind_eq (h : Live T live) (ha : a ∈ live) (ht : a.raw.tier ≠ .Large) :
    ∃ u, blockBehind T.mem a.ptr = some u ∧ a.raw.span.Inside u := by
  obtain ⟨parts, segs, hr⟩ := h.raw.tiers
  obtain ⟨-, hpay, htier⟩ := h.behind ha
  have hok := hr.ok _ (Live.raw_mem ha)
  unfold blockBehind
  rw [htier, hpay, h.raw.header _ (Live.raw_mem ha)]
  rcases hok.tiers with h0 | h0 | h0
  · rw [h0]
    obtain ⟨hle, hres⟩ := hok.small h0
    have hs := Small.blockStride_bounds _ (classIndex_lt hle)
    refine ⟨_, rfl, Nat.le_refl _, ?_⟩
    change a.raw.start + (a.raw.reserved + 16) ≤ a.raw.start + PoolAllocator.blockStride
      (classIndex a.raw.size)
    omega
  · rw [h0]
    refine ⟨_, rfl, Nat.le_refl _, ?_⟩
    have hcap : SegmentHeap.payloadCapacity T.mem a.raw.start = a.raw.reserved + 16 :=
      Heap.payloadCapacity_used (u := a.raw.span) hr.heap (hr.used_span (Live.raw_mem ha) h0)
    rw [hcap]
    exact Nat.le_refl _
  · exact absurd h0 ht

theorem Live.region_mapped (h : Live T live) (ha : a ∈ live) (ht : a.raw.tier = .Large) :
    a.raw.region ∈ T.world.mapped ∧ a.raw.span.Inside a.raw.region := by
  obtain ⟨parts, segs, hr⟩ := h.raw.tiers
  have h16 := ((hr.ok _ (Live.raw_mem ha)).large ht).2
  refine ⟨hr.zone_mapped (t := .Large) (hr.larges.mem_iff.mpr (List.mem_map_of_mem
    (Raw.mem_ofTier.mpr ⟨Live.raw_mem ha, ht⟩))), ?_⟩
  unfold Span.Inside Raw.Block.span Raw.Block.region
  simp only
  omega

/-- A vacant cell outside the large regions meets no live raw block. -/
theorem Vacant.apart (hv : Vacant p s) (h : Sound s live)
    (hlarge : ∀ a ∈ live, a.raw.tier = .Large → a.raw.region.Disjoint ⟨p - 16, 16⟩) (ha : a ∈ live) :
    a.raw.span.Disjoint ⟨p - 16, 16⟩ := by
  by_cases ht : a.raw.tier = .Large
  · exact (h.memory.region_mapped ha ht).2.disjoint ⟨Nat.le_refl _, Nat.le_refl _⟩ (hlarge a ha ht)
  · obtain ⟨u, hu, hin⟩ := h.memory.blockBehind_eq ha ht
    have hp : a.ptr ∈ s.pointers := h.ptrs.mem_iff.mp (List.mem_map_of_mem ha)
    exact hin.disjoint ⟨Nat.le_refl _, Nat.le_refl _⟩ (hv.vacant _ hp u hu)

/-- A region mapped by a step lies off the cells that were mapped before it. -/
theorem Stepped.large_apart {call : ClientCall} (hst : Stepped call s s' live live') {r c : Span}
    (hr : r ∈ s.impl.tiers.world.mapped) (hc : c.Inside r)
    (hold : ∀ a ∈ live, a.raw.tier = .Large → a.raw.region.Disjoint c) :
    ∀ a ∈ live', a.raw.tier = .Large → a.raw.region.Disjoint c := by
  intro a ha ht
  rcases hst.fresh a ha with h0 | ⟨-, hnew⟩
  · exact hold a h0 ht
  · exact (hc.disjoint ⟨Nat.le_refl _, Nat.le_refl _⟩ (hnew ht r hr)).symm

/-- **A step keeps a vacant cell dead.** -/
theorem Stale.step {call : ClientCall} (h : Stale p s live) (hv : Vacant p s) (hv' : Vacant p s')
    (hs : s.step call = some s') : ∃ live', Stale p s' live' := by
  obtain ⟨live', h', hst⟩ := step_stepped h.toGood hs
  obtain ⟨r, hr, hin⟩ := hv.mapped
  have hlarge := hst.large_apart hr hin h.large
  have htame : TameAt s.mem s'.mem (p - 16) := by
    refine hst.tame _ h.cell (fun a ha => ?_) fun a ha => ?_
    · exact hv.apart h.toSound h.large ha
    · exact hv'.apart h'.toSound hlarge ha
  exact ⟨live', h', h.cell, h.dead.of_tame htame, hlarge⟩

/-- **The step that frees `p` leaves its header dead**, when the bytes stay mapped. -/
theorem Good.stale {call : ClientCall} (h : Good s live) (ha : a ∈ live) (hs : s.step call = some s')
    (hout : a.ptr ∉ s'.pointers) (hv : Vacant a.ptr s') : ∃ live', Stale a.ptr s' live' := by
  obtain ⟨live', h', hst⟩ := step_stepped h hs
  obtain ⟨parts, segs, hr⟩ := h.memory.raw.tiers
  have hb := h.memory.bounds ha
  have hgone := hst.goes a ha hout
  have hcell : Span.Inside ⟨a.ptr - 16, 16⟩ a.raw.span := by
    have := (h.memory.ok a ha).pos
    unfold Span.Inside Raw.Block.span
    simp only
    omega
  have hsmall : a.raw.tier ≠ .Large := by
    -- the bytes of a large block are unmapped
    intro ht
    obtain ⟨q, hq, hin⟩ := hv.mapped
    have hap := hgone.unmapped ht q hq
    have hin' := hcell.trans (h.memory.region_mapped ha ht).2
    exact hap.not_has (x := a.ptr - 16) (hin.has ⟨Nat.le_refl _, by simp⟩)
      (hin'.has ⟨Nat.le_refl _, by simp⟩)
  obtain ⟨r, hz, hi⟩ := hr.home (Live.raw_mem ha)
  refine ⟨live', h', h.memory.header_mod_16 ha, hgone.dead hsmall, ?_⟩
  refine hst.large_apart (hr.zone_mapped hz) (hcell.trans hi) fun d hd ht => ?_
  have hz' : d.raw.region ∈ Raw.zone s.impl.tiers .Large := hr.larges.mem_iff.mpr
    (List.mem_map_of_mem (Raw.mem_ofTier.mpr ⟨Live.raw_mem hd, ht⟩))
  have hap := hr.zones_apart hsmall hz hz'
  exact ((hcell.trans hi).disjoint ⟨Nat.le_refl _, Nat.le_refl _⟩ hap).symm

/-- A dead header is refused, and nothing happens but the report. -/
theorem deallocate_dead {i : AllocatorImpl} (t : Nat) (hoff : i.config.enableLeakTracking = false)
    (hp : 16 ≤ p) (hb : p < 2 ^ 64) (hd : BlockHeader.Dead i.tiers.mem (p - 16)) :
    i.deallocate t p = i.fail .DoubleFree p ∨ i.deallocate t p = i.fail .InvalidPointer p := by
  unfold AllocatorImpl.deallocate
  rw [if_neg (by omega), hoff, Bool.false_and, if_neg (by simp), headerOf_eq hp hb]
  unfold BlockHeader.Dead at hd
  generalize BlockHeader.load i.tiers.mem (p - 16) = header at *
  unfold AllocatorImpl.deallocateBy
  by_cases hbad : header.hasValidTier = false ∨ (header.state ≠ kStateAllocated ∧ header.state ≠ kStateFreed)
  · rw [if_pos hbad]
    exact Or.inr rfl
  · rw [if_neg hbad]
    obtain ⟨hvalid, hstate⟩ := not_or.mp hbad
    have hne : header.state ≠ kStateAllocated := fun h0 => hd ⟨by simpa using hvalid, h0⟩
    have hfreed : header.state = kStateFreed := by
      by_contra h0
      exact hstate ⟨hne, h0⟩
    rw [if_pos hfreed]
    exact Or.inl rfl

end Vacant

/-- **A stale free into free memory is refused.** `p` was live and is freed in one step; since then its
    header bytes are vacant. However the run goes on, `deallocate(p)` fails and changes nothing. -/
theorem stale_free_of_run {cfg : AllocatorConfig} {m : Mem} {page : PageSize}
    {answers : List (Option Nat)} {faults : List Bool} {before after : List ClientCall} {call : ClientCall}
    {s₀ s₁ s : ClientSys} {p : Nat} (hoff : cfg.enableLeakTracking = false)
    (hbefore : runFrom ClientSys.step (ClientSys.start cfg (World.boot m page answers) faults) before = some s₀)
    (hlive : p ∈ s₀.pointers) (hfree : s₀.step call = some s₁) (hfreed : p ∉ s₁.pointers)
    (hafter : runFrom ClientSys.step s₁ after = some s)
    (hvacant : Throughout ClientSys.step (Vacant p) s₁ after) (t : Nat) :
    s.impl.deallocate t p = s.impl.fail .DoubleFree p ∨
      s.impl.deallocate t p = s.impl.fail .InvalidPointer p := by
  obtain ⟨live, h⟩ := good_of_run hbefore
  obtain ⟨a, ha, rfl⟩ := h.alloc_of_ptr hlive
  have hb := h.memory.bounds ha
  obtain ⟨live', h'⟩ : ∃ live', Stale a.ptr s live' := by
    refine run_throughout (J := fun s => ∃ live, Stale a.ptr s live) ?_ hvacant
      (h.stale ha hfree hfreed hvacant.head) hafter
    rintro s call s' hv hv' ⟨live, h⟩ hs
    exact h.step hv hv' hs
  have hall : runFrom ClientSys.step (ClientSys.start cfg (World.boot m page answers) faults)
      (before ++ call :: after) = some s :=
    run_append.mpr ⟨s₀, hbefore, run_cons.mpr ⟨s₁, hfree, hafter⟩⟩
  have hcfg : s.impl.config = cfg := config_of_run hall
  exact deallocate_dead t (by rw [hcfg]; exact hoff) (by omega) (by omega) h'.dead

theorem stale_free_of_run_medium :
    ∃ s₀ s₁ s, runFrom ClientSys.step (ClientSys.start {} smallWorld [])
        [.request 0 (.allocate 5000), .request 0 (.allocate 6000)] = some s₀ ∧
      s₀.step (.deallocate 0 65568) = some s₁ ∧
      runFrom ClientSys.step s₁ [.request 1 (.allocate 20000)] = some s ∧
      (s.impl.deallocate 1 65568 = s.impl.fail .DoubleFree 65568 ∨
        s.impl.deallocate 1 65568 = s.impl.fail .InvalidPointer 65568) := by
  have hrun : (runFrom ClientSys.step (ClientSys.start {} smallWorld [])
      [.request 0 (.allocate 5000), .request 0 (.allocate 6000)]).map (fun s₀ =>
        (decide (65568 ∈ s₀.pointers), (s₀.step (.deallocate 0 65568)).map fun s₁ =>
          (decide (65568 ∉ s₁.pointers ∧ Vacant 65568 s₁),
            (s₁.step (.request 1 (.allocate 20000))).map fun s => decide (Vacant 65568 s)))) =
      some (true, some (true, some true)) := by
    decide +kernel
  obtain ⟨s₀, h0, hv0⟩ := Option.map_eq_some_iff.mp hrun
  obtain ⟨hp, hs⟩ := Prod.mk.inj hv0
  obtain ⟨s₁, h1, hv1⟩ := Option.map_eq_some_iff.mp hs
  obtain ⟨hq, hs'⟩ := Prod.mk.inj hv1
  obtain ⟨s, h2, hv2⟩ := Option.map_eq_some_iff.mp hs'
  obtain ⟨hout, hvac⟩ := of_decide_eq_true hq
  have h2' : runFrom ClientSys.step s₁ [.request 1 (.allocate 20000)] = some s := run_cons.mpr ⟨s, h2, rfl⟩
  refine ⟨s₀, s₁, s, h0, h1, h2', stale_free_of_run rfl h0 (of_decide_eq_true hp) h1 hout h2' ?_ 1⟩
  refine ⟨hvac, fun s' hs => ?_⟩
  rw [h2] at hs
  cases hs
  have hlast : Vacant 65568 s := of_decide_eq_true hv2
  exact hlast

end MAlloc.Client
