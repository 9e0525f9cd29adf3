/-
  How much memory the allocator keeps.

  Large regions and segments are paid for by live allocations: each large region is that of a live
  allocation, to the byte, and each segment holds a live one, unless it is the only segment. What
  else is mapped are the runs of the shards, which never go back before the allocator does.
-/
import MAlloc.Client.Ownership

namespace MAlloc.Client

open Lib AllocatorImpl SystemMemory

/-- The bytes of some regions. -/
def bytesOf (regions : List Span) : Nat := (regions.map Span.size).sum

/-- The live allocations a tier serves. -/
def servedBy (s : ClientSys) (tier : Tier) : List Entry :=
  s.ledger.filter fun e => decide (tierBehind s.mem e.ptr = some tier)

structure Footprint (s : ClientSys) : Prop where
  total : bytesOf s.impl.tiers.world.mapped = bytesOf (Small.allRuns s.impl.tiers.pools) +
    bytesOf s.impl.tiers.segments.segments + bytesOf s.impl.tiers.large.held
  segment : ∀ r ∈ s.impl.tiers.segments.segments, r.size = Heap.segmentBytes s.impl.tiers.world
  segments : s.impl.tiers.segments.segments.length ≤ max 1 (servedBy s .Medium).length
  large : bytesOf s.impl.tiers.large.held = ((servedBy s .Large).map fun e => e.reserved + 32).sum

section Footprint
variable {s : ClientSys} {live : List Alloc}

theorem bytesOf_append (l r : List Span) : bytesOf (l ++ r) = bytesOf l + bytesOf r := by
  unfold bytesOf
  rw [List.map_append, List.sum_append]

theorem bytesOf_perm {l r : List Span} (h : l.Perm r) : bytesOf l = bytesOf r := (h.map Span.size).sum_eq

/-- The entries a tier serves are its allocations. -/
theorem Sound.served_keys (h : Sound s live) (tier : Tier) :
    ((live.filter fun a => decide (a.raw.tier = tier)).map Alloc.key).Perm
      ((servedBy s tier).map Entry.key) := by
  have hkeys := h.keys.filter fun k => decide (tierBehind s.mem k.1 = some tier)
  rw [List.filter_map, List.filter_map] at hkeys
  have hf : live.filter ((fun k => decide (tierBehind s.mem k.1 = some tier)) ∘ Alloc.key) =
      live.filter fun a => decide (a.raw.tier = tier) := by
    refine List.filter_congr fun a ha => decide_eq_decide.mpr ?_
    change tierBehind s.mem a.ptr = some tier ↔ _
    rw [(h.memory.behind ha).2.2]
    exact Option.some_inj
  rw [hf] at hkeys
  exact hkeys

theorem ofTier_raw (live : List Alloc) (tier : Tier) :
    Raw.ofTier (live.map Alloc.raw) tier = (live.filter fun a => decide (a.raw.tier = tier)).map Alloc.raw := by
  unfold Raw.ofTier
  rw [List.filter_map]
  rfl

/-- A heap has a used block for each segment, unless it has one segment. -/
theorem segments_le {segs : List Heap.Seg} (h : Heap.Retained segs) :
    segs.length ≤ max 1 (Heap.used segs).length := by
  by_cases hlen : 2 ≤ segs.length
  · have hone : ∀ n ∈ segs.map fun g => (Heap.usedFrom g.base g.blocks).length, 1 ≤ n := by
      intro n hn
      obtain ⟨g, hg, rfl⟩ := List.mem_map.mp hn
      exact List.length_pos_of_ne_nil (Heap.busy_iff_used.mp (h hlen g hg))
    have hsum := List.length_le_sum_of_one_le _ hone
    rw [List.length_map] at hsum
    unfold Heap.used
    rw [List.length_flatMap]
    exact hsum.trans (Nat.le_max_right _ _)
  · exact Nat.le_trans (by omega) (Nat.le_max_left _ _)

theorem Sound.footprint (h : Sound s live) : Footprint s := by
  obtain ⟨parts, segs, hr⟩ := h.memory.raw.tiers
  have hmedium := h.served_keys .Medium
  have hlarge := h.served_keys .Large
  constructor
  · rw [bytesOf_perm hr.mapped, bytesOf_append, bytesOf_append, Nat.add_assoc]
  · intro r hin
    rw [hr.heap.spans] at hin
    obtain ⟨g, hg, rfl⟩ := List.mem_map.mp hin
    exact hr.heap.full g hg
  · have hcount : (Heap.used segs).length = (servedBy s .Medium).length := by
      have h1 := hr.mediums.length_eq
      have h2 := hmedium.length_eq
      rw [ofTier_raw] at h1
      simp only [List.length_map] at h1 h2
      exact h1.trans h2
    rw [hr.heap.spans, List.length_map, ← hcount]
    exact segments_le hr.retained
  · have hsum := (hlarge.map fun k => k.2.2 + 32).sum_eq
    rw [List.map_map, List.map_map] at hsum
    rw [bytesOf_perm hr.larges, ofTier_raw]
    unfold bytesOf
    rw [List.map_map, List.map_map]
    exact hsum

/-- What is mapped besides the runs. -/
theorem Footprint.bound (h : Footprint s) : bytesOf s.impl.tiers.world.mapped ≤
    bytesOf (Small.allRuns s.impl.tiers.pools) +
      Heap.segmentBytes s.impl.tiers.world * max 1 (servedBy s .Medium).length +
      ((servedBy s .Large).map fun e => e.reserved + 32).sum := by
  have hsegments : bytesOf s.impl.tiers.segments.segments =
      s.impl.tiers.segments.segments.length * Heap.segmentBytes s.impl.tiers.world := by
    unfold bytesOf
    rw [List.map_congr_left h.segment, List.map_const', List.sum_replicate_nat]
  rw [h.total, h.large, hsegments, Nat.mul_comm]
  have hle := Nat.mul_le_mul_left (Heap.segmentBytes s.impl.tiers.world) h.segments
  omega

end Footprint

/-- **The footprint is bounded by what is live**, in every state a run reaches. -/
theorem footprint_of_run {cfg : AllocatorConfig} {m : Mem} {page : PageSize}
    {answers : List (Option Nat)} {faults : List Bool} {calls : List ClientCall} {s : ClientSys}
    (hrun : runFrom ClientSys.step (ClientSys.start cfg (World.boot m page answers) faults) calls = some s) :
    Footprint s ∧ bytesOf s.impl.tiers.world.mapped ≤ bytesOf (Small.allRuns s.impl.tiers.pools) +
      Heap.segmentBytes s.impl.tiers.world * max 1 (servedBy s .Medium).length +
      ((servedBy s .Large).map fun e => e.reserved + 32).sum := by
  obtain ⟨live, h⟩ := good_of_run hrun
  exact ⟨h.footprint, h.footprint.bound⟩

/-- Two medium blocks share a segment, and a large one has its region. -/
theorem footprint_of_run_tiers : ∃ s, runFrom ClientSys.step (ClientSys.start {}
      (World.boot (fun _ => 0) ⟨12, by decide, by decide⟩ [some 65536, some 16777216, some 33554432]) [])
      [.request 0 (.allocate 100), .request 1 (.allocate 5000), .request 1 (.allocate 5000),
        .request 0 (.allocate 300000)] = some s ∧
    (servedBy s .Medium).length = 2 ∧ bytesOf s.impl.tiers.segments.segments = 4194304 ∧
    ((servedBy s .Large).map fun e => e.reserved + 32).sum = 303104 ∧ Footprint s := by
  have hfacts : (runFrom ClientSys.step (ClientSys.start {}
      (World.boot (fun _ => 0) ⟨12, by decide, by decide⟩ [some 65536, some 16777216, some 33554432]) [])
      [.request 0 (.allocate 100), .request 1 (.allocate 5000), .request 1 (.allocate 5000),
        .request 0 (.allocate 300000)]).map (fun s => ((servedBy s .Medium).length,
          bytesOf s.impl.tiers.segments.segments, ((servedBy s .Large).map fun e => e.reserved + 32).sum)) =
      some (2, 4194304, 303104) := by decide +kernel
  obtain ⟨s, hs, hf⟩ := Option.map_eq_some_iff.mp hfacts
  obtain ⟨h1, hf⟩ := Prod.mk.inj hf
  obtain ⟨h2, h3⟩ := Prod.mk.inj hf
  exact ⟨s, hs, h1, h2, h3, (footprint_of_run hs).1⟩

end MAlloc.Client
