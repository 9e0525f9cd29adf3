/-
  What `externalFragmentation` computes.

  The walk over the bins reads the size of each free block of the segments once (`freeSizes_perm`), and
  the sum does not wrap. So the totals are those of the free rows of the block table, and the value
  is the share of the free bytes outside the largest free block.
-/
import MAlloc.Heap.Exact
import MAlloc.Lib.Share
import MAlloc.Model.Statistics

namespace MAlloc.Heap

open Lib MediumBlock SegmentHeap

/-- The sizes of the free blocks a walk over the segments finds. -/
def freeRows (m : Mem) (h : SegmentHeap) : List Nat :=
  ((blockTable m h).filter Row.free).map Row.size

section Fragmentation
variable {w : World} {h : SegmentHeap} {segs : List Seg} {others : List Span}

theorem HeapOk.freeRows_eq (hok : HeapOk w h segs others) :
    freeRows w.mem h = ((placed segs).filter fun p => p.flags.free).map PBlk.size := by
  unfold freeRows
  rw [hok.blockTable_eq, rows_eq, List.filter_map, List.map_map]
  rfl

/-- **The bins hold each free block once.** -/
theorem HeapOk.freeSizes_perm (hok : HeapOk w h segs others) :
    (freeSizes w.mem h).Perm (freeRows w.mem h) := by
  obtain ⟨lists, hr⟩ := hok.rep
  have hread : freeSizes w.mem h =
      ((List.range 18).flatMap lists).map fun n => size w.mem (blockOfNode n) := by
    unfold freeSizes
    rw [List.map_flatMap]
    refine List.flatMap_congr fun i _ => ?_
    rw [hr.binNodes_eq hok.spans, List.map_map]
    rfl
  have hsize : ∀ p ∈ (placed segs).filter fun p => p.flags.free,
      size w.mem (blockOfNode p.node) = p.size := by
    intro p hp
    have hpl := List.mem_of_mem_filter hp
    have hpok := hr.layout.placed_ok hpl
    rw [blockOfNode_node (by omega), (hr.tags p hpl).size]
  rw [hread, hok.freeRows_eq]
  refine (hr.bins_perm.map _).trans (List.Perm.of_eq ?_)
  rw [List.map_map]
  exact List.map_congr_left hsize

/-- All free blocks together fit in the address space. -/
theorem HeapOk.freeRows_sum_lt (hok : HeapOk w h segs others) : (freeRows w.mem h).sum < 2 ^ 64 := by
  obtain ⟨lists, hr⟩ := hok.rep
  have hle := Span.sum_size_le (l := ((placed segs).filter fun p => p.flags.free).map PBlk.span)
    (N := 2 ^ 64 - 1) (List.pairwise_map.mpr (hr.layout.pairwise.filter _)) fun u hu => by
      obtain ⟨p, hp, rfl⟩ := List.mem_map.mp hu
      have hpok := hr.layout.placed_ok (List.mem_of_mem_filter hp)
      unfold PBlk.span
      simp only
      omega
  rw [hok.freeRows_eq]
  rw [List.map_map] at hle
  change (((placed segs).filter fun p => p.flags.free).map PBlk.size).sum ≤ _ at hle
  omega

theorem HeapOk.freeRows_pos (hok : HeapOk w h segs others) : ∀ a ∈ freeRows w.mem h, 0 < a := by
  obtain ⟨lists, hr⟩ := hok.rep
  rw [hok.freeRows_eq]
  intro a ha
  obtain ⟨p, hp, rfl⟩ := List.mem_map.mp ha
  have hpok := hr.layout.placed_ok (List.mem_of_mem_filter hp)
  omega

/-- **The totals of the loops.** -/
theorem HeapOk.freeTotals_eq (hok : HeapOk w h segs others) :
    freeTotals w.mem h = ((freeRows w.mem h).sum, largest (freeRows w.mem h)) := by
  have hperm := hok.freeSizes_perm
  have hfold := foldl_totals (freeSizes w.mem h) 0 0
  rw [Nat.zero_mod, Nat.zero_add, Nat.zero_max, hperm.sum_eq, largest_perm hperm,
    Nat.mod_eq_of_lt hok.freeRows_sum_lt] at hfold
  exact hfold

theorem HeapOk.externalFragmentation_eq (hok : HeapOk w h segs others) :
    externalFragmentation w.mem h = scattered (freeRows w.mem h) := by
  unfold externalFragmentation
  rw [hok.freeTotals_eq]
  rfl

end Fragmentation

end MAlloc.Heap
