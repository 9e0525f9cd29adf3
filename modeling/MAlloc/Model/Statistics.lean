/-
  `SegmentHeap::externalFragmentation` and `AllocatorImpl::statistics`.

  The two loops of `externalFragmentation` walk all bins in memory; the quotient is an exact rational
  here, a `double` in the source.
-/
import MAlloc.Model.AllocatorImpl
import MAlloc.Model.StatisticsCollector

namespace MAlloc

open Lib

namespace SegmentHeap

open MediumBlock

/-- The sizes in the order in which the loops read them. -/
def freeSizes (m : Mem) (h : SegmentHeap) : List Nat :=
  (List.range kBinCount).flatMap fun index =>
    ((binNodes m h.fuel (h.bins index)).map blockOfNode).map (size m)

/-- `totalFree` and `largestFree` after the loops. -/
def freeTotals (m : Mem) (h : SegmentHeap) : Nat × Nat :=
  (freeSizes m h).foldl (fun acc size => ((acc.1 + size) % 2 ^ 64, max acc.2 size)) (0, 0)

def externalFragmentation (m : Mem) (h : SegmentHeap) : ℚ :=
  let totals := freeTotals m h
  if totals.1 = 0 then 0 else 1 - (totals.2 : ℚ) / (totals.1 : ℚ)

end SegmentHeap

def AllocatorImpl.statistics (impl : AllocatorImpl) : StatisticsSnapshot :=
  impl.stats.snapshot (impl.tiers.segments.externalFragmentation impl.tiers.mem)

end MAlloc
