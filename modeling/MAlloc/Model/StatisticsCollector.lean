/-
  `StatisticsCollector.hpp`: eight counters of 64 bits.

  `recordAllocation` and `recordFree` here are whole calls; `Stats.Atomic` takes them apart into
  their atomic operations. The fragmentation ratios of a snapshot are exact rationals.
-/
import Mathlib.Data.Rat.Defs
import Mathlib.Algebra.Order.Ring.Rat

namespace MAlloc

/-- `fetch_add` on a 64-bit counter. -/
def fetchAdd (x v : Nat) : Nat := (x + v) % 2 ^ 64

/-- `fetch_sub` on a 64-bit counter. -/
def fetchSub (x v : Nat) : Nat := (x + (2 ^ 64 - v % 2 ^ 64)) % 2 ^ 64

structure StatisticsCollector where
  allocationCount : Nat := 0
  freeCount : Nat := 0
  activeAllocations : Nat := 0
  liveRequested : Nat := 0
  liveReserved : Nat := 0
  peakUsage : Nat := 0
  allocatedBytes : Nat := 0
  freedBytes : Nat := 0
  deriving DecidableEq, Repr

structure StatisticsSnapshot where
  allocationCount : Nat
  freeCount : Nat
  activeAllocations : Nat
  currentUsage : Nat
  peakUsage : Nat
  allocatedBytes : Nat
  freedBytes : Nat
  reservedBytes : Nat
  internalFragmentation : ℚ
  externalFragmentation : ℚ

/-- `reserved > 0.0 ? (reserved - requested) / reserved : 0.0`. -/
def internalFragmentationOf (reserved requested : Nat) : ℚ :=
  if 0 < reserved then ((reserved : ℚ) - requested) / reserved else 0

namespace StatisticsCollector

/-- `updatePeak`; a spurious failure of the exchange only goes round the loop again. -/
def updatePeak (s : StatisticsCollector) (current : Nat) : StatisticsCollector :=
  if current > s.peakUsage then { s with peakUsage := current } else s

def recordAllocation (s : StatisticsCollector) (requested reserved : Nat) : StatisticsCollector :=
  let s := { s with allocationCount := fetchAdd s.allocationCount 1 }
  let s := { s with allocatedBytes := fetchAdd s.allocatedBytes requested }
  let s := { s with liveRequested := fetchAdd s.liveRequested requested }
  let s := { s with liveReserved := fetchAdd s.liveReserved reserved }
  let s := { s with activeAllocations := fetchAdd s.activeAllocations 1 }
  s.updatePeak s.liveRequested

def recordFree (s : StatisticsCollector) (requested reserved : Nat) : StatisticsCollector :=
  let s := { s with freeCount := fetchAdd s.freeCount 1 }
  let s := { s with freedBytes := fetchAdd s.freedBytes requested }
  let s := { s with liveRequested := fetchSub s.liveRequested requested }
  let s := { s with liveReserved := fetchSub s.liveReserved reserved }
  { s with activeAllocations := fetchSub s.activeAllocations 1 }

def snapshot (s : StatisticsCollector) (externalFragmentation : ℚ) : StatisticsSnapshot where
  allocationCount := s.allocationCount
  freeCount := s.freeCount
  activeAllocations := s.activeAllocations
  currentUsage := s.liveRequested
  peakUsage := s.peakUsage
  allocatedBytes := s.allocatedBytes
  freedBytes := s.freedBytes
  reservedBytes := s.liveReserved
  internalFragmentation := internalFragmentationOf s.liveReserved s.liveRequested
  externalFragmentation := externalFragmentation

end StatisticsCollector

end MAlloc
