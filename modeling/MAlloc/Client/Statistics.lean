/-
  What a caller of `statistics` sees.

  The counters agree with the ledger (`Client.Books`); the fragmentation ratios are read from
  them and from the bins of the medium tier.
-/
import MAlloc.Client.Books
import MAlloc.Heap.Fragmentation

namespace MAlloc.Client

open Lib Heap

/-- The snapshot of a state. `scattered` is the share of the free bytes of the medium tier that are not in
    its largest free block. -/
structure Reported (s : ClientSys) (snap : StatisticsSnapshot) : Prop where
  balanced : Balanced snap s.ledger s.history
  internal : snap.internalFragmentation * reserves s.ledger = reserves s.ledger - sizes s.ledger
  internal_range : 0 ≤ snap.internalFragmentation ∧ snap.internalFragmentation ≤ 1
  external : snap.externalFragmentation = scattered (freeRows s.mem s.impl.tiers.segments)
  external_range : 0 ≤ snap.externalFragmentation ∧ snap.externalFragmentation < 1
  whole : snap.externalFragmentation = 0 ↔ (freeRows s.mem s.impl.tiers.segments).length ≤ 1
  parts : freeRows s.mem s.impl.tiers.segments ≠ [] →
    snap.externalFragmentation ≤ 1 - 1 / ((freeRows s.mem s.impl.tiers.segments).length : ℚ)

theorem internalFragmentationOf_spec {reserved requested : Nat} (hle : requested ≤ reserved) :
    internalFragmentationOf reserved requested * reserved = (reserved : ℚ) - requested ∧
      0 ≤ internalFragmentationOf reserved requested ∧ internalFragmentationOf reserved requested ≤ 1 := by
  have hle' : (requested : ℚ) ≤ (reserved : ℚ) := by exact_mod_cast hle
  have hreq : (0 : ℚ) ≤ (requested : ℚ) := Nat.cast_nonneg _
  unfold internalFragmentationOf
  split
  case isTrue h =>
    have hpos : (0 : ℚ) < (reserved : ℚ) := by exact_mod_cast h
    refine ⟨div_mul_cancel₀ _ (ne_of_gt hpos), div_nonneg (by linarith) (le_of_lt hpos), ?_⟩
    rw [div_le_one hpos]
    linarith
  case isFalse h =>
    obtain rfl : reserved = 0 := by omega
    obtain rfl : requested = 0 := by omega
    exact ⟨by norm_num, le_refl _, zero_le_one⟩

theorem Good.reported {s : ClientSys} {live : List Alloc} (h : Good s live) : Reported s s.impl.statistics := by
  obtain ⟨parts, segs, hr⟩ := h.memory.raw.tiers
  have hext : s.impl.statistics.externalFragmentation = scattered (freeRows s.mem s.impl.tiers.segments) :=
    hr.heap.externalFragmentation_eq
  have hbal := h.balanced (s.impl.tiers.segments.externalFragmentation s.impl.tiers.mem)
  have hres : s.impl.stats.liveReserved = reserves s.ledger := hbal.reserved
  have hreq : s.impl.stats.liveRequested = sizes s.ledger := hbal.usage
  have hle : sizes s.ledger ≤ reserves s.ledger := by
    rw [← hres, ← hreq]
    exact hbal.enough
  have hint : s.impl.statistics.internalFragmentation =
      internalFragmentationOf (reserves s.ledger) (sizes s.ledger) := by
    rw [← hres, ← hreq]
    rfl
  obtain ⟨hvalue, hrange⟩ := internalFragmentationOf_spec hle
  refine ⟨hbal, ?_, ?_, hext, ?_, ?_, fun hne => ?_⟩
  · rw [hint]
    exact hvalue
  · rw [hint]
    exact hrange
  · rw [hext]
    exact ⟨scattered_nonneg _, scattered_lt_one _⟩
  · rw [hext]
    exact scattered_eq_zero_iff hr.heap.freeRows_pos
  · rw [hext]
    exact scattered_le hne

/-- **Statistics in every reachable state.** The counters are those of the ledger; the internal fragmentation
    is the share of the reserved bytes nobody asked for; the external fragmentation, read off the
    bins, is the share of the medium tier's free bytes outside the largest free block that a walk over the
    segments finds: below 1, and 0 exactly when there are not two free blocks. -/
theorem statistics_of_run {cfg : AllocatorConfig} {m : Mem} {page : PageSize}
    {answers : List (Option Nat)} {faults : List Bool} {calls : List ClientCall} {s : ClientSys}
    (hrun : runFrom ClientSys.step (ClientSys.start cfg (World.boot m page answers) faults) calls = some s) :
    Reported s s.impl.statistics := by
  obtain ⟨live, h⟩ := good_of_run hrun
  exact h.reported

/-- Three blocks of the medium tier are cut from a segment, and the middle one goes back. -/
theorem statistics_of_run_hole :
    ∃ s, runFrom ClientSys.step (ClientSys.start {} smallWorld [])
        [.request 0 (.allocate 40000), .request 0 (.allocate 5000), .request 0 (.allocate 40000),
          .deallocate 0 (65536 + 16 + 40016 + 32)] = some s ∧
      Reported s s.impl.statistics ∧ s.impl.statistics.externalFragmentation ≠ 0 := by
  have hrun : (runFrom ClientSys.step (ClientSys.start {} smallWorld [])
      [.request 0 (.allocate 40000), .request 0 (.allocate 5000), .request 0 (.allocate 40000),
        .deallocate 0 (65536 + 16 + 40016 + 32)]).map
      (fun s => (freeRows s.mem s.impl.tiers.segments).length) = some 2 := by decide +kernel
  obtain ⟨s, hs, hlen⟩ := Option.map_eq_some_iff.mp hrun
  have hr := statistics_of_run hs
  refine ⟨s, hs, hr, fun h0 => ?_⟩
  have hle := hr.whole.mp h0
  omega

end MAlloc.Client
