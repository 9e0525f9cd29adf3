/-
  What a snapshot shows.

  `snapshot` loads its eight fields one after the other, and the record calls update theirs in the same
  way. A load that falls between two updates of a call sees some of them. `Calm` is the condition under
  which it does not: no record call is part-way when the first field is loaded, and none updates a
  counter until the last one is. The counters take no lock, so nothing makes a run calm. In a calm one
  the fields loaded so far stay those of the counters (`Agrees`), and between calls the five totals of
  the ledger are the same sums (`ledger_eq`).
-/
import MAlloc.Stats.Atomic
import Mathlib.Algebra.Order.Field.Basic
import Mathlib.Data.Rat.Cast.Order

namespace MAlloc.Stats

open Lib

/-- Some of the five updates of a record call are made, and some are not. -/
def Pc.Partway : Pc → Prop
  | .recordAllocation op _ _ => 0 < op.rank ∧ op.rank < 5
  | .recordFree op _ _ => 0 < op.rank
  | _ => False

/-- The first field of a snapshot is loaded, and the last is not. -/
def Pc.Reading : Pc → Prop
  | .snapshot .allocationCount _ => False
  | .snapshot _ _ => True
  | _ => False

/-- The thread is about to update a counter of a record call. -/
def Pc.Updating : Pc → Prop
  | .recordAllocation op _ _ => op.rank < 5
  | .recordFree _ _ _ => True
  | _ => False

/-- The thread is about to load the first field of a snapshot. -/
def Pc.Opening : Pc → Prop
  | .snapshot .allocationCount _ => True
  | _ => False

/-- No snapshot begins while a record call is part-way, and no counter is updated while a snapshot is
    being read. -/
def StatsSys.Calm {n : Nat} (s : StatsSys n) : StatsEvent n → Prop
  | .atomic t _ =>
    ((s.pcs t).Opening → ∀ u, ¬ (s.pcs u).Partway) ∧ ((s.pcs t).Updating → ∀ u, ¬ (s.pcs u).Reading)
  | _ => True

/-- What is recorded as reserved is at least what was requested. -/
def StatsEvent.Backed {n : Nat} : StatsEvent n → Prop
  | .recordAllocation _ requested reserved => requested ≤ reserved
  | _ => True

section Decide

instance : DecidablePred Pc.Partway
  | .recordAllocation op _ _ => inferInstanceAs (Decidable (0 < op.rank ∧ op.rank < 5))
  | .recordFree op _ _ => inferInstanceAs (Decidable (0 < op.rank))
  | .idle => isFalse id
  | .snapshot _ _ => isFalse id

instance : DecidablePred Pc.Reading
  | .snapshot .allocationCount _ => isFalse id
  | .snapshot .freeCount _ => isTrue trivial
  | .snapshot .activeAllocations _ => isTrue trivial
  | .snapshot .currentUsage _ => isTrue trivial
  | .snapshot .peakUsage _ => isTrue trivial
  | .snapshot .allocatedBytes _ => isTrue trivial
  | .snapshot .freedBytes _ => isTrue trivial
  | .snapshot .reservedBytes _ => isTrue trivial
  | .idle => isFalse id
  | .recordAllocation _ _ _ => isFalse id
  | .recordFree _ _ _ => isFalse id

instance : DecidablePred Pc.Updating
  | .recordAllocation op _ _ => inferInstanceAs (Decidable (op.rank < 5))
  | .recordFree _ _ _ => isTrue trivial
  | .idle => isFalse id
  | .snapshot _ _ => isFalse id

instance : DecidablePred Pc.Opening
  | .snapshot .allocationCount _ => isTrue trivial
  | .snapshot .freeCount _ => isFalse id
  | .snapshot .activeAllocations _ => isFalse id
  | .snapshot .currentUsage _ => isFalse id
  | .snapshot .peakUsage _ => isFalse id
  | .snapshot .allocatedBytes _ => isFalse id
  | .snapshot .freedBytes _ => isFalse id
  | .snapshot .reservedBytes _ => isFalse id
  | .idle => isFalse id
  | .recordAllocation _ _ _ => isFalse id
  | .recordFree _ _ _ => isFalse id

instance {n : Nat} (s : StatsSys n) : DecidablePred s.Calm
  | .atomic t _ => inferInstanceAs (Decidable
      (((s.pcs t).Opening → ∀ u, ¬ (s.pcs u).Partway) ∧ ((s.pcs t).Updating → ∀ u, ¬ (s.pcs u).Reading)))
  | .recordAllocation _ _ _ => isTrue trivial
  | .recordFree _ _ _ => isTrue trivial
  | .snapshot _ _ => isTrue trivial

instance {n : Nat} : DecidablePred (@StatsEvent.Backed n)
  | .recordAllocation _ requested reserved => inferInstanceAs (Decidable (requested ≤ reserved))
  | .recordFree _ _ _ => isTrue trivial
  | .snapshot _ _ => isTrue trivial
  | .atomic _ _ => isTrue trivial

end Decide

/-- What a snapshot should show. -/
structure Consistent (r : StatisticsSnapshot) : Prop where
  active : r.allocationCount = (r.freeCount + r.activeAllocations) % 2 ^ 64
  usage : r.allocatedBytes = (r.freedBytes + r.currentUsage) % 2 ^ 64
  reserved : r.currentUsage ≤ r.reservedBytes
  fragmentation : 0 ≤ r.internalFragmentation ∧ r.internalFragmentation ≤ 1

theorem internalFragmentationOf_mem {reserved requested : Nat} (h : requested ≤ reserved) :
    0 ≤ internalFragmentationOf reserved requested ∧ internalFragmentationOf reserved requested ≤ 1 := by
  unfold internalFragmentationOf
  have hle : (requested : ℚ) ≤ reserved := Nat.cast_le.mpr h
  have hnn : (0 : ℚ) ≤ requested := Nat.cast_nonneg requested
  split
  · rename_i hpos
    have hpos' : (0 : ℚ) < reserved := Nat.cast_pos.mpr hpos
    exact ⟨div_nonneg (sub_nonneg.mpr hle) hpos'.le, (div_le_one hpos').mpr (sub_le_self _ hnn)⟩
  · exact ⟨le_refl _, zero_le_one⟩

/-! ## Between calls -/

def Pc.Backed : Pc → Prop
  | .recordAllocation _ requested reserved => requested ≤ reserved
  | .recordFree _ requested reserved => requested ≤ reserved
  | _ => True

/-- A call that is not part-way counts for all totals or for none. -/
theorem weight_eq {pc : Pc} (h : ¬ pc.Partway) {k j : Nat} (hk : k < 5) (hj : j < 5) (f : Nat → Nat → Nat) :
    weight k f pc = weight j f pc := by
  cases pc with
  | idle => rfl
  | snapshot load result => rfl
  | recordAllocation op r v =>
    unfold weight
    unfold Pc.Partway at h
    dsimp only at h ⊢
    split <;> split <;> first | rfl | omega
  | recordFree op r v =>
    unfold weight
    unfold Pc.Partway at h
    dsimp only at h ⊢
    rw [if_pos (by omega), if_pos (by omega)]

theorem weight_backed {pc : Pc} (h : pc.Backed) (k : Nat) :
    weight k (fun r _ => r) pc ≤ weight k (fun _ v => v) pc := by
  cases pc with
  | idle => exact Nat.le_refl _
  | snapshot load result => exact Nat.le_refl _
  | recordAllocation op r v =>
    unfold weight
    dsimp only
    split
    · exact h
    · exact Nat.le_refl _
  | recordFree op r v =>
    unfold weight
    dsimp only
    split
    · exact h
    · exact Nat.le_refl _

namespace StatsSys

variable {n : Nat} {s s' : StatsSys n}

structure Backed (s : StatsSys n) : Prop where
  recorded : ∀ p ∈ s.recorded, p.1 ≤ p.2
  threads : ∀ t, (s.pcs t).Backed

theorem ledger_eq (h : ∀ t, ¬ (s.pcs t).Partway) {k j : Nat} (hk : k < 5) (hj : j < 5)
    (f : Nat → Nat → Nat) : ledger s.recorded s.pcs k f = ledger s.recorded s.pcs j f := by
  have htally : tally (weight k f) s.pcs = tally (weight j f) s.pcs :=
    Finset.sum_congr rfl fun t _ => weight_eq (h t) hk hj f
  unfold ledger
  rw [htally]

theorem ledger_backed (h : s.Backed) (k : Nat) :
    ledger s.recorded s.pcs k (fun r _ => r) ≤ ledger s.recorded s.pcs k fun _ v => v := by
  have hlist : (s.recorded.map fun p => p.1).sum ≤ (s.recorded.map fun p => p.2).sum :=
    List.sum_le_sum h.recorded
  have htally : tally (weight k fun r _ => r) s.pcs ≤ tally (weight k fun _ v => v) s.pcs :=
    tally_le fun t => weight_backed (h.threads t) k
  exact Nat.add_le_add hlist htally

/-- The counters between calls. -/
theorem settled_of_balanced (hb : s.Balanced) (hback : s.Backed) (h : ∀ t, ¬ (s.pcs t).Partway) :
    s.stats.allocationCount = (s.stats.freeCount + s.stats.activeAllocations) % 2 ^ 64 ∧
      s.stats.allocatedBytes = (s.stats.freedBytes + s.stats.liveRequested) % 2 ^ 64 ∧
      s.stats.liveRequested ≤ s.stats.liveReserved := by
  have hcount := hb.count
  have hbytes := hb.bytes
  have hle := ledger_backed hback 3
  rw [ledger_eq h (j := 4) (by decide) (by decide), ← hb.active] at hcount
  rw [ledger_eq h (j := 2) (by decide) (by decide), ← hb.requested] at hbytes
  rw [ledger_eq h (j := 2) (by decide) (by decide), ← hb.requested, ← hb.reserved] at hle
  exact ⟨hcount, hbytes, hle⟩

end StatsSys

/-! ## While a snapshot is read -/

def Load.rank : Load → Nat
  | .allocationCount => 0
  | .freeCount => 1
  | .activeAllocations => 2
  | .currentUsage => 3
  | .peakUsage => 4
  | .allocatedBytes => 5
  | .freedBytes => 6
  | .reservedBytes => 7

/-- The fields loaded so far, the peak apart, are those of the counters. -/
def Agrees (c : StatisticsCollector) : Pc → Prop
  | .snapshot load r =>
    (0 < load.rank → r.allocationCount = c.allocationCount) ∧ (1 < load.rank → r.freeCount = c.freeCount) ∧
      (2 < load.rank → r.activeAllocations = c.activeAllocations) ∧
      (3 < load.rank → r.currentUsage = c.liveRequested) ∧
      (5 < load.rank → r.allocatedBytes = c.allocatedBytes) ∧ (6 < load.rank → r.freedBytes = c.freedBytes)
  | _ => True

theorem agrees_of_not_reading {pc : Pc} (h : ¬ pc.Reading) (c : StatisticsCollector) : Agrees c pc := by
  cases pc with
  | snapshot load r =>
    cases load with
    | allocationCount => exact ⟨nofun, nofun, nofun, nofun, nofun, nofun⟩
    | _ => exact absurd trivial h
  | _ => trivial

namespace StatsSys

variable {n : Nat} {s s' : StatsSys n} {t : Fin n} {y : Pc}

structure Reads (s : StatsSys n) : Prop where
  quiet : (∃ t, (s.pcs t).Reading) → ∀ u, ¬ (s.pcs u).Partway
  agrees : ∀ t, Agrees s.stats (s.pcs t)
  results : ∀ r ∈ s.results, Consistent r

/-- A counter is updated while no snapshot is being read. -/
theorem Reads.update (h : s.Reads) (hnone : ∀ u, ¬ (s.pcs u).Reading)
    (hpcs : s'.pcs = Function.update s.pcs t y) (hy : ¬ y.Reading) (hres : s'.results = s.results) :
    s'.Reads := by
  have hnone' : ∀ u, ¬ (s'.pcs u).Reading := by
    intro u
    rw [hpcs]
    by_cases hu : u = t
    · rw [hu, Function.update_self]
      exact hy
    · rw [Function.update_of_ne hu]
      exact hnone u
  refine ⟨?_, fun u => agrees_of_not_reading (hnone' u) _, by rw [hres]; exact h.results⟩
  rintro ⟨u, hu⟩
  exact absurd hu (hnone' u)

/-- A thread moves and the counters stay, the peak apart. -/
theorem Reads.move (h : s.Reads) (hpcs : s'.pcs = Function.update s.pcs t y)
    (hs : s'.stats = { s.stats with peakUsage := s'.stats.peakUsage }) (hy : Agrees s.stats y)
    (hpart : ¬ y.Partway) (hread : y.Reading → ∀ u, ¬ (s.pcs u).Partway)
    (hres : ∀ r ∈ s'.results, Consistent r) : s'.Reads := by
  have hsame : ∀ pc, Agrees s.stats pc → Agrees s'.stats pc := by
    intro pc hpc
    rw [hs]
    cases pc <;> exact hpc
  refine ⟨?_, fun u => ?_, hres⟩
  · rintro ⟨u, hu⟩
    have hall : ∀ u, ¬ (s.pcs u).Partway := by
      rw [hpcs] at hu
      by_cases hut : u = t
      · rw [hut, Function.update_self] at hu
        exact hread hu
      · rw [Function.update_of_ne hut] at hu
        exact h.quiet ⟨u, hu⟩
    intro w
    rw [hpcs]
    by_cases hwt : w = t
    · rw [hwt, Function.update_self]
      exact hpart
    · rw [Function.update_of_ne hwt]
      exact hall w
  · rw [hpcs]
    by_cases hut : u = t
    · rw [hut, Function.update_self]
      exact hsame y hy
    · rw [Function.update_of_ne hut]
      exact hsame _ (h.agrees u)

theorem loop_reads (h : s.Reads) (requested reserved current peak : Nat) :
    (s.loop t requested reserved current peak).Reads := by
  unfold loop
  split
  · exact h.move rfl rfl trivial (by simp [Pc.Partway, AllocationOp.rank]) nofun h.results
  · exact h.move rfl rfl trivial nofun nofun h.results

theorem allocationStep_reads (h : s.Reads) {op : AllocationOp} {requested reserved : Nat} {spurious : Bool}
    (hcalm : op.rank < 5 → ∀ u, ¬ (s.pcs u).Reading) :
    (s.allocationStep t requested reserved spurious op).Reads := by
  unfold allocationStep
  cases op with
  | loadLive => exact h.move rfl rfl trivial (by simp [Pc.Partway, AllocationOp.rank]) nofun h.results
  | loadPeak current => exact loop_reads h requested reserved current _
  | exchange current peak =>
    dsimp only
    split
    · exact h.move rfl rfl trivial nofun nofun h.results
    · exact loop_reads h requested reserved current _
  | _ => exact h.update (hcalm (by decide)) rfl nofun rfl

theorem freeStep_reads (h : s.Reads) {op : FreeOp} {requested reserved : Nat}
    (hcalm : ∀ u, ¬ (s.pcs u).Reading) : (s.freeStep t requested reserved op).Reads := by
  have hnext : ¬ (op.next requested reserved).Reading := by
    cases op <;> exact id
  exact h.update hcalm rfl hnext rfl

/-- **A load.** The fields before it still agree, since the first one was loaded between calls. -/
theorem loadStep_reads (h : s.Reads) (hb : s.Balanced) (hback : s.Backed) {load : Load}
    {result : StatisticsSnapshot} (hpc : s.pcs t = .snapshot load result)
    (hcalm : load = .allocationCount → ∀ u, ¬ (s.pcs u).Partway) : (s.loadStep t result load).Reads := by
  have hag := h.agrees t
  rw [hpc] at hag
  obtain ⟨h0, h1, h2, h3, h5, h6⟩ := hag
  have hquiet : ∀ u, ¬ (s.pcs u).Partway := by
    by_cases hload : load = .allocationCount
    · exact hcalm hload
    · refine h.quiet ⟨t, ?_⟩
      rw [hpc]
      cases load with
      | allocationCount => exact absurd rfl hload
      | _ => trivial
  unfold loadStep
  cases load with
  | allocationCount =>
    exact h.move rfl rfl ⟨fun _ => rfl, nofun, nofun, nofun, nofun, nofun⟩ nofun (fun _ => hquiet) h.results
  | freeCount =>
    exact h.move rfl rfl ⟨fun _ => h0 (by decide), fun _ => rfl, nofun, nofun, nofun, nofun⟩ nofun
      (fun _ => hquiet) h.results
  | activeAllocations =>
    exact h.move rfl rfl ⟨fun _ => h0 (by decide), fun _ => h1 (by decide), fun _ => rfl, nofun, nofun, nofun⟩
      nofun (fun _ => hquiet) h.results
  | currentUsage =>
    exact h.move rfl rfl ⟨fun _ => h0 (by decide), fun _ => h1 (by decide), fun _ => h2 (by decide),
      fun _ => rfl, nofun, nofun⟩ nofun (fun _ => hquiet) h.results
  | peakUsage =>
    exact h.move rfl rfl ⟨fun _ => h0 (by decide), fun _ => h1 (by decide), fun _ => h2 (by decide),
      fun _ => h3 (by decide), nofun, nofun⟩ nofun (fun _ => hquiet) h.results
  | allocatedBytes =>
    exact h.move rfl rfl ⟨fun _ => h0 (by decide), fun _ => h1 (by decide), fun _ => h2 (by decide),
      fun _ => h3 (by decide), fun _ => rfl, nofun⟩ nofun (fun _ => hquiet) h.results
  | freedBytes =>
    exact h.move rfl rfl ⟨fun _ => h0 (by decide), fun _ => h1 (by decide), fun _ => h2 (by decide),
      fun _ => h3 (by decide), fun _ => h5 (by decide), fun _ => rfl⟩ nofun (fun _ => hquiet) h.results
  | reservedBytes =>
    refine h.move rfl rfl trivial nofun nofun fun r hr => ?_
    rcases List.mem_cons.mp hr with rfl | hr
    · obtain ⟨hcount, hbytes, hle⟩ := settled_of_balanced hb hback hquiet
      rw [← h0 (by decide), ← h1 (by decide), ← h2 (by decide)] at hcount
      rw [← h5 (by decide), ← h6 (by decide), ← h3 (by decide)] at hbytes
      rw [← h3 (by decide)] at hle
      exact ⟨hcount, hbytes, hle, internalFragmentationOf_mem hle⟩
    · exact h.results r hr

end StatsSys

namespace StatsSys

variable {n : Nat} {s s' : StatsSys n} {t : Fin n} {y : Pc}

/-- One thread moves, and what is recorded grows at most by what it held. -/
theorem Backed.move (h : s.Backed) (hpcs : s'.pcs = Function.update s.pcs t y) (hy : y.Backed)
    (hrec : ∀ p ∈ s'.recorded, p ∈ s.recorded ∨ p.1 ≤ p.2) : s'.Backed := by
  refine ⟨fun p hp => ?_, fun u => ?_⟩
  · rcases hrec p hp with hp | hp
    · exact h.recorded p hp
    · exact hp
  · rw [hpcs]
    by_cases hu : u = t
    · rw [hu, Function.update_self]
      exact hy
    · rw [Function.update_of_ne hu]
      exact h.threads u

theorem allocationStep_backed (h : s.Backed) {op : AllocationOp} {requested reserved : Nat} {spurious : Bool}
    (hle : requested ≤ reserved) : (s.allocationStep t requested reserved spurious op).Backed := by
  have hcons : ∀ p ∈ (requested, reserved) :: s.recorded, p ∈ s.recorded ∨ p.1 ≤ p.2 := by
    intro p hp
    rcases List.mem_cons.mp hp with rfl | hp
    · exact Or.inr hle
    · exact Or.inl hp
  have hloop : ∀ current peak, (s.loop t requested reserved current peak).Backed := by
    intro current peak
    unfold loop
    split
    · exact h.move rfl hle fun _ hp => Or.inl hp
    · exact h.move rfl trivial hcons
  unfold allocationStep
  cases op with
  | loadPeak current => exact hloop _ _
  | exchange current peak =>
    dsimp only
    split
    · exact h.move rfl trivial hcons
    · exact hloop _ _
  | _ => exact h.move rfl hle fun _ hp => Or.inl hp

/-- The invariant of calm runs. -/
structure Steady (s : StatsSys n) : Prop where
  balanced : s.Balanced
  backed : s.Backed
  reads : s.Reads

theorem step_steady (h : s.Steady) {e : StatsEvent n} (hback : e.Backed) (hcalm : s.Calm e)
    (hbound : s.Bounded e) (hs : s.step e = some s') : s'.Steady := by
  have hbal := step_balanced h.balanced hbound hs
  suffices s'.Backed ∧ s'.Reads from ⟨hbal, this.1, this.2⟩
  cases e with
  | recordAllocation t r v =>
    unfold step at hs
    dsimp only at hs
    split at hs
    · cases hs
      exact ⟨h.backed.move rfl hback fun _ hp => Or.inl hp,
        h.reads.move rfl rfl trivial (by simp [Pc.Partway, AllocationOp.rank]) nofun h.reads.results⟩
    · cases hs
  | recordFree t r v =>
    unfold step at hs
    dsimp only at hs
    split at hs
    · split at hs
      · rename_i hmem
        cases hs
        exact ⟨h.backed.move rfl (h.backed.recorded _ hmem) fun _ hp => Or.inl (List.mem_of_mem_erase hp),
          h.reads.move rfl rfl trivial (by simp [Pc.Partway, FreeOp.rank]) nofun h.reads.results⟩
      · cases hs
    · cases hs
  | snapshot t x =>
    unfold step at hs
    dsimp only at hs
    split at hs
    · cases hs
      exact ⟨h.backed.move rfl trivial fun _ hp => Or.inl hp,
        h.reads.move rfl rfl (agrees_of_not_reading id _) nofun (fun hr => absurd hr id)
          h.reads.results⟩
    · cases hs
  | atomic t spurious =>
    obtain ⟨hfirst, hupdate⟩ := hcalm
    have hth := h.backed.threads t
    unfold step atomic at hs
    dsimp only at hs
    split at hs
    · cases hs
    · rename_i op r v hpc
      rw [hpc] at hupdate hth
      cases hs
      exact ⟨allocationStep_backed h.backed hth, allocationStep_reads h.reads hupdate⟩
    · rename_i op r v hpc
      rw [hpc] at hupdate hth
      cases hs
      have hnext : (op.next r v).Backed := by
        cases op with
        | activeAllocations => trivial
        | _ => exact hth
      exact ⟨h.backed.move rfl hnext fun _ hp => Or.inl hp, freeStep_reads h.reads (hupdate trivial)⟩
    · rename_i load result hpc
      cases hs
      refine ⟨?_, loadStep_reads h.reads h.balanced h.backed hpc fun hl => hfirst (by rw [hpc, hl]; trivial)⟩
      unfold loadStep
      cases load <;> exact h.backed.move rfl trivial fun _ hp => Or.inl hp

end StatsSys

/-- **Snapshots of calm runs are consistent**, while the live totals stay below `2^64`. -/
theorem snapshot_of_run {n : Nat} {events : List (StatsEvent n)} {s : StatsSys n}
    (hsteps : Along StatsSys.step (fun s e => e.Backed ∧ s.Calm e ∧ s.Bounded e) ({} : StatsSys n) events)
    (hrun : runFrom StatsSys.step ({} : StatsSys n) events = some s) : ∀ r ∈ s.results, Consistent r := by
  have hnone : runFrom StatsSys.step ({} : StatsSys n) [] = some {} := rfl
  have hnil : Along StatsSys.step StatsSys.Bounded ({} : StatsSys n) [] := trivial
  have hrests := StatsSys.reached_of_run hnil hnone
  have hstart : ({} : StatsSys n).Steady := by
    refine ⟨hrests.1, ⟨nofun, fun _ => trivial⟩, ?_, fun _ => trivial, nofun⟩
    rintro ⟨t, ht⟩
    exact absurd ht id
  have hinv := run_along (P := fun s => s.Steady) (fun s e s' hc h hs => s.step_steady h hc.1 hc.2.1 hc.2.2 hs)
    hsteps hstart hrun
  exact hinv.reads.results

/-- One thread records an allocation, another reads, and the first one frees while the reader waits
    before its first load. -/
theorem snapshot_of_run_two : ∃ s, runFrom StatsSys.step ({} : StatsSys 2)
      ([.recordAllocation 0 100 112] ++ List.replicate 8 (.atomic 0 false) ++
        [.recordFree 0 100 112, .snapshot 1 0] ++ List.replicate 8 (.atomic 1 false)) = some s ∧
    (∀ r ∈ s.results, Consistent r) ∧ s.results.map StatisticsSnapshot.currentUsage = [100] := by
  have hrun : (runFrom StatsSys.step ({} : StatsSys 2)
      ([.recordAllocation 0 100 112] ++ List.replicate 8 (.atomic 0 false) ++
        [.recordFree 0 100 112, .snapshot 1 0] ++ List.replicate 8 (.atomic 1 false))).map
        (fun s => s.results.map StatisticsSnapshot.currentUsage) = some [100] := by
    decide +kernel
  obtain ⟨s, hs, hv⟩ := Option.map_eq_some_iff.mp hrun
  exact ⟨s, hs, snapshot_of_run (by decide +kernel) hs, hv⟩

/-- A snapshot taken after the first update of `recordAllocation`: one allocation, none of them active. -/
theorem snapshot_part_way : ∃ s, runFrom StatsSys.step ({} : StatsSys 2)
      ([.recordAllocation 0 100 112, .atomic 0 false, .snapshot 1 0] ++ List.replicate 8 (.atomic 1 false)) =
        some s ∧ ∃ r ∈ s.results, ¬ Consistent r := by
  have hrun : (runFrom StatsSys.step ({} : StatsSys 2)
      ([.recordAllocation 0 100 112, .atomic 0 false, .snapshot 1 0] ++ List.replicate 8 (.atomic 1 false))).map
        (fun s => s.results.map fun r => (r.allocationCount, r.freeCount, r.activeAllocations)) =
        some [(1, 0, 0)] := by
    decide +kernel
  obtain ⟨s, hs, hv⟩ := Option.map_eq_some_iff.mp hrun
  obtain ⟨r, hr, hfields⟩ : ∃ r ∈ s.results, (r.allocationCount, r.freeCount, r.activeAllocations) = (1, 0, 0) := by
    refine List.mem_map.mp ?_
    rw [hv]
    exact List.mem_singleton_self _
  obtain ⟨h1, hfields⟩ := Prod.mk.inj hfields
  obtain ⟨h2, h3⟩ := Prod.mk.inj hfields
  refine ⟨s, hs, r, hr, fun hc => ?_⟩
  have := hc.active
  rw [h1, h2, h3] at this
  cases this

end MAlloc.Stats
