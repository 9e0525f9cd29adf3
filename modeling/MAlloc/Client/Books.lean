/-
  The registry and the counters over whole runs.

  With leak tracking `deallocate` tells live pointers, pointers that were freed and pointers that
  were never returned apart, whatever stands in memory (`validation_of_run`). The counters are the
  sums over the ledger, and the peak is the highest usage there was (`balanced_of_run`).
-/
import MAlloc.Client.System

namespace MAlloc.Client

open Lib AllocatorImpl DebugLayer

/-! ## Validation -/

/-- The answer to a pointer is an error that changes nothing but the reports, and memory does not
    matter for it. -/
def Harmless {α : Type} (i : AllocatorImpl) (call : AllocatorImpl → Except Error α × AllocatorImpl)
    (e : Error) (p : Nat) : Prop :=
  ∀ m, call { i with tiers := i.tiers.setMem m } =
    (.error e, { i with tiers := i.tiers.setMem m, reports := i.reports ++ [(e, p)] })

/-- What `deallocate` and `reallocate` answer to a pointer that is not null. -/
structure Validated (s : ClientSys) : Prop where
  success : ∀ t p, p ≠ 0 → ((s.impl.deallocate t p).1 = .ok () ↔ p ∈ s.pointers)
  doubleFree : ∀ t p, p ≠ 0 → ((s.impl.deallocate t p).1 = .error .DoubleFree ↔
    p ∈ s.returned ∧ p ∉ s.pointers)
  invalid : ∀ t p, p ≠ 0 → ((s.impl.deallocate t p).1 = .error .InvalidPointer ↔ p ∉ s.returned)
  harmless : ∀ t p e, p ≠ 0 → (s.impl.deallocate t p).1 = .error e →
    Harmless s.impl (fun i => i.deallocate t p) e p
  reallocate : ∀ t p n, p ≠ 0 → p ∉ s.pointers → 0 < n →
    Harmless s.impl (fun i => i.reallocate t p n) .InvalidPointer p
  count : s.impl.liveAllocationCount = s.ledger.length

section Validation
variable {s : ClientSys} {live : List Alloc}

theorem wasFreed_iff {d : DebugLayer} {p : Nat} : d.wasFreed p = true ↔ p ∈ d.freed := by
  unfold DebugLayer.wasFreed
  simp

/-- The answer to a pointer that is not live. -/
theorem Good.deallocate_harmless (h : Good s live) (ht : s.impl.config.enableLeakTracking = true)
    (hr : Running s.impl) (t : Nat) {p : Nat} (h0 : p ≠ 0) (hp : p ∉ s.pointers) :
    Harmless s.impl (fun i => i.deallocate t p)
      (if s.impl.debug.wasFreed p then .DoubleFree else .InvalidPointer) p := by
  intro m
  unfold AllocatorImpl.deallocate
  dsimp only
  rw [if_neg h0, ht, h.not_tracked ht hp, Bool.not_false, Bool.and_true, if_pos rfl]
  unfold AllocatorImpl.fail AllocatorImpl.report
  dsimp only
  rw [hr.1, hr.2]
  rfl

theorem Good.reallocate_harmless (h : Good s live) (ht : s.impl.config.enableLeakTracking = true)
    (hr : Running s.impl) (t : Nat) {p n : Nat} (h0 : p ≠ 0) (hp : p ∉ s.pointers) (hn : 0 < n) :
    Harmless s.impl (fun i => i.reallocate t p n) .InvalidPointer p := by
  intro m
  unfold AllocatorImpl.reallocate AllocatorImpl.allocationSize
  dsimp only
  rw [if_neg h0, if_neg (by omega), if_neg h0, ht, h.not_tracked ht hp, Bool.not_false, Bool.and_true,
    if_pos rfl, if_pos rfl]
  unfold AllocatorImpl.fail AllocatorImpl.report
  dsimp only
  rw [hr.1, hr.2]
  rfl

/-- What `deallocate` answers, as a function of the ledger. -/
def answer (s : ClientSys) (p : Nat) : Except Error Unit :=
  if p ∈ s.pointers then .ok ()
  else if p ∈ s.returned then .error .DoubleFree
  else .error .InvalidPointer

theorem Good.deallocate_answer (h : Good s live) (ht : s.impl.config.enableLeakTracking = true) (t : Nat)
    {p : Nat} (h0 : p ≠ 0) : (s.impl.deallocate t p).1 = answer s p := by
  unfold answer
  by_cases hp : p ∈ s.pointers
  · obtain ⟨a, ha, rfl⟩ := h.alloc_of_ptr hp
    obtain ⟨T', he, -⟩ := deallocate_spec h.memory ha (h.passes ha) (h.guards a ha) t
    rw [he, if_pos hp]
  · have hf : s.impl.debug.wasFreed p = true ↔ p ∈ s.returned := by
      rw [wasFreed_iff, (h.registry ht).freed p]
      exact ⟨fun hq => hq.1, fun hq => ⟨hq, hp⟩⟩
    rw [deallocate_rejected h.toSound ht t h0 hp, if_neg hp]
    unfold AllocatorImpl.fail
    by_cases hq : p ∈ s.returned
    · rw [if_pos hq, hf.mpr hq, if_pos rfl]
    · rw [if_neg hq, if_neg fun hw => hq (hf.mp hw)]

theorem Good.validated (h : Good s live) (ht : s.impl.config.enableLeakTracking = true)
    (hr : Running s.impl) : Validated s := by
  have hret : ∀ p ∈ s.pointers, p ∈ s.returned := fun p hp => by
    obtain ⟨e, he, rfl⟩ := List.mem_map.mp hp
    exact h.returned e he
  refine ⟨fun t p h0 => ?_, fun t p h0 => ?_, fun t p h0 => ?_, fun t p e h0 he => ?_,
    fun t p n h0 hp hn => h.reallocate_harmless ht hr t h0 hp hn, ?_⟩
  · rw [h.deallocate_answer ht t h0]
    unfold answer
    split
    · simpa
    · split <;> simpa
  · rw [h.deallocate_answer ht t h0]
    unfold answer
    split
    · simp [*]
    · split <;> simp [*]
  · rw [h.deallocate_answer ht t h0]
    unfold answer
    split
    · rename_i hp
      simp [hret p hp]
    · split <;> simp [*]
  · have hp : p ∉ s.pointers := fun hp => by
      rw [h.deallocate_answer ht t h0, answer, if_pos hp] at he
      cases he
    have hh := h.deallocate_harmless ht hr t h0 hp
    have := congrArg Prod.fst (hh s.impl.tiers.mem)
    dsimp only at this
    rw [show s.impl.tiers.setMem s.impl.tiers.mem = s.impl.tiers from rfl] at this
    rw [show { s.impl with tiers := s.impl.tiers } = s.impl from rfl, he] at this
    cases this
    exact hh
  · change s.impl.debug.live.length = _
    rw [(h.registry ht).live.length_eq, List.length_map]

end Validation

/-- **Frees are validated exactly**, after every run with leak tracking and without abort. -/
theorem validation_of_run {cfg : AllocatorConfig} {m : Mem} {page : PageSize}
    {answers : List (Option Nat)} {faults : List Bool} {calls : List ClientCall} {s : ClientSys}
    (ht : cfg.enableLeakTracking = true) (hab : cfg.abortOnError = false)
    (hrun : runFrom ClientSys.step (ClientSys.start cfg (World.boot m page answers) faults) calls = some s) :
    Validated s := by
  obtain ⟨live, h⟩ := good_of_run hrun
  exact h.validated (by rw [config_of_run hrun, ht]) (running_of_run hab hrun)

/-- A block freed by another thread and freed again, a wild pointer, and a handler that goes on. -/
theorem validation_of_run_mixed : ∃ s,
    runFrom ClientSys.step (ClientSys.start { enableLeakTracking := true } roomyWorld [])
      [.request 0 (.allocate 100), .request 1 (.allocate 5000), .request 0 (.alignedAllocate 64 7000),
        .deallocate 1 1050512, .deallocate 0 1050512, .deallocate 0 4096, .request 0 (.allocate 80)] = some s ∧
    Validated s ∧ (s.impl.deallocate 1 16782336).1 = .ok () ∧
    (s.impl.deallocate 0 1050512).1 = .error .DoubleFree ∧
    (s.impl.deallocate 0 4096).1 = .error .InvalidPointer ∧ s.impl.liveAllocationCount = 3 := by
  have hrun : (runFrom ClientSys.step (ClientSys.start { enableLeakTracking := true } roomyWorld [])
      [.request 0 (.allocate 100), .request 1 (.allocate 5000), .request 0 (.alignedAllocate 64 7000),
        .deallocate 1 1050512, .deallocate 0 1050512, .deallocate 0 4096, .request 0 (.allocate 80)]).map
      (fun s => (s.pointers, s.returned)) =
      some ([33555888, 16782336, 16777248], [33555888, 16782336, 16777248, 1050512]) := by
    decide +kernel
  obtain ⟨s, hs, hv⟩ := Option.map_eq_some_iff.mp hrun
  obtain ⟨hptrs, hret⟩ := Prod.mk.inj hv
  have h := validation_of_run rfl rfl hs
  have hlen : s.ledger.length = s.pointers.length := List.length_map _ |>.symm
  refine ⟨s, hs, h, (h.success 1 _ (by decide)).mpr ?_, (h.doubleFree 0 _ (by decide)).mpr ?_,
    (h.invalid 0 _ (by decide)).mpr ?_, ?_⟩
  · rw [hptrs]
    decide
  · rw [hptrs, hret]
    decide
  · rw [hret]
    decide
  · rw [h.count, hlen, hptrs]
    rfl

/-! ## The counters -/

/-- A snapshot agrees with the ledger and the history of the usage; differences are modulo `2^64`. -/
structure Balanced (snap : StatisticsSnapshot) (ledger : List Entry) (history : List Nat) : Prop where
  active : snap.activeAllocations = ledger.length
  counts : snap.activeAllocations = fetchSub snap.allocationCount snap.freeCount
  usage : snap.currentUsage = sizes ledger
  bytes : snap.currentUsage = fetchSub snap.allocatedBytes snap.freedBytes
  reserved : snap.reservedBytes = reserves ledger
  enough : snap.currentUsage ≤ snap.reservedBytes
  peak : snap.peakUsage = highest history

section Balance
variable {s : ClientSys} {live : List Alloc}

theorem Good.balanced (h : Good s live) (ext : ℚ) : Balanced (s.impl.stats.snapshot ext) s.ledger s.history := by
  obtain ⟨h1, h2, h3, h4⟩ := h.totals
  have hb := h.accounts
  have ha := hb.active
  have hc := hb.count
  have hu := hb.usage
  have hy := hb.bytes
  have hr := hb.reserved
  rw [Nat.mod_eq_of_lt h3] at ha
  rw [Nat.mod_eq_of_lt h1] at hu
  rw [Nat.mod_eq_of_lt h2] at hr
  refine ⟨ha, ?_, hu, ?_, hr, ?_, hb.peak⟩
  · change s.impl.stats.activeAllocations = fetchSub s.impl.stats.allocationCount s.impl.stats.freeCount
    unfold fetchSub
    omega
  · change s.impl.stats.liveRequested = fetchSub s.impl.stats.allocatedBytes s.impl.stats.freedBytes
    unfold fetchSub
    omega
  · change s.impl.stats.liveRequested ≤ s.impl.stats.liveReserved
    omega

/-- What a free takes off the counters is what the allocation had put on them. -/
theorem Good.recordFree_eq (h : Good s live) {e : Entry} (he : e ∈ s.ledger) (t : Nat) :
    (s.impl.deallocate t e.ptr).2.stats = s.impl.stats.recordFree e.size e.reserved := by
  obtain ⟨a, ha, hkey⟩ := h.alloc_of he
  have hptr : a.ptr = e.ptr := congrArg Prod.fst hkey
  have hsize : a.size = e.size := congrArg (fun k => k.2.1) hkey
  have hres : a.raw.reserved = e.reserved := congrArg (fun k => k.2.2) hkey
  obtain ⟨T', hd, -⟩ := deallocate_spec h.memory ha (h.passes ha) (h.guards a ha) t
  rw [← hptr, hd, discharge_stats, hsize, hres]

end Balance

/-- **The counters balance after every run**, and a free takes off what its allocation put on. -/
theorem balanced_of_run {cfg : AllocatorConfig} {m : Mem} {page : PageSize}
    {answers : List (Option Nat)} {faults : List Bool} {calls : List ClientCall} {s : ClientSys}
    (hrun : runFrom ClientSys.step (ClientSys.start cfg (World.boot m page answers) faults) calls = some s)
    (ext : ℚ) : Balanced (s.impl.stats.snapshot ext) s.ledger s.history ∧
      ∀ e ∈ s.ledger, ∀ t, (s.impl.deallocate t e.ptr).2.stats =
        s.impl.stats.recordFree e.size e.reserved := by
  obtain ⟨live, h⟩ := good_of_run hrun
  exact ⟨h.balanced ext, fun e he t => h.recordFree_eq he t⟩

/-- Three tiers, a free by another thread, a reallocation and a double free: the peak stays where it was. -/
theorem balanced_of_run_mixed : ∃ s,
    runFrom ClientSys.step
      (ClientSys.start { enablePoisoning := true, enableLeakTracking := true } roomyWorld [])
      [.request 0 (.allocate 100), .request 1 (.allocate 5000), .request 0 (.allocate 300000),
        .deallocate 1 33554464, .reallocate 0 16777248 9000, .deallocate 0 1050512, .deallocate 0 1050512] = some s ∧
    Balanced (s.impl.stats.snapshot 0) [⟨16782288, 9000, 16, 9008⟩] s.history ∧
    (s.impl.stats.snapshot 0).peakUsage = 305100 ∧
    (s.impl.deallocate 1 16782288).2.stats = s.impl.stats.recordFree 9000 9008 := by
  have hrun : (runFrom ClientSys.step
      (ClientSys.start { enablePoisoning := true, enableLeakTracking := true } roomyWorld [])
      [.request 0 (.allocate 100), .request 1 (.allocate 5000), .request 0 (.allocate 300000),
        .deallocate 1 33554464, .reallocate 0 16777248 9000, .deallocate 0 1050512, .deallocate 0 1050512]).map
      (fun s => (s.ledger, highest s.history)) = some ([⟨16782288, 9000, 16, 9008⟩], 305100) := by
    decide +kernel
  obtain ⟨s, hs, hv⟩ := Option.map_eq_some_iff.mp hrun
  obtain ⟨hledger, hpeak⟩ := Prod.mk.inj hv
  have h := balanced_of_run hs 0
  rw [hledger] at h
  exact ⟨s, hs, h.1, h.1.peak.trans hpeak, h.2 _ (List.mem_singleton_self _) 1⟩

end MAlloc.Client
