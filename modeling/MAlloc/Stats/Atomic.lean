/-
  The statistics counters under any interleaving.

  A step is one atomic operation of `recordAllocation`, `updatePeak`, `recordFree` or `snapshot`; a
  thread's `Pc` is the operation it stands before. `compare_exchange_weak` may fail for no reason, and an
  addition wraps at `2^64`; `Bounded` says of a step that none of the live totals does.
  `recorded` holds the allocations whose `recordAllocation` has returned and whose `recordFree` has not
  begun, `highest` the largest value of `liveRequested_` so far.

  Each counter is a sum over `recorded` and over the threads inside a record call, where what a thread
  adds depends on how many of the five updates it has made (`weight`, `ledger`, `Balanced`). The
  peak reaches the usage, or some thread is still to raise it (`Pending`, `PeakOk`).
-/
import MAlloc.Lib.Run
import MAlloc.Lib.Tally
import MAlloc.Model.StatisticsCollector

namespace MAlloc.Stats

open Lib

/-! ## The system -/

/-- The next atomic operation of `recordAllocation`, the last two in `updatePeak(current)`. -/
inductive AllocationOp where
  | allocationCount
  | allocatedBytes
  | liveRequested
  | liveReserved
  | activeAllocations
  | loadLive
  | loadPeak (current : Nat)
  | exchange (current peak : Nat)
  deriving DecidableEq, Repr

inductive FreeOp where
  | freeCount
  | freedBytes
  | liveRequested
  | liveReserved
  | activeAllocations
  deriving DecidableEq, Repr

/-- The field `snapshot` loads next. -/
inductive Load where
  | allocationCount
  | freeCount
  | activeAllocations
  | currentUsage
  | peakUsage
  | allocatedBytes
  | freedBytes
  | reservedBytes
  deriving DecidableEq, Repr

inductive Pc where
  | idle
  | recordAllocation (op : AllocationOp) (requested reserved : Nat)
  | recordFree (op : FreeOp) (requested reserved : Nat)
  | snapshot (load : Load) (result : StatisticsSnapshot)

/-- `StatisticsSnapshot result{}`, with the argument of `snapshot`. -/
def blank (externalFragmentation : ℚ) : StatisticsSnapshot :=
  ⟨0, 0, 0, 0, 0, 0, 0, 0, 0, externalFragmentation⟩

structure StatsSys (n : Nat) where
  stats : StatisticsCollector := {}
  pcs : Fin n → Pc := fun _ => .idle
  recorded : List (Nat × Nat) := []
  highest : Nat := 0
  results : List StatisticsSnapshot := []

inductive StatsEvent (n : Nat) where
  | recordAllocation (t : Fin n) (requested reserved : Nat)
  | recordFree (t : Fin n) (requested reserved : Nat)
  | snapshot (t : Fin n) (externalFragmentation : ℚ)
  | atomic (t : Fin n) (spurious : Bool)

/-- The counter a step of `recordFree` updates. -/
def FreeOp.apply (c : StatisticsCollector) (requested reserved : Nat) : FreeOp → StatisticsCollector
  | .freeCount => { c with freeCount := fetchAdd c.freeCount 1 }
  | .freedBytes => { c with freedBytes := fetchAdd c.freedBytes requested }
  | .liveRequested => { c with liveRequested := fetchSub c.liveRequested requested }
  | .liveReserved => { c with liveReserved := fetchSub c.liveReserved reserved }
  | .activeAllocations => { c with activeAllocations := fetchSub c.activeAllocations 1 }

def FreeOp.next (requested reserved : Nat) : FreeOp → Pc
  | .freeCount => .recordFree .freedBytes requested reserved
  | .freedBytes => .recordFree .liveRequested requested reserved
  | .liveRequested => .recordFree .liveReserved requested reserved
  | .liveReserved => .recordFree .activeAllocations requested reserved
  | .activeAllocations => .idle

namespace StatsSys

variable {n : Nat}

def goto (s : StatsSys n) (t : Fin n) (pc : Pc) : StatsSys n :=
  { s with pcs := Function.update s.pcs t pc }

/-- `recordAllocation` returns. -/
def returned (s : StatsSys n) (t : Fin n) (requested reserved : Nat) : StatsSys n :=
  { s.goto t .idle with recorded := (requested, reserved) :: s.recorded }

/-- The condition of the loop in `updatePeak`: `current > peak`. -/
def loop (s : StatsSys n) (t : Fin n) (requested reserved current peak : Nat) : StatsSys n :=
  if current > peak then s.goto t (.recordAllocation (.exchange current peak) requested reserved)
  else s.returned t requested reserved

/-- One operation of `recordAllocation`. -/
def allocationStep (s : StatsSys n) (t : Fin n) (requested reserved : Nat) (spurious : Bool) :
    AllocationOp → StatsSys n
  | .allocationCount =>
    { s.goto t (.recordAllocation .allocatedBytes requested reserved) with
      stats := { s.stats with allocationCount := fetchAdd s.stats.allocationCount 1 } }
  | .allocatedBytes =>
    { s.goto t (.recordAllocation .liveRequested requested reserved) with
      stats := { s.stats with allocatedBytes := fetchAdd s.stats.allocatedBytes requested } }
  | .liveRequested =>
    let live := fetchAdd s.stats.liveRequested requested
    { s.goto t (.recordAllocation .liveReserved requested reserved) with
      stats := { s.stats with liveRequested := live }
      highest := max s.highest live }
  | .liveReserved =>
    { s.goto t (.recordAllocation .activeAllocations requested reserved) with
      stats := { s.stats with liveReserved := fetchAdd s.stats.liveReserved reserved } }
  | .activeAllocations =>
    { s.goto t (.recordAllocation .loadLive requested reserved) with
      stats := { s.stats with activeAllocations := fetchAdd s.stats.activeAllocations 1 } }
  | .loadLive => s.goto t (.recordAllocation (.loadPeak s.stats.liveRequested) requested reserved)
  | .loadPeak current => s.loop t requested reserved current s.stats.peakUsage
  | .exchange current peak =>
    if s.stats.peakUsage = peak ∧ spurious = false then
      { s.returned t requested reserved with stats := { s.stats with peakUsage := current } }
    else s.loop t requested reserved current s.stats.peakUsage

/-- One operation of `recordFree`. -/
def freeStep (s : StatsSys n) (t : Fin n) (requested reserved : Nat) (op : FreeOp) : StatsSys n :=
  let stats := op.apply s.stats requested reserved
  { s.goto t (op.next requested reserved) with
    stats := stats
    highest := max s.highest stats.liveRequested }

/-- One load of `snapshot`; the last one is followed by the return. -/
def loadStep (s : StatsSys n) (t : Fin n) (result : StatisticsSnapshot) : Load → StatsSys n
  | .allocationCount =>
    s.goto t (.snapshot .freeCount { result with allocationCount := s.stats.allocationCount })
  | .freeCount => s.goto t (.snapshot .activeAllocations { result with freeCount := s.stats.freeCount })
  | .activeAllocations =>
    s.goto t (.snapshot .currentUsage { result with activeAllocations := s.stats.activeAllocations })
  | .currentUsage =>
    s.goto t (.snapshot .peakUsage { result with currentUsage := s.stats.liveRequested })
  | .peakUsage => s.goto t (.snapshot .allocatedBytes { result with peakUsage := s.stats.peakUsage })
  | .allocatedBytes =>
    s.goto t (.snapshot .freedBytes { result with allocatedBytes := s.stats.allocatedBytes })
  | .freedBytes => s.goto t (.snapshot .reservedBytes { result with freedBytes := s.stats.freedBytes })
  | .reservedBytes =>
    { s.goto t .idle with
      results := { result with
        reservedBytes := s.stats.liveReserved
        internalFragmentation := internalFragmentationOf s.stats.liveReserved result.currentUsage } ::
          s.results }

/-- The atomic operation a thread stands before. -/
def atomic (s : StatsSys n) (t : Fin n) (spurious : Bool) : Option (StatsSys n) :=
  match s.pcs t with
  | .idle => none
  | .recordAllocation op requested reserved => some (s.allocationStep t requested reserved spurious op)
  | .recordFree op requested reserved => some (s.freeStep t requested reserved op)
  | .snapshot load result => some (s.loadStep t result load)

/-- A thread that is in no call may begin one; `recordFree` for an allocation that is recorded. -/
def step (s : StatsSys n) : StatsEvent n → Option (StatsSys n)
  | .recordAllocation t requested reserved =>
    match s.pcs t with
    | .idle => some (s.goto t (.recordAllocation .allocationCount requested reserved))
    | _ => none
  | .recordFree t requested reserved =>
    match s.pcs t with
    | .idle =>
      if (requested, reserved) ∈ s.recorded then
        some { s.goto t (.recordFree .freeCount requested reserved) with
          recorded := s.recorded.erase (requested, reserved) }
      else none
    | _ => none
  | .snapshot t externalFragmentation =>
    match s.pcs t with
    | .idle => some (s.goto t (.snapshot .allocationCount (blank externalFragmentation)))
    | _ => none
  | .atomic t spurious => s.atomic t spurious

end StatsSys

/-- The live total an operation adds to, as it is after the addition. -/
def AllocationOp.total (c : StatisticsCollector) (requested reserved : Nat) : AllocationOp → Nat
  | .liveRequested => c.liveRequested + requested
  | .liveReserved => c.liveReserved + reserved
  | .activeAllocations => c.activeAllocations + 1
  | _ => 0

def Pc.Fits (c : StatisticsCollector) : Pc → Prop
  | .recordAllocation op requested reserved => op.total c requested reserved < 2 ^ 64
  | _ => True

/-- The step carries no live total to `2^64`. -/
def StatsSys.Bounded {n : Nat} (s : StatsSys n) : StatsEvent n → Prop
  | .atomic t _ => (s.pcs t).Fits s.stats
  | _ => True

section Decide

instance (c : StatisticsCollector) : DecidablePred (Pc.Fits c)
  | .recordAllocation op requested reserved => inferInstanceAs (Decidable (op.total c requested reserved < 2 ^ 64))
  | .idle => isTrue trivial
  | .recordFree _ _ _ => isTrue trivial
  | .snapshot _ _ => isTrue trivial

instance {n : Nat} (s : StatsSys n) : DecidablePred s.Bounded
  | .atomic t _ => inferInstanceAs (Decidable ((s.pcs t).Fits s.stats))
  | .recordAllocation _ _ _ => isTrue trivial
  | .recordFree _ _ _ => isTrue trivial
  | .snapshot _ _ => isTrue trivial

end Decide

/-! ## The balance -/

/-- The counters agree with five totals: of the allocations that were counted and not freed (`l0`), of
    their bytes (`l1`), and of the three live quantities. -/
structure Balances (c : StatisticsCollector) (l0 l1 l2 l3 l4 : Nat) : Prop where
  count : c.allocationCount = (c.freeCount + l0) % 2 ^ 64
  bytes : c.allocatedBytes = (c.freedBytes + l1) % 2 ^ 64
  requested : c.liveRequested = l2
  reserved : c.liveReserved = l3
  active : c.activeAllocations = l4
  below : l2 < 2 ^ 64 ∧ l3 < 2 ^ 64 ∧ l4 < 2 ^ 64

section Balances
variable {c : StatisticsCollector} {l0 l1 l2 l3 l4 r v : Nat}

theorem Balances.addCount (h : Balances c l0 l1 l2 l3 l4) :
    Balances { c with allocationCount := fetchAdd c.allocationCount 1 } (l0 + 1) l1 l2 l3 l4 := by
  refine ⟨?_, h.bytes, h.requested, h.reserved, h.active, h.below⟩
  have := h.count
  simp only [fetchAdd]
  omega

theorem Balances.addBytes (h : Balances c l0 l1 l2 l3 l4) :
    Balances { c with allocatedBytes := fetchAdd c.allocatedBytes r } l0 (l1 + r) l2 l3 l4 := by
  refine ⟨h.count, ?_, h.requested, h.reserved, h.active, h.below⟩
  have := h.bytes
  simp only [fetchAdd]
  omega

theorem Balances.addRequested (h : Balances c l0 l1 l2 l3 l4) (hlt : c.liveRequested + r < 2 ^ 64) :
    Balances { c with liveRequested := fetchAdd c.liveRequested r } l0 l1 (l2 + r) l3 l4 := by
  have h2 := h.requested
  rw [h2] at hlt
  refine ⟨h.count, h.bytes, ?_, h.reserved, h.active, hlt, h.below.2⟩
  simp only [fetchAdd, h2]
  exact Nat.mod_eq_of_lt hlt

theorem Balances.addReserved (h : Balances c l0 l1 l2 l3 l4) (hlt : c.liveReserved + v < 2 ^ 64) :
    Balances { c with liveReserved := fetchAdd c.liveReserved v } l0 l1 l2 (l3 + v) l4 := by
  have h3 := h.reserved
  rw [h3] at hlt
  refine ⟨h.count, h.bytes, h.requested, ?_, h.active, h.below.1, hlt, h.below.2.2⟩
  simp only [fetchAdd, h3]
  exact Nat.mod_eq_of_lt hlt

theorem Balances.addActive (h : Balances c l0 l1 l2 l3 l4) (hlt : c.activeAllocations + 1 < 2 ^ 64) :
    Balances { c with activeAllocations := fetchAdd c.activeAllocations 1 } l0 l1 l2 l3 (l4 + 1) := by
  have h4 := h.active
  rw [h4] at hlt
  refine ⟨h.count, h.bytes, h.requested, h.reserved, ?_, h.below.1, h.below.2.1, hlt⟩
  simp only [fetchAdd, h4]
  exact Nat.mod_eq_of_lt hlt

theorem Balances.subCount (h : Balances c (l0 + 1) l1 l2 l3 l4) :
    Balances { c with freeCount := fetchAdd c.freeCount 1 } l0 l1 l2 l3 l4 := by
  refine ⟨?_, h.bytes, h.requested, h.reserved, h.active, h.below⟩
  have := h.count
  simp only [fetchAdd]
  omega

theorem Balances.subBytes (h : Balances c l0 (l1 + r) l2 l3 l4) :
    Balances { c with freedBytes := fetchAdd c.freedBytes r } l0 l1 l2 l3 l4 := by
  refine ⟨h.count, ?_, h.requested, h.reserved, h.active, h.below⟩
  have := h.bytes
  simp only [fetchAdd]
  omega

/-- A subtraction of a part of the total does not wrap. -/
theorem fetchSub_eq {x y : Nat} (h : x + y < 2 ^ 64) : fetchSub (x + y) y = x := by
  unfold fetchSub
  omega

theorem Balances.subRequested (h : Balances c l0 l1 (l2 + r) l3 l4) :
    Balances { c with liveRequested := fetchSub c.liveRequested r } l0 l1 l2 l3 l4 := by
  have hb := h.below.1
  refine ⟨h.count, h.bytes, ?_, h.reserved, h.active, by omega, h.below.2⟩
  simp only [h.requested]
  exact fetchSub_eq hb

theorem Balances.subReserved (h : Balances c l0 l1 l2 (l3 + v) l4) :
    Balances { c with liveReserved := fetchSub c.liveReserved v } l0 l1 l2 l3 l4 := by
  have hb := h.below.2.1
  refine ⟨h.count, h.bytes, h.requested, ?_, h.active, h.below.1, by omega, h.below.2.2⟩
  simp only [h.reserved]
  exact fetchSub_eq hb

theorem Balances.subActive {u : Nat} (h : Balances c l0 l1 l2 l3 (l4 + u)) :
    Balances { c with activeAllocations := fetchSub c.activeAllocations u } l0 l1 l2 l3 l4 := by
  have hb := h.below.2.2
  refine ⟨h.count, h.bytes, h.requested, h.reserved, ?_, h.below.1, h.below.2.1, by omega⟩
  simp only [h.active]
  exact fetchSub_eq hb

/-- The same balance, the totals written in another way. -/
theorem Balances.of_eq {l0' l1' l2' l3' l4' : Nat} (h : Balances c l0 l1 l2 l3 l4) (e0 : l0' = l0)
    (e1 : l1' = l1) (e2 : l2' = l2) (e3 : l3' = l3) (e4 : l4' = l4) : Balances c l0' l1' l2' l3' l4' := by
  rw [e0, e1, e2, e3, e4]
  exact h

end Balances

/-- How many of the five counters the call has updated. -/
def AllocationOp.rank : AllocationOp → Nat
  | .allocationCount => 0
  | .allocatedBytes => 1
  | .liveRequested => 2
  | .liveReserved => 3
  | .activeAllocations => 4
  | _ => 5

def FreeOp.rank : FreeOp → Nat
  | .freeCount => 0
  | .freedBytes => 1
  | .liveRequested => 2
  | .liveReserved => 3
  | .activeAllocations => 4

/-- What a thread adds to the total behind the `k`-th pair of counters: its allocation counts once
    that counter was raised and until it is lowered. -/
def weight (k : Nat) (f : Nat → Nat → Nat) : Pc → Nat
  | .recordAllocation op requested reserved => if k < op.rank then f requested reserved else 0
  | .recordFree op requested reserved => if op.rank ≤ k then f requested reserved else 0
  | _ => 0

/-- The total over the recorded allocations and the threads. -/
def ledger {n : Nat} (recorded : List (Nat × Nat)) (pcs : Fin n → Pc) (k : Nat) (f : Nat → Nat → Nat) : Nat :=
  (recorded.map fun p => f p.1 p.2).sum + tally (weight k f) pcs

section Ledger
variable {n : Nat} {recorded : List (Nat × Nat)} {pcs : Fin n → Pc} {t : Fin n} {r v : Nat}

theorem ledger_update (recorded : List (Nat × Nat)) (pcs : Fin n → Pc) (t : Fin n) (pc : Pc) (k : Nat)
    (f : Nat → Nat → Nat) : ledger recorded (Function.update pcs t pc) k f + weight k f (pcs t) =
      ledger recorded pcs k f + weight k f pc := by
  have := tally_update (weight k f) pcs t pc
  unfold ledger
  omega

theorem ledger_cons (p : Nat × Nat) (k : Nat) (f : Nat → Nat → Nat) :
    ledger (p :: recorded) pcs k f = ledger recorded pcs k f + f p.1 p.2 := by
  unfold ledger
  rw [List.map_cons, List.sum_cons]
  omega

/-- What a thread adds is part of the total. -/
theorem weight_le (recorded : List (Nat × Nat)) (pcs : Fin n → Pc) (t : Fin n) (k : Nat)
    (f : Nat → Nat → Nat) : weight k f (pcs t) ≤ ledger recorded pcs k f :=
  (le_tally (weight k f) pcs t).trans (Nat.le_add_left _ _)

/-- A thread that adds as much as before changes no total. -/
theorem ledger_stay {pc : Pc} {k : Nat} {f : Nat → Nat → Nat} (h : weight k f pc = weight k f (pcs t)) :
    ledger recorded (Function.update pcs t pc) k f = ledger recorded pcs k f := by
  have := ledger_update recorded pcs t pc k f
  omega

/-- `recordAllocation` goes from one update to the next: the total between grows. -/
theorem ledger_allocation {op op' : AllocationOp} (hpc : pcs t = .recordAllocation op r v)
    (hop : op'.rank = op.rank + 1) (k : Nat) (f : Nat → Nat → Nat) :
    ledger recorded (Function.update pcs t (.recordAllocation op' r v)) k f =
      ledger recorded pcs k f + if k = op.rank then f r v else 0 := by
  have := ledger_update recorded pcs t (.recordAllocation op' r v) k f
  rw [hpc] at this
  simp only [weight, hop] at this
  split at this <;> split at this <;> split <;> omega

/-- `recordFree` goes on after an update: the total behind it shrinks. -/
theorem ledger_free {op : FreeOp} (hpc : pcs t = .recordFree op r v) {k : Nat} (hk : k < 5)
    (f : Nat → Nat → Nat) : ledger recorded pcs k f =
      ledger recorded (Function.update pcs t (op.next r v)) k f + if k = op.rank then f r v else 0 := by
  have hw : weight k f (op.next r v) = if op.rank + 1 ≤ k then f r v else 0 := by
    cases op with
    | activeAllocations => exact (if_neg (Nat.not_le.mpr hk)).symm
    | _ => rfl
  have := ledger_update recorded pcs t (op.next r v) k f
  rw [hpc, hw] at this
  simp only [weight] at this
  split at this <;> split at this <;> split <;> omega

/-- The update of `recordFree` takes its part from one total. -/
theorem Balances.apply {c : StatisticsCollector} {l0 l1 l2 l3 l4 : Nat} {op : FreeOp}
    (h : Balances c (l0 + if 0 = op.rank then 1 else 0) (l1 + if 1 = op.rank then r else 0)
      (l2 + if 2 = op.rank then r else 0) (l3 + if 3 = op.rank then v else 0)
      (l4 + if 4 = op.rank then 1 else 0)) : Balances (op.apply c r v) l0 l1 l2 l3 l4 := by
  cases op with
  | freeCount => exact h.subCount
  | freedBytes => exact h.subBytes
  | liveRequested => exact h.subRequested
  | liveReserved => exact h.subReserved
  | activeAllocations => exact h.subActive

/-- A call after its last update, or a call that has returned. -/
theorem ledger_late {op : AllocationOp} (hpc : pcs t = .recordAllocation op r v) (hop : op.rank = 5) {k : Nat}
    (hk : k < 5) (f : Nat → Nat → Nat) :
    ledger ((r, v) :: recorded) (Function.update pcs t .idle) k f = ledger recorded pcs k f ∧
      ∀ op', op'.rank = 5 → ledger recorded (Function.update pcs t (.recordAllocation op' r v)) k f =
        ledger recorded pcs k f := by
  have hw : ∀ op' : AllocationOp, op'.rank = 5 → weight k f (.recordAllocation op' r v) = f r v := by
    intro op' hop'
    unfold weight
    dsimp only
    rw [hop', if_pos hk]
  constructor
  · have := ledger_update recorded pcs t .idle k f
    rw [hpc, hw op hop] at this
    rw [ledger_cons]
    exact this
  · intro op' hop'
    exact ledger_stay (by rw [hpc, hw op hop, hw op' hop'])

end Ledger

namespace StatsSys

variable {n : Nat} {s s' : StatsSys n}

def Balanced (s : StatsSys n) : Prop :=
  Balances s.stats (ledger s.recorded s.pcs 0 fun _ _ => 1) (ledger s.recorded s.pcs 1 fun r _ => r)
    (ledger s.recorded s.pcs 2 fun r _ => r) (ledger s.recorded s.pcs 3 fun _ v => v)
    (ledger s.recorded s.pcs 4 fun _ _ => 1)

/-- Where the totals stay and the counters too, so does the balance. -/
theorem Balanced.same (h : s.Balanced)
    (hl : ∀ k < 5, ∀ f, ledger s'.recorded s'.pcs k f = ledger s.recorded s.pcs k f)
    (hs : s'.stats = { s.stats with peakUsage := s'.stats.peakUsage }) : s'.Balanced := by
  have h' : Balances { s.stats with peakUsage := s'.stats.peakUsage } _ _ _ _ _ :=
    ⟨h.count, h.bytes, h.requested, h.reserved, h.active, h.below⟩
  unfold Balanced
  rw [hs]
  exact h'.of_eq (hl 0 (by decide) _) (hl 1 (by decide) _) (hl 2 (by decide) _) (hl 3 (by decide) _)
    (hl 4 (by decide) _)

section Step
variable {t : Fin n} {requested reserved : Nat}

theorem loop_balanced (h : s.Balanced) {op : AllocationOp}
    (hpc : s.pcs t = .recordAllocation op requested reserved) (hop : op.rank = 5) (current peak : Nat) :
    (s.loop t requested reserved current peak).Balanced := by
  unfold loop
  split
  · exact h.same (fun k hk f => (ledger_late hpc hop hk f).2 _ rfl) rfl
  · exact h.same (fun k hk f => (ledger_late hpc hop hk f).1) rfl

/-- **`recordAllocation` keeps the balance.** -/
theorem allocationStep_balanced (h : s.Balanced) {op : AllocationOp} {spurious : Bool}
    (hpc : s.pcs t = .recordAllocation op requested reserved) (hfit : (s.pcs t).Fits s.stats) :
    (s.allocationStep t requested reserved spurious op).Balanced := by
  have hmove := fun op' hop => @ledger_allocation n s.recorded s.pcs t requested reserved op op' hpc hop
  rw [hpc] at hfit
  unfold allocationStep
  cases op with
  | allocationCount =>
    have e := hmove .allocatedBytes rfl
    exact h.addCount.of_eq (e 0 _) (e 1 _) (e 2 _) (e 3 _) (e 4 _)
  | allocatedBytes =>
    have e := hmove .liveRequested rfl
    exact h.addBytes.of_eq (e 0 _) (e 1 _) (e 2 _) (e 3 _) (e 4 _)
  | liveRequested =>
    have e := hmove .liveReserved rfl
    exact (h.addRequested hfit).of_eq (e 0 _) (e 1 _) (e 2 _) (e 3 _) (e 4 _)
  | liveReserved =>
    have e := hmove .activeAllocations rfl
    exact (h.addReserved hfit).of_eq (e 0 _) (e 1 _) (e 2 _) (e 3 _) (e 4 _)
  | activeAllocations =>
    have e := hmove .loadLive rfl
    exact (h.addActive hfit).of_eq (e 0 _) (e 1 _) (e 2 _) (e 3 _) (e 4 _)
  | loadLive => exact h.same (fun k hk f => (ledger_late hpc rfl hk f).2 _ rfl) rfl
  | loadPeak current => exact loop_balanced h hpc rfl current s.stats.peakUsage
  | exchange current peak =>
    dsimp only
    split
    · exact h.same (fun k hk f => (ledger_late hpc rfl hk f).1) rfl
    · exact loop_balanced h hpc rfl current s.stats.peakUsage

/-- **`recordFree` keeps the balance.** -/
theorem freeStep_balanced (h : s.Balanced) {op : FreeOp}
    (hpc : s.pcs t = .recordFree op requested reserved) :
    (s.freeStep t requested reserved op).Balanced := by
  have e := fun k hk f => (@ledger_free n s.recorded s.pcs t requested reserved op hpc k hk f).symm
  have hsplit := h.of_eq (e 0 (by decide) _) (e 1 (by decide) _) (e 2 (by decide) _) (e 3 (by decide) _)
    (e 4 (by decide) _)
  exact hsplit.apply

end Step

/-- `snapshot` only reads. -/
theorem loadStep_balanced (h : s.Balanced) {t : Fin n} {load : Load} {result : StatisticsSnapshot}
    (hpc : s.pcs t = .snapshot load result) : (s.loadStep t result load).Balanced := by
  have hstay : ∀ pc, (∀ k f, weight k f pc = 0) → ∀ k < 5, ∀ f,
      ledger s.recorded (Function.update s.pcs t pc) k f = ledger s.recorded s.pcs k f :=
    fun pc hpc' k _ f => ledger_stay (by rw [hpc, hpc']; rfl)
  unfold loadStep
  cases load <;> exact h.same (hstay _ fun _ _ => rfl) rfl

theorem step_balanced (h : s.Balanced) {e : StatsEvent n} (hb : s.Bounded e) (hs : s.step e = some s') :
    s'.Balanced := by
  cases e with
  | recordAllocation t r v =>
    unfold step at hs
    dsimp only at hs
    split at hs
    · rename_i hpc
      cases hs
      exact h.same (fun k _ f => ledger_stay (by rw [hpc]; rfl)) rfl
    · cases hs
  | recordFree t r v =>
    unfold step at hs
    dsimp only at hs
    split at hs
    · rename_i hpc
      split at hs
      · rename_i hmem
        cases hs
        refine h.same (fun k hk f => ?_) rfl
        -- the allocation leaves `recorded`, and its thread counts for it
        have hsum := ((List.perm_cons_erase hmem).map fun p => f p.1 p.2).sum_eq
        have htally := tally_update (weight k f) s.pcs t (.recordFree .freeCount r v)
        have hw : weight k f (.recordFree .freeCount r v) = f r v := by
          unfold weight
          exact if_pos (Nat.zero_le k)
        rw [List.map_cons, List.sum_cons] at hsum
        rw [hpc] at htally
        change _ + 0 = _ at htally
        unfold ledger goto
        dsimp only at hsum ⊢
        omega
      · cases hs
    · cases hs
  | snapshot t x =>
    unfold step at hs
    dsimp only at hs
    split at hs
    · rename_i hpc
      cases hs
      exact h.same (fun k _ f => ledger_stay (by rw [hpc]; rfl)) rfl
    · cases hs
  | atomic t spurious =>
    unfold step atomic at hs
    dsimp only at hs
    split at hs
    · cases hs
    · rename_i hpc
      cases hs
      exact allocationStep_balanced h hpc hb
    · rename_i hpc
      cases hs
      exact freeStep_balanced h hpc
    · rename_i hpc
      cases hs
      exact loadStep_balanced h hpc

end StatsSys

/-! ## The peak -/

/-- The thread will still compare the peak with the usage, or with a usage it has loaded that is not
    below `live`. -/
def Pc.Pending (live : Nat) : Pc → Prop
  | .recordAllocation (.loadPeak current) _ _ => live ≤ current
  | .recordAllocation (.exchange current _) _ _ => live ≤ current
  | .recordAllocation _ _ _ => True
  | _ => False

/-- What the thread has loaded: a usage that was held, and a smaller peak. -/
def Pc.Loaded (highest : Nat) : Pc → Prop
  | .recordAllocation (.loadPeak current) _ _ => current ≤ highest
  | .recordAllocation (.exchange current peak) _ _ => current ≤ highest ∧ peak < current
  | _ => True

theorem Pc.Pending.anti {pc : Pc} {live live' : Nat} (h : pc.Pending live) (hl : live' ≤ live) :
    pc.Pending live' := by
  unfold Pc.Pending at h ⊢
  split at h
  · exact hl.trans h
  · exact hl.trans h
  · trivial
  · exact h

theorem Pc.Loaded.mono {pc : Pc} {highest highest' : Nat} (h : pc.Loaded highest)
    (hh : highest ≤ highest') : pc.Loaded highest' := by
  unfold Pc.Loaded at h ⊢
  split at h
  · exact h.trans hh
  · exact ⟨h.1.trans hh, h.2⟩
  · trivial

namespace StatsSys

variable {n : Nat} {s s' : StatsSys n}

structure PeakOk (s : StatsSys n) : Prop where
  live : s.stats.liveRequested ≤ s.highest
  peak : s.stats.peakUsage ≤ s.highest
  loaded : ∀ t, (s.pcs t).Loaded s.highest
  reach : s.stats.liveRequested ≤ s.stats.peakUsage ∨ ∃ t, (s.pcs t).Pending s.stats.liveRequested

section Peak
variable {t : Fin n} {requested reserved : Nat} {y : Pc}

/-- One thread moves. The peak keeps up when it kept up before, when the thread itself was to raise it,
    and when another one is and the usage has not grown; otherwise the thread is still to raise it. -/
theorem PeakOk.move (h : s.PeakOk) (hpcs : s'.pcs = Function.update s.pcs t y)
    (hhigh : s'.highest = max s.highest s'.stats.liveRequested) (hpeak : s'.stats.peakUsage ≤ s.highest)
    (hy : y.Loaded s'.highest)
    (hkeep : s.stats.liveRequested ≤ s.stats.peakUsage ∨ (s.pcs t).Pending s.stats.liveRequested →
      s'.stats.liveRequested ≤ s'.stats.peakUsage ∨ y.Pending s'.stats.liveRequested)
    (hgrow : s'.stats.liveRequested ≤ s.stats.liveRequested ∨ y.Pending s'.stats.liveRequested) :
    s'.PeakOk := by
  have hself : s'.pcs t = y := by rw [hpcs, Function.update_self]
  have hother : ∀ u, u ≠ t → s'.pcs u = s.pcs u := fun u hu => by rw [hpcs, Function.update_of_ne hu]
  have hle : s.highest ≤ s'.highest := by omega
  refine ⟨by omega, by omega, fun u => ?_, ?_⟩
  · by_cases hu : u = t
    · rw [hu, hself]
      exact hy
    · rw [hother u hu]
      exact (h.loaded u).mono hle
  · have hend : s'.stats.liveRequested ≤ s'.stats.peakUsage ∨ y.Pending s'.stats.liveRequested →
        s'.stats.liveRequested ≤ s'.stats.peakUsage ∨ ∃ u, (s'.pcs u).Pending s'.stats.liveRequested := by
      rintro (hp | hp)
      · exact Or.inl hp
      · exact Or.inr ⟨t, by rw [hself]; exact hp⟩
    rcases h.reach with hr | ⟨u, hu⟩
    · exact hend (hkeep (Or.inl hr))
    · by_cases hut : u = t
      · exact hend (hkeep (Or.inr (hut ▸ hu)))
      · rcases hgrow with hg | hg
        · exact Or.inr ⟨u, by rw [hother u hut]; exact hu.anti hg⟩
        · exact hend (Or.inr hg)

/-- A move that reads and writes neither. -/
theorem PeakOk.elsewhere (h : s.PeakOk) (hpcs : s'.pcs = Function.update s.pcs t y)
    (hhigh : s'.highest = s.highest) (hlive : s'.stats.liveRequested = s.stats.liveRequested)
    (hpeak : s'.stats.peakUsage = s.stats.peakUsage) (hy : ∀ highest, y.Loaded highest)
    (hkeep : (s.pcs t).Pending s.stats.liveRequested → y.Pending s.stats.liveRequested) : s'.PeakOk := by
  have := h.live
  have := h.peak
  refine h.move hpcs (by omega) (by omega) (hy _) ?_ (Or.inl (by omega))
  rintro (hr | hr)
  · exact Or.inl (by omega)
  · right
    rw [hlive]
    exact hkeep hr

/-- `current > peak` with the peak just read. -/
theorem loop_peak (h : s.PeakOk) {current : Nat} (hcur : current ≤ s.highest)
    (hpend : (s.pcs t).Pending s.stats.liveRequested → s.stats.liveRequested ≤ current) :
    (s.loop t requested reserved current s.stats.peakUsage).PeakOk := by
  have h1 := h.live
  have h2 := h.peak
  unfold loop
  split
  · rename_i hgt
    refine h.move rfl (show s.highest = max s.highest s.stats.liveRequested by omega) h2 ⟨hcur, hgt⟩ ?_
      (Or.inl (Nat.le_refl _))
    rintro (hr | hr)
    · exact Or.inl hr
    · exact Or.inr (hpend hr)
  · rename_i hle
    refine h.move rfl (show s.highest = max s.highest s.stats.liveRequested by omega) h2 trivial ?_
      (Or.inl (Nat.le_refl _))
    rintro (hr | hr)
    · exact Or.inl hr
    · exact Or.inl ((hpend hr).trans (Nat.le_of_not_lt hle))

theorem allocationStep_peak (h : s.PeakOk) {op : AllocationOp} {spurious : Bool}
    (hpc : s.pcs t = .recordAllocation op requested reserved) :
    (s.allocationStep t requested reserved spurious op).PeakOk ∧
      s.stats.peakUsage ≤ (s.allocationStep t requested reserved spurious op).stats.peakUsage := by
  have h1 := h.live
  have h2 := h.peak
  have hload := h.loaded t
  rw [hpc] at hload
  have hloop : ∀ current peak, s.stats.peakUsage ≤
      (s.loop t requested reserved current peak).stats.peakUsage := fun current peak => by
    unfold loop
    split <;> exact Nat.le_refl _
  unfold allocationStep
  cases op with
  | allocationCount => exact ⟨h.elsewhere rfl rfl rfl rfl (fun _ => trivial) fun _ => trivial, Nat.le_refl _⟩
  | allocatedBytes => exact ⟨h.elsewhere rfl rfl rfl rfl (fun _ => trivial) fun _ => trivial, Nat.le_refl _⟩
  | liveRequested =>
    exact ⟨h.move rfl rfl h2 trivial (fun _ => Or.inr trivial) (Or.inr trivial), Nat.le_refl _⟩
  | liveReserved => exact ⟨h.elsewhere rfl rfl rfl rfl (fun _ => trivial) fun _ => trivial, Nat.le_refl _⟩
  | activeAllocations =>
    exact ⟨h.elsewhere rfl rfl rfl rfl (fun _ => trivial) fun _ => trivial, Nat.le_refl _⟩
  | loadLive =>
    exact ⟨h.move rfl (show s.highest = max s.highest s.stats.liveRequested by omega) h2 h1
      (fun _ => Or.inr (Nat.le_refl _)) (Or.inl (Nat.le_refl _)), Nat.le_refl _⟩
  | loadPeak current =>
    refine ⟨loop_peak h hload fun hp => ?_, hloop _ _⟩
    rw [hpc] at hp
    exact hp
  | exchange current peak =>
    obtain ⟨hcur, hlt⟩ := hload
    dsimp only
    split
    · -- the exchange succeeds: the peak is now the usage the thread had loaded
      rename_i hex
      refine ⟨h.move rfl (show s.highest = max s.highest s.stats.liveRequested by omega) hcur trivial ?_
        (Or.inl (Nat.le_refl _)), show s.stats.peakUsage ≤ current by omega⟩
      rintro (hr | hr)
      · exact Or.inl (show s.stats.liveRequested ≤ current by omega)
      · rw [hpc] at hr
        exact Or.inl hr
    · refine ⟨loop_peak h hcur fun hp => ?_, hloop _ _⟩
      rw [hpc] at hp
      exact hp

/-- The operations of `recordFree` leave the peak, and all but one the usage. The counter of
    `activeAllocations_` is a variable here, so that no difference of numbers is computed. -/
theorem setActive_fields (c : StatisticsCollector) (x : Nat) :
    ({ c with activeAllocations := x } : StatisticsCollector).peakUsage = c.peakUsage ∧
      ({ c with activeAllocations := x } : StatisticsCollector).liveRequested = c.liveRequested :=
  ⟨rfl, rfl⟩

theorem apply_peakUsage (c : StatisticsCollector) (op : FreeOp) :
    (op.apply c requested reserved).peakUsage = c.peakUsage := by
  cases op with
  | activeAllocations => exact (setActive_fields c _).1
  | _ => rfl

/-- A subtraction that does not wrap lowers the usage. -/
theorem apply_le (hb : s.Balanced) {op : FreeOp} (hpc : s.pcs t = .recordFree op requested reserved) :
    (op.apply s.stats requested reserved).liveRequested ≤ s.stats.liveRequested := by
  cases op with
  | liveRequested =>
    have hr : requested ≤ s.stats.liveRequested := by
      have := weight_le s.recorded s.pcs t 2 fun r _ => r
      rw [hpc, ← hb.requested] at this
      exact this
    have hlt : s.stats.liveRequested < 2 ^ 64 := by
      rw [hb.requested]
      exact hb.below.1
    obtain ⟨k, hk⟩ := Nat.exists_eq_add_of_le' hr
    change fetchSub s.stats.liveRequested requested ≤ s.stats.liveRequested
    rw [hk] at hlt ⊢
    rw [fetchSub_eq hlt]
    exact Nat.le_add_right _ _
  | activeAllocations => exact (setActive_fields s.stats _).2.le
  | _ => exact Nat.le_refl _

theorem freeStep_peak (h : s.PeakOk) (hb : s.Balanced) {op : FreeOp}
    (hpc : s.pcs t = .recordFree op requested reserved) :
    (s.freeStep t requested reserved op).PeakOk ∧
      s.stats.peakUsage ≤ (s.freeStep t requested reserved op).stats.peakUsage := by
  have hle := apply_le hb hpc
  have hsame := @apply_peakUsage requested reserved s.stats op
  have hnext : (op.next requested reserved).Loaded (s.freeStep t requested reserved op).highest := by
    cases op <;> trivial
  refine ⟨h.move rfl rfl (hsame.trans_le h.peak) hnext ?_ (Or.inl hle), hsame.ge⟩
  rintro (hp | hp)
  · exact Or.inl (hle.trans (hp.trans hsame.ge))
  · rw [hpc] at hp
    exact absurd hp id

theorem loadStep_peak (h : s.PeakOk) {load : Load} {result : StatisticsSnapshot}
    (hpc : s.pcs t = .snapshot load result) :
    (s.loadStep t result load).PeakOk ∧ s.stats.peakUsage ≤ (s.loadStep t result load).stats.peakUsage := by
  have hno : ¬ (s.pcs t).Pending s.stats.liveRequested := by
    rw [hpc]
    exact id
  unfold loadStep
  cases load <;>
    exact ⟨h.elsewhere rfl rfl rfl rfl (fun _ => trivial) fun hp => absurd hp hno, Nat.le_refl _⟩

theorem step_peak (h : s.PeakOk) (hb : s.Balanced) {e : StatsEvent n} (hs : s.step e = some s') :
    s'.PeakOk ∧ s.stats.peakUsage ≤ s'.stats.peakUsage := by
  have hno : ∀ u, s.pcs u = .idle → ¬ (s.pcs u).Pending s.stats.liveRequested := fun u hu => by
    rw [hu]
    exact id
  cases e with
  | recordAllocation t r v =>
    unfold step at hs
    dsimp only at hs
    split at hs
    · rename_i hpc
      cases hs
      exact ⟨h.elsewhere rfl rfl rfl rfl (fun _ => trivial) fun _ => trivial, Nat.le_refl _⟩
    · cases hs
  | recordFree t r v =>
    unfold step at hs
    dsimp only at hs
    split at hs
    · rename_i hpc
      split at hs
      · cases hs
        exact ⟨h.elsewhere rfl rfl rfl rfl (fun _ => trivial) fun hp => absurd hp (hno t hpc), Nat.le_refl _⟩
      · cases hs
    · cases hs
  | snapshot t x =>
    unfold step at hs
    dsimp only at hs
    split at hs
    · rename_i hpc
      cases hs
      exact ⟨h.elsewhere rfl rfl rfl rfl (fun _ => trivial) fun hp => absurd hp (hno t hpc), Nat.le_refl _⟩
    · cases hs
  | atomic t spurious =>
    unfold step atomic at hs
    dsimp only at hs
    split at hs
    · cases hs
    · rename_i hpc
      cases hs
      exact allocationStep_peak h hpc
    · rename_i hpc
      cases hs
      exact freeStep_peak h hb hpc
    · rename_i hpc
      cases hs
      exact loadStep_peak h hpc

end Peak

end StatsSys

/-! ## Every interleaving -/

/-- A record call is in progress. -/
def Pc.Recording : Pc → Prop
  | .recordAllocation _ _ _ => True
  | .recordFree _ _ _ => True
  | _ => False

theorem Pc.weight_of_not_recording {pc : Pc} (h : ¬ pc.Recording) (k : Nat) (f : Nat → Nat → Nat) :
    weight k f pc = 0 := by
  cases pc with
  | idle => rfl
  | snapshot load result => rfl
  | recordAllocation op r v => exact absurd trivial h
  | recordFree op r v => exact absurd trivial h

theorem Pc.Pending.recording {pc : Pc} {live : Nat} (h : pc.Pending live) : pc.Recording := by
  cases pc with
  | recordAllocation op r v => trivial
  | idle => exact absurd h id
  | recordFree op r v => exact absurd h id
  | snapshot load result => exact absurd h id

namespace StatsSys

variable {n : Nat} {s s' : StatsSys n}

theorem reached_of_run {events : List (StatsEvent n)}
    (hbound : Along StatsSys.step StatsSys.Bounded ({} : StatsSys n) events)
    (hrun : runFrom StatsSys.step ({} : StatsSys n) events = some s) : s.Balanced ∧ s.PeakOk := by
  have hzero : ∀ k f, ledger [] (fun _ : Fin n => Pc.idle) k f = 0 := by
    intro k f
    have htally : tally (weight k f) (fun _ : Fin n => Pc.idle) = 0 := tally_eq_zero fun _ => rfl
    unfold ledger
    rw [htally]
    rfl
  have hstart : ({} : StatsSys n).Balanced ∧ ({} : StatsSys n).PeakOk := by
    refine ⟨?_, Nat.le_refl _, Nat.le_refl _, fun _ => trivial, Or.inl (Nat.le_refl _)⟩
    unfold Balanced
    rw [hzero, hzero, hzero, hzero, hzero]
    exact ⟨rfl, rfl, rfl, rfl, rfl, by decide, by decide, by decide⟩
  refine run_along (P := fun s => s.Balanced ∧ s.PeakOk) (fun s e s' hb h hs => ?_) hbound hstart hrun
  exact ⟨step_balanced h.1 hb hs, (step_peak h.2 h.1 hs).1⟩

/-- What holds in every state, and in every state in which no record call is in progress. -/
structure Interleaved (s : StatsSys n) : Prop where
  requested : ∀ t r v, s.pcs t = .recordFree .liveRequested r v → r ≤ s.stats.liveRequested
  reserved : ∀ t r v, s.pcs t = .recordFree .liveReserved r v → v ≤ s.stats.liveReserved
  active : ∀ t r v, s.pcs t = .recordFree .activeAllocations r v → 1 ≤ s.stats.activeAllocations
  peakGrows : ∀ e s', s.step e = some s' → s.stats.peakUsage ≤ s'.stats.peakUsage
  peakHeld : s.stats.peakUsage ≤ s.highest
  settled : (∀ t, ¬ (s.pcs t).Recording) →
    s.stats.allocationCount = (s.stats.freeCount + s.stats.activeAllocations) % 2 ^ 64 ∧
      s.stats.allocatedBytes = (s.stats.freedBytes + s.stats.liveRequested) % 2 ^ 64 ∧
      s.stats.liveRequested ≤ s.stats.peakUsage

end StatsSys

/-- **Statistics under interleaving**, while the live totals stay below `2^64`. -/
theorem interleaving_of_run {n : Nat} {events : List (StatsEvent n)} {s : StatsSys n}
    (hbound : Along StatsSys.step StatsSys.Bounded ({} : StatsSys n) events)
    (hrun : runFrom StatsSys.step ({} : StatsSys n) events = some s) : s.Interleaved := by
  obtain ⟨hb, hp⟩ := StatsSys.reached_of_run hbound hrun
  refine ⟨fun t r v hpc => ?_, fun t r v hpc => ?_, fun t r v hpc => ?_,
    fun e s' hs => (StatsSys.step_peak hp hb hs).2, hp.peak, fun hquiet => ?_⟩
  · have := weight_le s.recorded s.pcs t 2 fun r _ => r
    rw [hpc, ← hb.requested] at this
    exact this
  · have := weight_le s.recorded s.pcs t 3 fun _ v => v
    rw [hpc, ← hb.reserved] at this
    exact this
  · have := weight_le s.recorded s.pcs t 4 fun _ _ => 1
    rw [hpc, ← hb.active] at this
    exact this
  · -- with no thread in a record call, all totals are over the recorded allocations
    have htotal : ∀ k f, ledger s.recorded s.pcs k f = (s.recorded.map fun p => f p.1 p.2).sum := by
      intro k f
      unfold ledger
      rw [tally_eq_zero fun t => Pc.weight_of_not_recording (hquiet t) k f]
      rfl
    have hactive := hb.active.trans ((htotal 4 _).trans (htotal 0 fun _ _ => 1).symm)
    have husage := hb.requested.trans ((htotal 2 _).trans (htotal 1 fun r _ => r).symm)
    refine ⟨by rw [hactive]; exact hb.count, by rw [husage]; exact hb.bytes, ?_⟩
    rcases hp.reach with hr | ⟨t, ht⟩
    · exact hr
    · exact absurd ht.recording (hquiet t)

/-- Two threads allocate, the exchange of the first fails for no reason, and the second frees. -/
theorem interleaving_of_run_two : ∃ s, runFrom StatsSys.step ({} : StatsSys 2)
      ([.recordAllocation 0 100 112, .recordAllocation 1 50 64] ++
        (List.replicate 7 [StatsEvent.atomic 0 false, .atomic 1 false]).flatten ++
        [.atomic 1 false, .atomic 0 true, .recordFree 1 50 64] ++ List.replicate 5 (.atomic 1 false)) = some s ∧
    s.Interleaved ∧ s.stats.liveRequested = 100 ∧ s.stats.peakUsage = 150 := by
  have hrun : (runFrom StatsSys.step ({} : StatsSys 2)
      ([.recordAllocation 0 100 112, .recordAllocation 1 50 64] ++
        (List.replicate 7 [StatsEvent.atomic 0 false, .atomic 1 false]).flatten ++
        [.atomic 1 false, .atomic 0 true, .recordFree 1 50 64] ++ List.replicate 5 (.atomic 1 false))).map
        (fun s => (s.stats.liveRequested, s.stats.peakUsage)) = some (100, 150) := by
    decide +kernel
  obtain ⟨s, hs, hv⟩ := Option.map_eq_some_iff.mp hrun
  obtain ⟨hlive, hpeak⟩ := Prod.mk.inj hv
  exact ⟨s, hs, interleaving_of_run (by decide +kernel) hs, hlive, hpeak⟩

end MAlloc.Stats
