/-
  An allocator and its clients.

  A step is one call by a thread, a byte written by a client, or the exit of a thread.
  `ClientSys` keeps a ledger beside the allocator: an entry for each live allocation, every
  pointer that was returned, and the usage after each allocation and each free (a
  `reallocate` that moves a block is both). Clients pass null or a live pointer to
  `deallocate` and `reallocate`; with leak tracking they may pass anything.

  `Sound s live` connects the ledger with the allocator: it is about the memory (`Live`), the
  registry (`Registry`) and the counters (`Accounts`). `Good s live` adds that all guard bytes are
  intact, as they are while clients write only where they may. Every step preserves both, and
  `Carried` says what becomes of the allocations that were live before it.
-/
import MAlloc.Client.Calls
import MAlloc.Lib.Keyed
import MAlloc.Lib.Run
import Mathlib.Algebra.Order.BigOperators.Group.List

namespace MAlloc.Client

open Lib AllocatorImpl DebugLayer

/-! ## The system -/

/-- A live allocation, as the client knows it, with the `reserved` recorded when it was made. -/
structure Entry where
  ptr : Nat
  size : Nat
  align : Nat
  reserved : Nat
  deriving DecidableEq, Repr

def Entry.range (e : Entry) : Span := ⟨e.ptr, e.size⟩

structure ClientSys where
  impl : AllocatorImpl
  ledger : List Entry := []
  returned : List Nat := []
  history : List Nat := []

inductive ClientCall where
  | request (t : Nat) (r : Request)
  | reallocate (t ptr newSize : Nat)
  | deallocate (t ptr : Nat)
  | write (addr : Nat) (value : UInt8)
  | exit (t : Nat)
  deriving DecidableEq, Repr

namespace ClientSys

abbrev mem (s : ClientSys) : Mem := s.impl.tiers.mem

/-- The pointers that are live. -/
def pointers (s : ClientSys) : List Nat := s.ledger.map Entry.ptr

/-- The allocation `e` has been made, and the allocator is in state `impl`. -/
def opened (s : ClientSys) (impl : AllocatorImpl) (e : Entry) : ClientSys where
  impl := impl
  ledger := e :: s.ledger
  returned := e.ptr :: s.returned
  history := impl.stats.liveRequested :: s.history

/-- The allocation at `ptr` is gone, and the allocator is in state `impl`. -/
def closed (s : ClientSys) (impl : AllocatorImpl) (ptr : Nat) : ClientSys where
  impl := impl
  ledger := s.ledger.filter fun e => decide (e.ptr ≠ ptr)
  returned := s.returned
  history := impl.stats.liveRequested :: s.history

/-- What a client may pass to `deallocate` and `reallocate`. -/
def Allowed (s : ClientSys) (ptr : Nat) : Prop :=
  ptr = 0 ∨ ptr ∈ s.pointers ∨ s.impl.config.enableLeakTracking = true

instance (s : ClientSys) (ptr : Nat) : Decidable (s.Allowed ptr) := inferInstanceAs (Decidable (_ ∨ _))

def request (s : ClientSys) (t : Nat) (r : Request) : ClientSys :=
  match r.run s.impl t with
  | (.ok ptr, impl) => s.opened impl ⟨ptr, r.size, r.align, r.reserved s.impl t⟩
  | (.error _, impl) => { s with impl := impl }

def deallocate (s : ClientSys) (t ptr : Nat) : ClientSys :=
  match s.impl.deallocate t ptr with
  | (.ok (), impl) => if ptr = 0 then { s with impl := impl } else s.closed impl ptr
  | (.error _, impl) => { s with impl := impl }

/-- A `reallocate` that moves a block is an allocation, in the state its inner `allocate` leaves,
    and then a free. -/
def reallocate (s : ClientSys) (t ptr newSize : Nat) : ClientSys :=
  match s.impl.reallocate t ptr newSize with
  | (.ok (some fresh), impl) =>
    let r := Request.allocate newSize
    let e : Entry := ⟨fresh, r.size, r.align, r.reserved s.impl t⟩
    if ptr = 0 then s.opened impl e
    else (s.opened (s.impl.allocate t newSize).2 e).closed impl ptr
  | (.ok none, impl) => s.closed impl ptr
  | (.error _, impl) => { s with impl := impl }

def step (s : ClientSys) (call : ClientCall) : Option ClientSys :=
  if s.impl.aborted then none
  else
    match call with
    | .request t r => some (s.request t r)
    | .reallocate t ptr newSize =>
      if s.Allowed ptr then some (s.reallocate t ptr newSize) else none
    | .deallocate t ptr => if s.Allowed ptr then some (s.deallocate t ptr) else none
    | .write addr value =>
      if s.ledger.any fun e => decide (e.range.Has addr) then
        some { s with impl := { s.impl with
          tiers := s.impl.tiers.setMem (Function.update s.mem addr value) } }
      else none
    | .exit t => some { s with impl := { s.impl with tiers := s.impl.tiers.exit t } }

/-- An allocator that has just been made. -/
def start (cfg : AllocatorConfig) (w : World) (faults : List Bool) : ClientSys where
  impl := { config := cfg, tiers := { world := w, cacheFaults := faults } }

end ClientSys

/-! ## The invariant -/

/-- The registry and the ledger agree. -/
structure Registry (d : DebugLayer) (ledger : List Entry) (returned : List Nat) : Prop where
  live : d.live.Perm (ledger.map fun e => (e.ptr, e.size))
  freed : ∀ p, p ∈ d.freed ↔ p ∈ returned ∧ p ∉ ledger.map Entry.ptr

def sizes (ledger : List Entry) : Nat := (ledger.map Entry.size).sum

def reserves (ledger : List Entry) : Nat := (ledger.map Entry.reserved).sum

/-- The largest usage so far. -/
def highest (history : List Nat) : Nat := history.foldr max 0

/-- The counters and the ledger agree, modulo `2^64`. -/
structure Accounts (c : StatisticsCollector) (ledger : List Entry) (history : List Nat) : Prop where
  active : c.activeAllocations = ledger.length % 2 ^ 64
  count : c.allocationCount = (c.freeCount + ledger.length) % 2 ^ 64
  usage : c.liveRequested = sizes ledger % 2 ^ 64
  bytes : c.allocatedBytes = (c.freedBytes + sizes ledger) % 2 ^ 64
  reserved : c.liveReserved = reserves ledger % 2 ^ 64
  peak : c.peakUsage = highest history
  reached : c.liveRequested ≤ c.peakUsage

def Entry.key (e : Entry) : Nat × Nat × Nat := (e.ptr, e.size, e.reserved)

def Alloc.key (a : Alloc) : Nat × Nat × Nat := (a.ptr, a.size, a.raw.reserved)

/-- The ledger and the allocator agree; nothing is said about guard bytes. -/
structure Sound (s : ClientSys) (live : List Alloc) : Prop where
  memory : Live s.impl.tiers live
  keys : (live.map Alloc.key).Perm (s.ledger.map Entry.key)
  aligned : ∀ e ∈ s.ledger, e.ptr % 16 = 0 ∧ e.ptr % e.align = 0
  returned : ∀ e ∈ s.ledger, e.ptr ∈ s.returned
  registry : s.impl.config.enableLeakTracking = true → Registry s.impl.debug s.ledger s.returned
  accounts : Accounts s.impl.stats s.ledger s.history

structure Good (s : ClientSys) (live : List Alloc) : Prop extends Sound s live where
  guards : ∀ a ∈ live, a.Guarded s.mem

/-- What stays live through a step keeps its bytes, and no refusal is forgotten. -/
structure Untouched (s s' : ClientSys) : Prop where
  bytes : ∀ e ∈ s.ledger, e ∈ s'.ledger → SameOn s.mem s'.mem e.ptr e.size
  refusals : s.impl.tiers.world.refusals ≤ s'.impl.tiers.world.refusals

/-! ## Totals -/

section Totals
variable {T : Tiers} {live : List Alloc}

/-- The raw blocks of all live allocations fit in the address space together. -/
theorem Live.sum_spans (h : Live T live) : ((spans live).map Span.size).sum < 2 ^ 64 := by
  obtain ⟨parts, segs, hr⟩ := h.raw.tiers
  have hle := Span.sum_size_le (N := 2 ^ 64 - 1) hr.apart fun u hu => by
    obtain ⟨b, hb, rfl⟩ := List.mem_map.mp hu
    have := hr.span_bound hb
    unfold Raw.Block.span
    simp only
    omega
  unfold spans
  omega

theorem Live.sum_le (h : Live T live) {f : Alloc → Nat} (hf : ∀ a ∈ live, f a ≤ a.raw.span.size) :
    (live.map f).sum < 2 ^ 64 := by
  have hs := h.sum_spans
  unfold spans at hs
  rw [List.map_map, List.map_map] at hs
  exact lt_of_le_of_lt (List.sum_le_sum hf) hs

end Totals

section Ledger
variable {s : ClientSys} {live : List Alloc} {a : Alloc} {e : Entry}

theorem map_key_ptr (live : List Alloc) : (live.map Alloc.key).map Prod.fst = live.map Alloc.ptr := by
  rw [List.map_map]
  rfl

theorem map_entry_ptr (ledger : List Entry) : (ledger.map Entry.key).map Prod.fst = ledger.map Entry.ptr := by
  rw [List.map_map]
  rfl

theorem Sound.ptrs (h : Sound s live) : (live.map Alloc.ptr).Perm s.pointers := by
  have := h.keys.map Prod.fst
  rwa [map_key_ptr, map_entry_ptr] at this

theorem Sound.ptr_nodup (h : Sound s live) : s.pointers.Nodup := h.ptrs.nodup_iff.mp h.memory.ptr_nodup

/-- The allocation of an entry. -/
theorem Sound.alloc_of (h : Sound s live) (he : e ∈ s.ledger) : ∃ a ∈ live, a.key = e.key := by
  have := h.keys.mem_iff.mpr (List.mem_map_of_mem he)
  exact List.mem_map.mp this

theorem Sound.entry_of (h : Sound s live) (ha : a ∈ live) : ∃ e ∈ s.ledger, e.key = a.key := by
  have := h.keys.mem_iff.mp (List.mem_map_of_mem ha)
  exact List.mem_map.mp this

theorem Sound.alloc_of_ptr (h : Sound s live) {p : Nat} (hp : p ∈ s.pointers) : ∃ a ∈ live, a.ptr = p :=
  List.mem_map.mp (h.ptrs.mem_iff.mpr hp)

/-- The totals of the ledger are below `2^64`. -/
theorem Sound.totals (h : Sound s live) : sizes s.ledger < 2 ^ 64 ∧ reserves s.ledger < 2 ^ 64 ∧
    s.ledger.length < 2 ^ 64 ∧ sizes s.ledger ≤ reserves s.ledger := by
  have hb : ∀ a ∈ live, a.size ≤ a.raw.reserved ∧ 0 < a.size := fun a ha => by
    have h1 := h.memory.bounds ha
    have h2 := (h.memory.ok a ha).pos
    omega
  have hk1 : sizes s.ledger = (live.map Alloc.size).sum := by
    have := (h.keys.map fun k => k.2.1).sum_eq
    rw [List.map_map, List.map_map] at this
    exact this.symm
  have hk2 : reserves s.ledger = (live.map fun a => a.raw.reserved).sum := by
    have := (h.keys.map fun k => k.2.2).sum_eq
    rw [List.map_map, List.map_map] at this
    exact this.symm
  have hlen : s.ledger.length = live.length := by
    have := h.keys.length_eq
    simpa using this.symm
  have h1 := h.memory.sum_le (f := Alloc.size) fun a ha => by
    have := hb a ha
    unfold Raw.Block.span
    simp only
    omega
  have h2 := h.memory.sum_le (f := fun a => a.raw.reserved) fun a ha => by
    unfold Raw.Block.span
    simp only
    omega
  have h3 := h.memory.sum_le (f := fun _ => 1) fun a ha => by
    unfold Raw.Block.span
    simp only
    omega
  rw [hk1, hk2, hlen]
  refine ⟨h1, h2, ?_, List.sum_le_sum fun a ha => (hb a ha).1⟩
  simpa using h3

end Ledger

/-! ## Registry and counters -/

section Books
variable {d : DebugLayer} {c : StatisticsCollector} {ledger ledger' : List Entry} {returned history : List Nat}
  {e : Entry}

theorem Registry.opened (h : Registry d ledger returned) (hnew : e.ptr ∉ ledger.map Entry.ptr) :
    Registry (d.track e.ptr e.size) (e :: ledger) (e.ptr :: returned) := by
  constructor
  · have hsame : (d.live.filter fun k => decide (k.1 ≠ e.ptr)) = d.live := by
      refine List.filter_eq_self.mpr fun k hk => decide_eq_true fun he => hnew ?_
      obtain ⟨x, hx, rfl⟩ := List.mem_map.mp (h.live.mem_iff.mp hk)
      rw [← he]
      exact List.mem_map_of_mem hx
    unfold DebugLayer.track
    rw [hsame]
    exact h.live.cons _
  · intro p
    unfold DebugLayer.track
    rw [List.mem_filter, h.freed p, List.map_cons, List.mem_cons, List.mem_cons, decide_eq_true_eq]
    tauto

theorem Registry.closed (h : Registry d ledger returned) {p : Nat} (hp : p ∈ ledger.map Entry.ptr)
    (hret : p ∈ returned) : Registry (d.untrack p) (ledger.filter fun e => decide (e.ptr ≠ p)) returned := by
  have htr : d.isTracked p = true := by
    obtain ⟨e, he, rfl⟩ := List.mem_map.mp hp
    exact isTracked_iff.mpr ⟨e.size, h.live.mem_iff.mpr (List.mem_map.mpr ⟨e, he, rfl⟩)⟩
  unfold DebugLayer.untrack
  rw [if_pos htr]
  constructor
  · refine (h.live.filter _).trans (List.Perm.of_eq ?_)
    rw [List.filter_map]
    rfl
  · intro q
    have hmem : q ∈ (ledger.filter fun e => decide (e.ptr ≠ p)).map Entry.ptr ↔
        q ∈ ledger.map Entry.ptr ∧ q ≠ p := by
      constructor
      · intro hq
        obtain ⟨e, he, rfl⟩ := List.mem_map.mp hq
        obtain ⟨he, hne⟩ := List.mem_filter.mp he
        exact ⟨List.mem_map_of_mem he, of_decide_eq_true hne⟩
      · rintro ⟨hq, hne⟩
        obtain ⟨e, he, rfl⟩ := List.mem_map.mp hq
        exact List.mem_map_of_mem (List.mem_filter.mpr ⟨he, decide_eq_true hne⟩)
    dsimp only
    rw [List.mem_cons, List.mem_filter, h.freed q, decide_eq_true_eq, hmem]
    by_cases hqp : q = p
    · subst hqp
      tauto
    · tauto

theorem highest_cons (u : Nat) (history : List Nat) : highest (u :: history) = max u (highest history) :=
  rfl

theorem Accounts.opened (h : Accounts c ledger history) :
    Accounts (c.recordAllocation e.size e.reserved) (e :: ledger)
      ((c.recordAllocation e.size e.reserved).liveRequested :: history) := by
  have h1 := h.active
  have h2 := h.count
  have h3 := h.usage
  have h4 := h.bytes
  have h5 := h.reserved
  have hs : sizes (e :: ledger) = e.size + sizes ledger := by simp [sizes]
  have hr : reserves (e :: ledger) = e.reserved + reserves ledger := by simp [reserves]
  have hl : (e :: ledger).length = ledger.length + 1 := List.length_cons
  have hp := h.peak
  have hpk : ∀ (c' : StatisticsCollector) (u : Nat), (c'.updatePeak u).allocationCount = c'.allocationCount ∧
      (c'.updatePeak u).freeCount = c'.freeCount ∧
      (c'.updatePeak u).activeAllocations = c'.activeAllocations ∧
      (c'.updatePeak u).liveRequested = c'.liveRequested ∧
      (c'.updatePeak u).liveReserved = c'.liveReserved ∧
      (c'.updatePeak u).allocatedBytes = c'.allocatedBytes ∧
      (c'.updatePeak u).freedBytes = c'.freedBytes ∧ (c'.updatePeak u).peakUsage = max u c'.peakUsage := by
    intro c' u
    unfold StatisticsCollector.updatePeak
    split
    · refine ⟨rfl, rfl, rfl, rfl, rfl, rfl, rfl, ?_⟩
      simp only
      omega
    · exact ⟨rfl, rfl, rfl, rfl, rfl, rfl, rfl, by omega⟩
  unfold StatisticsCollector.recordAllocation
  dsimp only
  constructor <;> simp only [hpk, hs, hr, hl, highest_cons, ← hp, fetchAdd]
  · omega
  · omega
  · omega
  · omega
  · omega
  · omega

theorem Accounts.closed (h : Accounts c ledger history) (hperm : ledger.Perm (e :: ledger'))
    (hsum : sizes ledger < 2 ^ 64) :
    Accounts (c.recordFree e.size e.reserved) ledger'
      ((c.recordFree e.size e.reserved).liveRequested :: history) := by
  have h1 := h.active
  have h2 := h.count
  have h3 := h.usage
  have h4 := h.bytes
  have h5 := h.reserved
  have hp := h.peak
  have h6 := h.reached
  have hs : sizes ledger = e.size + sizes ledger' := by
    unfold sizes
    rw [(hperm.map Entry.size).sum_eq, List.map_cons, List.sum_cons]
  have hr : reserves ledger = e.reserved + reserves ledger' := by
    unfold reserves
    rw [(hperm.map Entry.reserved).sum_eq, List.map_cons, List.sum_cons]
  have hl : ledger.length = ledger'.length + 1 := by
    rw [hperm.length_eq, List.length_cons]
  rw [hs] at h3 h4 hsum
  rw [hr] at h5
  rw [hl] at h1 h2
  unfold StatisticsCollector.recordFree
  constructor <;> simp only [highest_cons, ← hp, fetchAdd, fetchSub]
  · omega
  · omega
  · omega
  · omega
  · omega
  · omega
  · omega

end Books

/-! ## The steps -/

section Steps
variable {s : ClientSys} {live : List Alloc} {a : Alloc} {T' : Tiers}

theorem enroll_stats (i : AllocatorImpl) (user n r : Nat) :
    (i.enroll user n r).stats = i.stats.recordAllocation n r := by
  unfold AllocatorImpl.enroll
  dsimp only
  split <;> rfl

theorem enroll_debug (i : AllocatorImpl) (user n r : Nat) (h : i.config.enableLeakTracking = true) :
    (i.enroll user n r).debug = i.debug.track user n := by
  unfold AllocatorImpl.enroll
  dsimp only
  rw [if_pos h]

theorem discharge_tiers (i : AllocatorImpl) (p n r : Nat) : (i.discharge p n r).tiers = i.tiers := by
  unfold AllocatorImpl.discharge
  dsimp only
  split <;> rfl

theorem discharge_config (i : AllocatorImpl) (p n r : Nat) : (i.discharge p n r).config = i.config := by
  unfold AllocatorImpl.discharge
  dsimp only
  split <;> rfl

theorem discharge_stats (i : AllocatorImpl) (p n r : Nat) :
    (i.discharge p n r).stats = i.stats.recordFree n r := by
  unfold AllocatorImpl.discharge
  dsimp only
  split <;> rfl

theorem discharge_debug (i : AllocatorImpl) (p n r : Nat) (h : i.config.enableLeakTracking = true) :
    (i.discharge p n r).debug = i.debug.untrack p := by
  unfold AllocatorImpl.discharge
  dsimp only
  rw [if_pos h]

theorem enroll_reports (i : AllocatorImpl) (user n r : Nat) : (i.enroll user n r).reports = i.reports := by
  unfold AllocatorImpl.enroll
  dsimp only
  split <;> rfl

theorem discharge_reports (i : AllocatorImpl) (p n r : Nat) :
    (i.discharge p n r).reports = i.reports := by
  unfold AllocatorImpl.discharge
  dsimp only
  split <;> rfl

/-- What a step that writes no user byte does to the allocations: those whose pointers stay live are
    the same ones with the same bytes, and new ones have their guards. Off the blocks that are live
    before or after, memory changes tamely. -/
structure Carried (s s' : ClientSys) (live live' : List Alloc) : Prop where
  stays : ∀ a ∈ live, a.ptr ∈ s'.pointers → a ∈ live'
  goes : ∀ a ∈ live, a.ptr ∉ s'.pointers → a.Gone s'.impl.tiers
  fresh : ∀ a ∈ live', a ∈ live ∨ a.Guarded s'.mem ∧ a.raw.New s.impl.tiers
  bytes : ∀ a ∈ live, a ∈ live' → SameOn s.mem s'.mem a.raw.span.data a.raw.span.size
  refusals : s.impl.tiers.world.refusals ≤ s'.impl.tiers.world.refusals
  tame : ∀ x, x % 16 = 0 → (∀ a ∈ live, a.raw.span.Disjoint ⟨x, 16⟩) →
    (∀ a ∈ live', a.raw.span.Disjoint ⟨x, 16⟩) → TameAt s.mem s'.mem x

theorem mem_spans (ha : a ∈ live) : a.raw.span ∈ spans live :=
  List.mem_map_of_mem (List.mem_map_of_mem ha)

/-- Nothing comes and nothing goes. -/
theorem Carried.of_keeps {s' : ClientSys} (h : Sound s live) (hp : s'.pointers = s.pointers)
    (hk : s.impl.tiers.world.Keeps s'.impl.tiers.world (spans live)) : Carried s s' live live := by
  refine ⟨fun _ ha _ => ha, fun a ha hout => ?_, fun _ ha => Or.inl ha,
    fun _ ha _ => hk.bytes _ (mem_spans ha), hk.refusals, fun x hx _ _ => hk.tame x hx (by simp)⟩
  rw [hp] at hout
  exact absurd (h.ptrs.mem_iff.mp (List.mem_map_of_mem ha)) hout

/-- The entries that stay keep their bytes. -/
theorem Carried.untouched {s' : ClientSys} {live' : List Alloc} (hc : Carried s s' live live')
    (h : Sound s live) : Untouched s s' := by
  refine ⟨fun e he he' => ?_, hc.refusals⟩
  obtain ⟨a, ha, hkey⟩ := h.alloc_of he
  have hptr : a.ptr = e.ptr := congrArg Prod.fst hkey
  have hsize : a.size = e.size := congrArg (fun k => k.2.1) hkey
  have hstay : a ∈ live' := hc.stays a ha (by rw [hptr]; exact List.mem_map_of_mem he')
  have hi := Alloc.range_inside h.memory ha
  unfold Alloc.range at hi
  rw [hptr, hsize] at hi
  exact (hc.bytes a ha hstay).mono hi.1 hi.2

/-- Memory has changed, and nothing else the ledger is about. -/
theorem Sound.frame (h : Sound s live) {i : AllocatorImpl} (hl : Live i.tiers live)
    (hc : i.config = s.impl.config) (hd : i.debug = s.impl.debug) (hs : i.stats = s.impl.stats) :
    Sound { s with impl := i } live :=
  ⟨hl, h.keys, h.aligned, h.returned, fun ht => by
    rw [hd]
    exact h.registry (by rw [← hc]; exact ht), by rw [hs]; exact h.accounts⟩

/-- An error report changes nothing the ledger is about. -/
theorem Sound.report (h : Sound s live) {T' : Tiers} (hl : Live T' live) (e : Error) (p : Nat) :
    Sound { s with impl := { s.impl with tiers := T' }.report e p } live :=
  h.frame hl rfl rfl rfl

/-- An allocation has been made. -/
theorem Sound.opened (h : Sound s live) (hl : Live T' (a :: live)) {align : Nat} (h16 : a.ptr % 16 = 0)
    (halign : a.ptr % align = 0) :
    Sound (s.opened ({ s.impl with tiers := T' }.enroll a.ptr a.size a.raw.reserved)
      ⟨a.ptr, a.size, align, a.raw.reserved⟩) (a :: live) := by
  have hnew : a.ptr ∉ s.ledger.map Entry.ptr := fun hin =>
    (List.nodup_cons.mp hl.ptr_nodup).1 (h.ptrs.mem_iff.mpr hin)
  refine ⟨by rw [ClientSys.opened, enroll_tiers]; exact hl, h.keys.cons _, ?_, ?_, fun ht => ?_, ?_⟩
  · exact List.forall_mem_cons.mpr ⟨⟨h16, halign⟩, h.aligned⟩
  · exact List.forall_mem_cons.mpr ⟨List.mem_cons_self, fun e he =>
      List.mem_cons_of_mem _ (h.returned e he)⟩
  · have ht' : s.impl.config.enableLeakTracking = true := by
      rw [ClientSys.opened, enroll_config] at ht
      exact ht
    unfold ClientSys.opened
    dsimp only
    rw [enroll_debug { s.impl with tiers := T' } _ _ _ ht']
    exact (h.registry ht').opened (e := ⟨a.ptr, a.size, align, a.raw.reserved⟩) hnew
  · unfold ClientSys.opened
    dsimp only
    rw [enroll_stats]
    exact h.accounts.opened (e := ⟨a.ptr, a.size, align, a.raw.reserved⟩)

/-- An allocation is gone. -/
theorem Sound.closed (h : Sound s live) (ha : a ∈ live) (hl : Live T' (live.erase a)) :
    Sound (s.closed ({ s.impl with tiers := T' }.discharge a.ptr a.size a.raw.reserved) a.ptr)
      (live.erase a) := by
  obtain ⟨e, he, hkey⟩ := h.entry_of ha
  have hptr : e.ptr = a.ptr := congrArg Prod.fst hkey
  have hsize : e.size = a.size := congrArg (fun k => k.2.1) hkey
  have hres : e.reserved = a.raw.reserved := congrArg (fun k => k.2.2) hkey
  have hperm := perm_filter_key (f := Entry.ptr) h.ptr_nodup he
  rw [hptr] at hperm
  refine ⟨by rw [ClientSys.closed, discharge_tiers]; exact hl, ?_, fun d hd => ?_, fun d hd => ?_,
    fun ht => ?_, ?_⟩
  · have h1 := (List.perm_cons_erase ha).map Alloc.key
    have h2 := hperm.map Entry.key
    rw [List.map_cons] at h1 h2
    rw [hkey] at h2
    exact ((h1.symm.trans h.keys).trans h2).cons_inv
  · exact h.aligned d (List.mem_of_mem_filter hd)
  · exact h.returned d (List.mem_of_mem_filter hd)
  · have ht' : s.impl.config.enableLeakTracking = true := by
      rw [ClientSys.closed, discharge_config] at ht
      exact ht
    unfold ClientSys.closed
    dsimp only
    rw [discharge_debug { s.impl with tiers := T' } _ _ _ ht']
    have hp : a.ptr ∈ s.ledger.map Entry.ptr := by
      rw [← hptr]
      exact List.mem_map_of_mem he
    refine (h.registry ht').closed hp ?_
    rw [← hptr]
    exact h.returned e he
  · unfold ClientSys.closed
    dsimp only
    rw [discharge_stats, ← hsize, ← hres]
    exact h.accounts.closed hperm h.totals.1

/-- A live pointer passes the registry. -/
theorem Sound.passes (h : Sound s live) (ha : a ∈ live) : Passes s.impl a.ptr := by
  intro ht
  obtain ⟨e, he, hkey⟩ := h.entry_of ha
  have hptr : e.ptr = a.ptr := congrArg Prod.fst hkey
  rw [← hptr]
  exact isTracked_iff.mpr ⟨e.size, (h.registry ht).live.mem_iff.mpr (List.mem_map.mpr ⟨e, he, rfl⟩)⟩

/-- A pointer that is not live does not pass. -/
theorem Sound.not_tracked (h : Sound s live) (ht : s.impl.config.enableLeakTracking = true) {p : Nat}
    (hp : p ∉ s.pointers) : s.impl.debug.isTracked p = false := by
  by_contra htr
  obtain ⟨n, hn⟩ := isTracked_iff.mp (Bool.of_not_eq_false htr)
  obtain ⟨e, he, hpe⟩ := List.mem_map.mp ((h.registry ht).live.mem_iff.mp hn)
  exact hp (List.mem_map.mpr ⟨e, he, congrArg Prod.fst hpe⟩)

/-- A call of `allocate` or `alignedAllocate`. -/
theorem request_sound (h : Sound s live) (t : Nat) (r : Request) :
    ∃ live', Sound (s.request t r) live' ∧ Carried s (s.request t r) live live' := by
  have hout := Request.run_spec h.memory t r
  unfold ClientSys.request
  generalize r.run s.impl t = q at *
  cases hout with
  | rejected hv => exact ⟨live, h.report h.memory _ _, Carried.of_keeps h rfl (World.Keeps.refl _ _)⟩
  | refused hv hl hk href => exact ⟨live, h.report hl _ _, Carried.of_keeps h rfl hk⟩
  | @served T' a hv hl hsize halign hres hk hpoison hguard hnew =>
    dsimp only
    rw [← hsize, ← hres]
    refine ⟨a :: live, h.opened hl (hl.ptr_mod_16 List.mem_cons_self) halign, ?_⟩
    refine ⟨fun d hd _ => List.mem_cons_of_mem _ hd, fun d hd hout => ?_, fun d hd => ?_,
      fun d hd _ => ?_, ?_, fun x hx _ hd => ?_⟩
    · exact absurd (List.mem_cons_of_mem _ (h.ptrs.mem_iff.mp (List.mem_map_of_mem hd))) hout
    · rcases List.mem_cons.mp hd with rfl | hd
      · exact Or.inr ⟨by rw [ClientSys.opened, ClientSys.mem, enroll_tiers]; exact hguard, hnew⟩
      · exact Or.inl hd
    · rw [ClientSys.opened, ClientSys.mem, ClientSys.mem, enroll_tiers]
      exact hk.bytes _ (mem_spans hd)
    · rw [ClientSys.opened, enroll_tiers]
      exact hk.refusals
    · rw [ClientSys.opened, ClientSys.mem, ClientSys.mem, enroll_tiers]
      exact hk.tame x hx (by simpa using hd a List.mem_cons_self)

/-- What a rejected pointer leads to. -/
theorem deallocate_rejected (h : Sound s live) (ht : s.impl.config.enableLeakTracking = true) (t : Nat)
    {p : Nat} (h0 : p ≠ 0) (hp : p ∉ s.pointers) :
    s.impl.deallocate t p =
      s.impl.fail (if s.impl.debug.wasFreed p then .DoubleFree else .InvalidPointer) p := by
  unfold AllocatorImpl.deallocate
  rw [if_neg h0, ht, h.not_tracked ht hp]
  rfl

theorem allocationSize_rejected (h : Sound s live) (ht : s.impl.config.enableLeakTracking = true)
    {p : Nat} (hp : p ∉ s.pointers) : s.impl.allocationSize p = 0 := by
  unfold AllocatorImpl.allocationSize
  rw [ht, h.not_tracked ht hp]
  split <;> rfl

/-- What is freed while guards may be broken; a report of them must not end the process. -/
def Lenient (s : ClientSys) (live : List Alloc) (p : Nat) : Prop :=
  ∀ a ∈ live, a.ptr = p → s.impl.config.abortOnError = false ∨ a.Guarded s.mem

/-- The call frees no block at `p`. -/
def ClientCall.Spares (p : Nat) : ClientCall → Prop
  | .deallocate _ q => q ≠ p
  | .reallocate _ q _ => q ≠ p
  | _ => True

theorem Good.lenient (h : Good s live) {p : Nat} : Lenient s live p :=
  fun a ha _ => Or.inr (h.guards a ha)

/-- An allocation whose pointer is not the one taken out stays. -/
theorem stays_erase {i : AllocatorImpl} (s₀ : ClientSys) {d : Alloc} (hd : d ∈ live)
    (hin : d.ptr ∈ (s₀.closed i a.ptr).pointers) : d ∈ live.erase a := by
  obtain ⟨e, he, hptr⟩ := List.mem_map.mp hin
  have hne := of_decide_eq_true (List.mem_filter.mp he).2
  refine (List.mem_erase_of_ne fun h0 => hne ?_).mpr hd
  rw [hptr, h0]

/-- The only pointer that is taken out is the one that is freed. -/
theorem mem_closed {i : AllocatorImpl} (s₀ : ClientSys) {p q : Nat} (hq : q ≠ p) (hp : q ∈ s₀.pointers) :
    q ∈ (s₀.closed i p).pointers := by
  obtain ⟨e, he, rfl⟩ := List.mem_map.mp hp
  exact List.mem_map_of_mem (List.mem_filter.mpr ⟨he, decide_eq_true hq⟩)

theorem Sound.goes_closed (h : Sound s live) {i : AllocatorImpl} {d : Alloc} (ha : a ∈ live)
    (hd : d ∈ live) (hout : d.ptr ∉ (s.closed i a.ptr).pointers) : d = a := by
  have hp : d.ptr = a.ptr := by
    by_contra hne
    exact hout (mem_closed s hne (h.ptrs.mem_iff.mp (List.mem_map_of_mem hd)))
  exact List.inj_on_of_nodup_map h.memory.ptr_nodup hd ha hp

theorem checked_frame (i : AllocatorImpl) (a : Alloc) : (checked i a).config = i.config ∧
    (checked i a).debug = i.debug ∧ (checked i a).stats = i.stats ∧ (checked i a).tiers = i.tiers := by
  unfold checked
  split <;> exact ⟨rfl, rfl, rfl, rfl⟩

/-- An allocation is gone, after the check of its guards. -/
theorem Sound.closed_checked (h : Sound s live) (ha : a ∈ live) (hl : Live T' (live.erase a)) :
    Sound (s.closed ({ checked s.impl a with tiers := T' }.discharge a.ptr a.size a.raw.reserved) a.ptr)
      (live.erase a) := by
  obtain ⟨hc, hd, hs, ht⟩ := checked_frame s.impl a
  have h1 : Sound { s with impl := checked s.impl a } live :=
    h.frame (by rw [ht]; exact h.memory) hc hd hs
  exact h1.closed ha hl

/-- `deallocate` of null, of a live pointer, or of one the registry rejects. -/
theorem deallocate_sound (h : Sound s live) (t : Nat) {p : Nat} (hg : Lenient s live p)
    (hp : s.Allowed p) :
    ∃ live', Sound (s.deallocate t p) live' ∧ Carried s (s.deallocate t p) live live' := by
  unfold ClientSys.deallocate
  by_cases h0 : p = 0
  · have he : s.impl.deallocate t p = (.ok (), s.impl) := by
      unfold AllocatorImpl.deallocate
      rw [if_pos h0]
    rw [he]
    dsimp only
    rw [if_pos h0]
    exact ⟨live, h, Carried.of_keeps h rfl (World.Keeps.refl _ _)⟩
  · by_cases hin : p ∈ s.pointers
    · obtain ⟨a, ha, rfl⟩ := h.alloc_of_ptr hin
      obtain ⟨T', -, he, hrel⟩ :=
        deallocate_checked h.memory ha (h.passes ha) (hg a ha rfl) t
      rw [he]
      dsimp only
      rw [if_neg h0]
      refine ⟨_, h.closed_checked ha hrel.live', fun d hd hp => stays_erase _ hd hp,
        fun d hd hout => ?_, fun d hd => Or.inl (List.mem_of_mem_erase hd), fun d _ hd => ?_, ?_,
        fun x hx hd _ => ?_⟩
      · rw [h.goes_closed ha hd hout, ClientSys.closed, discharge_tiers]
        exact hrel.gone
      · rw [ClientSys.closed, ClientSys.mem, ClientSys.mem, discharge_tiers]
        exact hrel.keeps.bytes _ (mem_spans hd)
      · rw [ClientSys.closed, discharge_tiers]
        exact hrel.keeps.refusals
      · rw [ClientSys.closed, ClientSys.mem, ClientSys.mem, discharge_tiers]
        exact hrel.keeps.tame x hx (by simpa using hd a ha)
    · have ht : s.impl.config.enableLeakTracking = true := by
        rcases hp with hp | hp | hp
        · exact absurd hp h0
        · exact absurd hp hin
        · exact hp
      rw [deallocate_rejected h ht t h0 hin]
      exact ⟨live, h.report h.memory _ _, Carried.of_keeps h rfl (World.Keeps.refl _ _)⟩

/-- The two halves of a `reallocate` that moves a block. -/
theorem Sound.moved {d : Alloc} {T'' : Tiers} {n align : Nat} (h : Sound s live) (hl : Live T' (d :: live))
    (halign : d.ptr % align = 0) (ha : a ∈ live) (hn : n ≤ d.size)
    (hrel : Released (T'.setMem (copy T'.mem d.ptr a.ptr n)) (d :: live) a T'') :
    Sound ((s.opened ({ s.impl with tiers := T' }.enroll d.ptr d.size d.raw.reserved)
      ⟨d.ptr, d.size, align, d.raw.reserved⟩).closed
        ({ checked (filled s.impl T' a d n) a with tiers := T'' }.discharge a.ptr a.size a.raw.reserved)
          a.ptr) ((d :: live).erase a) := by
  have h1 := h.opened hl (hl.ptr_mod_16 List.mem_cons_self) halign
  have hcopy : ∀ x, ¬ d.range.Has x → copy T'.mem d.ptr a.ptr n x = T'.mem x := fun x hx =>
    copy_of_not fun hx' => hx (by unfold Span.Has Alloc.range; simp only; omega)
  have h2 := h1.frame (i := filled s.impl T' a d n)
    (by rw [filled_tiers]; exact hl.write List.mem_cons_self hcopy) rfl rfl rfl
  exact h2.closed_checked (List.mem_cons_of_mem _ ha) hrel.live'

/-- What a `reallocate` that moves a block keeps. -/
theorem moved_keeps {d : Alloc} {T T'' : Tiers} {n : Nat} (hl : Live T' (d :: live)) (ha : a ∈ live)
    (hk : T.world.Keeps T'.world (spans live) [d.raw.span]) (hn : n ≤ d.size)
    (hrel : Released (T'.setMem (copy T'.mem d.ptr a.ptr n)) (d :: live) a T'') :
    T.world.Keeps T''.world (spans (live.erase a)) [d.raw.span, a.raw.span] := by
  have hda : d ≠ a := by
    rintro rfl
    exact (List.nodup_cons.mp hl.ptr_nodup).1 (List.mem_map_of_mem ha)
  have he : (d :: live).erase a = d :: live.erase a := List.erase_cons_tail (by simpa using hda)
  have h1 : T.world.Keeps T'.world (spans (live.erase a)) [d.raw.span] :=
    hk.subset (((List.erase_sublist).map _).map _).subset
  have hcopy : ∀ x, ¬ d.raw.span.Has x → copy T'.mem d.ptr a.ptr n x = T'.mem x := fun x hx =>
    copy_of_not fun hx' => hx ((Alloc.range_inside hl List.mem_cons_self).has (x := x) (by
      unfold Span.Has Alloc.range
      simp only
      omega))
  have h2 : T'.world.Keeps (T'.setMem (copy T'.mem d.ptr a.ptr n)).world (spans (live.erase a))
      [d.raw.span] := by
    refine World.Keeps.of_write hcopy fun u hu => ?_
    obtain ⟨b, hb, rfl⟩ := List.mem_map.mp hu
    obtain ⟨k, hk, rfl⟩ := List.mem_map.mp hb
    have hk' := List.mem_of_mem_erase hk
    rcases hl.eq_or_apart List.mem_cons_self (List.mem_cons_of_mem d hk') with rfl | hap
    · exact absurd (List.mem_map_of_mem hk') (List.nodup_cons.mp hl.ptr_nodup).1
    · exact hap
  have h3 := hrel.keeps
  rw [he] at h3
  have hin : ∀ u ∈ [d.raw.span], ∃ v ∈ [d.raw.span, a.raw.span], u.Inside v := fun u hu =>
    ⟨u, by rw [List.mem_singleton.mp hu]; simp, Nat.le_refl _, Nat.le_refl _⟩
  have hin' : ∀ u ∈ [a.raw.span], ∃ v ∈ [d.raw.span, a.raw.span], u.Inside v := fun u hu =>
    ⟨u, by rw [List.mem_singleton.mp hu]; simp, Nat.le_refl _, Nat.le_refl _⟩
  exact ((h1.trans h2).widen hin).trans ((h3.subset (List.subset_cons_self _ _)).widen hin')

/-- What stands in the fresh block after a `reallocate`: the bytes that fit, and behind them what
    `allocate` left there. -/
theorem moved_bytes {d : Alloc} {T T'' : Tiers} {n : Nat} (hl : Live T' (d :: live)) (ha : a ∈ live)
    (hk : T.world.Keeps T'.world (spans live) [d.raw.span]) (hn : n ≤ d.size) (hna : n ≤ a.size)
    (hrel : Released (T'.setMem (copy T'.mem d.ptr a.ptr n)) (d :: live) a T'') :
    (∀ k < n, T''.mem (d.ptr + k) = T.mem (a.ptr + k)) ∧
      ∀ k, n ≤ k → k < d.size → T''.mem (d.ptr + k) = T'.mem (d.ptr + k) := by
  have hda : d ≠ a := by
    rintro rfl
    exact (List.nodup_cons.mp hl.ptr_nodup).1 (List.mem_map_of_mem ha)
  have he : (d :: live).erase a = d :: live.erase a := List.erase_cons_tail (by simpa using hda)
  have hd := Alloc.range_inside hl List.mem_cons_self
  have hina := Alloc.range_inside hl (List.mem_cons_of_mem d ha)
  have hkeep : ∀ k < d.size, T''.mem (d.ptr + k) = copy T'.mem d.ptr a.ptr n (d.ptr + k) := by
    intro k hk
    have h3 := hrel.keeps
    rw [he] at h3
    refine h3.bytes d.raw.span List.mem_cons_self _ ?_ ?_ <;>
      unfold Span.Inside Alloc.range at hd <;> simp only at hd <;> omega
  refine ⟨fun k hk' => ?_, fun k h1 h2 => ?_⟩
  · rw [hkeep k (by omega), copy_at hk']
    refine hk.bytes a.raw.span (List.mem_map_of_mem (List.mem_map_of_mem ha)) _ ?_ ?_ <;>
      unfold Span.Inside Alloc.range at hina <;> simp only at hina <;> omega
  · rw [hkeep k h2]
    exact copy_of_not (by omega)

/-- `reallocate(nullptr, n)` is `allocate(n)`. -/
theorem reallocate_null (s : ClientSys) (t n : Nat) : s.reallocate t 0 n = s.request t (.allocate n) := by
  unfold ClientSys.reallocate ClientSys.request Request.run AllocatorImpl.reallocate
  dsimp only
  rw [if_pos rfl]
  generalize s.impl.allocate t n = q
  obtain ⟨res, i⟩ := q
  cases res <;> rfl

/-- `reallocate(p, 0)` is `deallocate(p)`. -/
theorem reallocate_zero (s : ClientSys) (t : Nat) {p : Nat} (hp : p ≠ 0) :
    s.reallocate t p 0 = s.deallocate t p := by
  unfold ClientSys.reallocate ClientSys.deallocate AllocatorImpl.reallocate
  rw [if_neg hp, if_pos rfl]
  generalize s.impl.deallocate t p = q
  obtain ⟨res, i⟩ := q
  cases res with
  | error e => rfl
  | ok u =>
    dsimp only
    rw [if_neg hp]

/-- `reallocate` of null, of a live pointer, or of one the registry rejects. -/
theorem reallocate_sound (h : Sound s live) (t : Nat) {p : Nat} (hg : Lenient s live p) (hp : s.Allowed p)
    (newSize : Nat) : ∃ live', Sound (s.reallocate t p newSize) live' ∧
      Carried s (s.reallocate t p newSize) live live' := by
  by_cases h0 : p = 0
  · rw [h0, reallocate_null]
    exact request_sound h t _
  · by_cases hn : newSize = 0
    · rw [hn, reallocate_zero s t h0]
      exact deallocate_sound h t hg hp
    · by_cases hin : p ∈ s.pointers
      · obtain ⟨a, ha, rfl⟩ := h.alloc_of_ptr hin
        have hout := reallocate_spec h.memory ha (h.passes ha) (hg a ha rfl) t
          (Nat.pos_of_ne_zero hn)
        unfold ClientSys.reallocate
        generalize s.impl.reallocate t a.ptr newSize = q at *
        cases hout with
        | failed heq hreq =>
          cases hreq with
          | rejected hv => exact ⟨live, h.report h.memory _ _, Carried.of_keeps h rfl (World.Keeps.refl _ _)⟩
          | refused hv hl hk href => exact ⟨live, h.report hl _ _, Carried.of_keeps h rfl hk⟩
        | @moved T' T'' d hv heq hl hsize hres hk hrel hpoison hguard hnew =>
          have hone : (Request.allocate newSize).size = newSize := if_neg hn
          subst hsize
          dsimp only
          rw [if_neg h0, hone, ← hres, heq]
          have hda : d ≠ a := by
            rintro rfl
            exact (List.nodup_cons.mp hl.ptr_nodup).1 (List.mem_map_of_mem ha)
          have her : (d :: live).erase a = d :: live.erase a := List.erase_cons_tail (by simpa using hda)
          have hkeep := moved_keeps hl ha hk (Nat.min_le_right _ _) hrel
          have hsound : Sound _ _ := h.moved hl (hl.ptr_mod_16 List.mem_cons_self) ha
            (Nat.min_le_right a.size d.size) hrel
          refine ⟨_, hsound, fun k hk' hin' => stays_erase _ (List.mem_cons_of_mem _ hk') hin',
            fun k hk' hout => ?_, fun k hk' => ?_, fun k hk' hk'' => ?_, ?_, fun x hx hd hd' => ?_⟩
          · have hka : k.ptr = a.ptr := by
              by_contra hne
              exact hout (mem_closed _ hne (List.mem_cons_of_mem _
                (h.ptrs.mem_iff.mp (List.mem_map_of_mem hk'))))
            rw [List.inj_on_of_nodup_map h.memory.ptr_nodup hk' ha hka, ClientSys.closed, discharge_tiers]
            exact hrel.gone
          · by_cases hkd : k = d
            · subst hkd
              refine Or.inr ⟨?_, hnew⟩
              rw [ClientSys.closed, ClientSys.mem, discharge_tiers]
              have hin' : k ∈ (k :: live).erase a := hk'
              refine hguard.congr (hl.ok k List.mem_cons_self).placed (hl.fits List.mem_cons_self)
                fun x hx _ => hrel.keeps.bytes _ (mem_spans hin') x hx.1 hx.2
            · rw [her] at hk'
              exact Or.inl (List.mem_of_mem_erase ((List.mem_cons.mp hk').resolve_left hkd))
          · rw [ClientSys.closed, ClientSys.mem, ClientSys.mem, discharge_tiers]
            rw [her] at hk''
            rcases List.mem_cons.mp hk'' with rfl | hk''
            · exact absurd (List.mem_map_of_mem hk') (List.nodup_cons.mp hl.ptr_nodup).1
            · exact hkeep.bytes _ (mem_spans hk'')
          · rw [ClientSys.closed, discharge_tiers]
            exact hkeep.refusals
          · rw [ClientSys.closed, ClientSys.mem, ClientSys.mem, discharge_tiers]
            refine hkeep.tame x hx fun u hu => ?_
            rcases List.mem_cons.mp hu with rfl | hu
            · exact hd' d (by rw [her]; exact List.mem_cons_self)
            · rw [List.mem_singleton.mp hu]
              exact hd a ha
      · have ht : s.impl.config.enableLeakTracking = true := by
          rcases hp with hp | hp | hp
          · exact absurd hp h0
          · exact absurd hp hin
          · exact hp
        unfold ClientSys.reallocate AllocatorImpl.reallocate
        rw [if_neg h0, if_neg hn, allocationSize_rejected h ht hin]
        exact ⟨live, h.report h.memory _ _, Carried.of_keeps h rfl (World.Keeps.refl _ _)⟩

/-- The allocation a client may write to at `addr`. -/
theorem Sound.alloc_at (h : Sound s live) {addr : Nat}
    (hany : (s.ledger.any fun e => decide (e.range.Has addr)) = true) :
    ∃ a ∈ live, a.range.Has addr := by
  obtain ⟨e, he, hx⟩ := List.any_eq_true.mp hany
  obtain ⟨a, ha, hkey⟩ := h.alloc_of he
  have h1 : a.ptr = e.ptr := congrArg Prod.fst hkey
  have h2 : a.size = e.size := congrArg (fun k => k.2.1) hkey
  refine ⟨a, ha, ?_⟩
  unfold Alloc.range
  rw [h1, h2]
  exact of_decide_eq_true hx

/-- A client writes a byte of a live allocation. -/
theorem Sound.write (h : Sound s live) (ha : a ∈ live) {addr : Nat} (hx : a.range.Has addr)
    (value : UInt8) : Sound { s with impl := { s.impl with
      tiers := s.impl.tiers.setMem (Function.update s.mem addr value) } } live := by
  refine h.frame (h.memory.write ha fun x hx' => ?_) rfl rfl rfl
  refine Function.update_of_ne ?_ _ _
  rintro rfl
  exact hx' hx

/-- What a step does to the allocations: those whose pointers stay live are the same ones, with the
    same bytes except the one a client writes, and new ones have their guards. -/
structure Stepped (call : ClientCall) (s s' : ClientSys) (live live' : List Alloc) : Prop where
  stays : ∀ a ∈ live, a.ptr ∈ s'.pointers → a ∈ live'
  goes : ∀ a ∈ live, a.ptr ∉ s'.pointers → a.Gone s'.impl.tiers
  fresh : ∀ a ∈ live', a ∈ live ∨ a.Guarded s'.mem ∧ a.raw.New s.impl.tiers
  bytes : ∀ a ∈ live, a ∈ live' → ∀ x, a.raw.span.Has x → (∀ v, call ≠ .write x v) →
    s'.mem x = s.mem x
  refusals : s.impl.tiers.world.refusals ≤ s'.impl.tiers.world.refusals
  tame : ∀ x, x % 16 = 0 → (∀ a ∈ live, a.raw.span.Disjoint ⟨x, 16⟩) →
    (∀ a ∈ live', a.raw.span.Disjoint ⟨x, 16⟩) → TameAt s.mem s'.mem x

theorem Carried.stepped {s' : ClientSys} {live' : List Alloc} (hc : Carried s s' live live')
    (call : ClientCall) : Stepped call s s' live live' :=
  ⟨hc.stays, hc.goes, hc.fresh, fun a ha ha' x hx _ => hc.bytes a ha ha' x hx.1 hx.2, hc.refusals, hc.tame⟩

/-- **Every step preserves what the ledger says.** -/
theorem step_sound {s s' : ClientSys} {call : ClientCall} (h : Sound s live)
    (hg : ∀ p, ¬ call.Spares p → Lenient s live p)
    (hs : s.step call = some s') : ∃ live', Sound s' live' ∧ Stepped call s s' live live' := by
  have hun : (∃ live', Sound s' live' ∧ Carried s s' live live') →
      ∃ live', Sound s' live' ∧ Stepped call s s' live live' := fun ⟨live', hs', hc⟩ =>
    ⟨live', hs', hc.stepped call⟩
  unfold ClientSys.step at hs
  by_cases hab : s.impl.aborted = true
  · rw [if_pos hab] at hs
    cases hs
  rw [if_neg hab] at hs
  cases call with
  | request t r =>
    cases hs
    exact hun (request_sound h t r)
  | reallocate t p newSize =>
    dsimp only at hs
    by_cases hp : s.Allowed p
    · rw [if_pos hp] at hs
      cases hs
      exact hun (reallocate_sound h t (hg p (by simp [ClientCall.Spares])) hp newSize)
    · rw [if_neg hp] at hs
      cases hs
  | deallocate t p =>
    dsimp only at hs
    by_cases hp : s.Allowed p
    · rw [if_pos hp] at hs
      cases hs
      exact hun (deallocate_sound h t (hg p (by simp [ClientCall.Spares])) hp)
    · rw [if_neg hp] at hs
      cases hs
  | write addr value =>
    dsimp only at hs
    by_cases hany : (s.ledger.any fun e => decide (e.range.Has addr)) = true
    · rw [if_pos hany] at hs
      cases hs
      obtain ⟨a, ha, hx⟩ := h.alloc_at hany
      refine ⟨live, h.write ha hx value, fun _ hd _ => hd,
        fun d hd hout => absurd (h.ptrs.mem_iff.mp (List.mem_map_of_mem hd)) hout, fun _ hd => Or.inl hd,
        fun d _ _ x _ hne => Function.update_of_ne ?_ _ _, Nat.le_refl _, fun x _ hd _ => ?_⟩
      · rintro rfl
        exact hne value rfl
      · refine TameAt.of_same fun y h1 h2 => Function.update_of_ne ?_ _ _
        rintro rfl
        exact (hd a ha).not_has ((Alloc.range_inside h.memory ha).has hx) ⟨h1, h2⟩
    · rw [if_neg hany] at hs
      cases hs
  | exit t =>
    cases hs
    obtain ⟨hok, hk, -⟩ := Raw.exit_spec h.memory.raw t
    exact hun ⟨live, h.frame ⟨hok, h.memory.ok_keeps (fun _ hd => hd) hk⟩ rfl rfl rfl,
      Carried.of_keeps h rfl hk⟩

/-- A byte a client may write is no other byte of a raw block. -/
theorem Sound.write_inside (h : Sound s live) {s' : ClientSys} {x : Nat} {v : UInt8}
    (hs : s.step (.write x v) = some s') (ha : a ∈ live) (hx : a.raw.span.Has x) : a.range.Has x := by
  unfold ClientSys.step at hs
  split at hs
  · cases hs
  dsimp only at hs
  split at hs
  · rename_i hany
    obtain ⟨d, hd, hxd⟩ := h.alloc_at hany
    rcases h.memory.eq_or_apart ha hd with rfl | hap
    · exact hxd
    · exact absurd ((Alloc.range_inside h.memory hd).has hxd) (hap.not_has hx)
  · cases hs

/-- Intact guards stay intact. -/
theorem step_stepped {s s' : ClientSys} {call : ClientCall} (h : Good s live)
    (hs : s.step call = some s') : ∃ live', Good s' live' ∧ Stepped call s s' live live' := by
  obtain ⟨live', hs', hst⟩ := step_sound h.toSound (fun _ _ => h.lenient) hs
  refine ⟨live', ⟨hs', fun a ha => ?_⟩, hst⟩
  rcases hst.fresh a ha with hold | hnew
  · refine (h.guards a hold).congr (hs'.memory.ok a ha).placed (hs'.memory.fits ha) fun x hx hxr => ?_
    refine hst.bytes a hold ha x hx fun v hcall => hxr ?_
    rw [hcall] at hs
    exact h.write_inside hs hold hx
  · exact hnew.1

/-- **Every step preserves the invariant**, and no step changes a byte that stays live, except the
    byte a client writes. -/
theorem step_good {s s' : ClientSys} {call : ClientCall} (h : Good s live) (hs : s.step call = some s') :
    (∃ live', Good s' live') ∧
      (∀ e ∈ s.ledger, e ∈ s'.ledger → ∀ x, e.range.Has x → (∀ v, call ≠ .write x v) →
        s'.mem x = s.mem x) ∧
      s.impl.tiers.world.refusals ≤ s'.impl.tiers.world.refusals := by
  obtain ⟨live', hs', hst⟩ := step_stepped h hs
  refine ⟨⟨live', hs'⟩, fun e he he' x hx hne => ?_, hst.refusals⟩
  obtain ⟨a, ha, hkey⟩ := h.alloc_of he
  have hptr : a.ptr = e.ptr := congrArg Prod.fst hkey
  have hsize : a.size = e.size := congrArg (fun k => k.2.1) hkey
  have hstay : a ∈ live' := hst.stays a ha (by rw [hptr]; exact List.mem_map_of_mem he')
  refine hst.bytes a ha hstay x ((Alloc.range_inside h.memory ha).has ?_) hne
  unfold Alloc.range
  rw [hptr, hsize]
  exact hx

/-- An allocator that has just been made. -/
theorem start_good (cfg : AllocatorConfig) (m : Mem) (page : PageSize) (answers : List (Option Nat))
    (faults : List Bool) : Good (ClientSys.start cfg (World.boot m page answers) faults) [] := by
  have hw := World.boot_ok m page answers
  have hraw : Raw.RawTiers (ClientSys.start cfg (World.boot m page answers) faults).impl.tiers []
      (fun _ _ => []) [] := by
    have hruns : Small.allRuns (fun _ => {}) = [] := by simp [Small.allRuns]
    refine ⟨Small.smallOk_empty hw, ?_, by simp [Heap.Retained], by simp [ClientSys.start],
      fun _ _ => List.Perm.refl _, List.Perm.refl _, List.Perm.refl _, by simp, List.Pairwise.nil⟩
    change Heap.HeapOk _ {} [] (Small.allRuns (fun _ => {}) ++ [])
    rw [hruns]
    exact Heap.heapOk_empty hw
  exact ⟨⟨⟨⟨⟨_, _, hraw⟩, by simp⟩, by simp⟩, List.Perm.refl _, by simp [ClientSys.start],
    by simp [ClientSys.start], fun _ => ⟨List.Perm.refl _, by simp [ClientSys.start]⟩,
    ⟨rfl, rfl, rfl, rfl, rfl, rfl, Nat.le_refl _⟩⟩, by simp⟩

/-- A pointer that is spared stays live. -/
theorem step_spares {s s' : ClientSys} {call : ClientCall} {p : Nat} (hs : s.step call = some s')
    (hsp : call.Spares p) (hp : p ∈ s.pointers) : p ∈ s'.pointers := by
  have hclosed : ∀ (s₀ : ClientSys) (i : AllocatorImpl) {q : Nat}, q ≠ p → p ∈ s₀.pointers →
      p ∈ (s₀.closed i q).pointers := fun s₀ i q hq hp => mem_closed s₀ hq.symm hp
  have hopened : ∀ (i : AllocatorImpl) (e : Entry), p ∈ (s.opened i e).pointers := by
    intro i e
    exact List.mem_cons_of_mem _ hp
  unfold ClientSys.step at hs
  split at hs
  · cases hs
  cases call with
  | request t r =>
    cases hs
    unfold ClientSys.request
    split
    · exact hopened _ _
    · exact hp
  | reallocate t q n =>
    dsimp only at hs
    split at hs
    · cases hs
      unfold ClientSys.reallocate
      split
      · dsimp only
        split
        · exact hopened _ _
        · exact hclosed _ _ hsp (hopened _ _)
      · exact hclosed _ _ hsp hp
      · exact hp
    · cases hs
  | deallocate t q =>
    dsimp only at hs
    split at hs
    · cases hs
      unfold ClientSys.deallocate
      split
      · split
        · exact hp
        · exact hclosed _ _ hsp hp
      · exact hp
    · cases hs
  | write addr value =>
    dsimp only at hs
    split at hs
    · cases hs
      exact hp
    · cases hs
  | exit t =>
    cases hs
    exact hp

/-- **An allocation that is spared stays as it is** through any run. -/
theorem run_persists {s s' : ClientSys} {calls : List ClientCall} (h : Good s live) (ha : a ∈ live)
    (hsp : ∀ c ∈ calls, c.Spares a.ptr) (hrun : runFrom ClientSys.step s calls = some s') :
    ∃ live', Good s' live' ∧ a ∈ live' := by
  refine run_invariant_of (P := fun s => ∃ live, Good s live ∧ a ∈ live)
    (E := ClientCall.Spares a.ptr) ?_ hsp ⟨live, h, ha⟩ hrun
  rintro s call s' hc ⟨live, h, ha⟩ hs
  obtain ⟨live', h', hst⟩ := step_stepped h hs
  have hp : a.ptr ∈ s.pointers := h.ptrs.mem_iff.mp (List.mem_map_of_mem ha)
  exact ⟨live', h', hst.stays a ha (step_spares hs hc hp)⟩

theorem good_of_run {cfg : AllocatorConfig} {m : Mem} {page : PageSize} {answers : List (Option Nat)}
    {faults : List Bool} {calls : List ClientCall}
    (hrun : runFrom ClientSys.step (ClientSys.start cfg (World.boot m page answers) faults) calls = some s) :
    ∃ live, Good s live :=
  run_invariant (P := fun s => ∃ live, Good s live) (fun _ _ _ ⟨_, h⟩ hs => (step_good h hs).1)
    ⟨[], start_good cfg m page answers faults⟩ hrun

end Steps

/-! ## What no call changes -/

/-- `P` does not depend on the tiers and survives what the calls do besides. -/
structure Stable (P : AllocatorImpl → Prop) : Prop where
  tiers : ∀ i T, P i → P { i with tiers := T }
  report : ∀ i e p, P i → P (i.report e p)
  enroll : ∀ i user n r, P i → P (i.enroll user n r)
  discharge : ∀ i p n r, P i → P (i.discharge p n r)

section Stable
variable {P : AllocatorImpl → Prop} {i : AllocatorImpl}

theorem Stable.request (hP : Stable P) (h : P i) (t : Nat) (r : Request) : P (r.run i t).2 := by
  rw [Request.run_eq]
  cases r.verdict with
  | some e => exact hP.report i e 0 h
  | none =>
    dsimp only
    generalize r.acquire i.config i.tiers t = q
    obtain ⟨res, T'⟩ := q
    cases res with
    | error e => exact hP.report _ e 0 (hP.tiers i T' h)
    | ok raw => exact hP.enroll _ _ _ _ (hP.tiers i T' h)

theorem Stable.giveBack (hP : Stable P) (h : P i) (t p : Nat) (header : BlockHeader) :
    P (i.giveBack t p header).2 := by
  unfold AllocatorImpl.giveBack
  generalize corrupt i.config i.tiers.mem p header = bad
  have h' : P (if bad then i.report .HeapCorruption p else i) := by
    cases bad with
    | true => exact hP.report i _ p h
    | false => exact h
  dsimp only
  generalize (if bad then i.report .HeapCorruption p else i) = j at h' ⊢
  split
  · exact h'
  · generalize release j.config j.tiers t p header = q
    obtain ⟨res, T'⟩ := q
    cases res with
    | error e => exact hP.report _ e p (hP.tiers j T' h')
    | ok n => exact hP.discharge _ _ _ _ (hP.tiers j T' h')

theorem Stable.deallocate (hP : Stable P) (h : P i) (t p : Nat) : P (i.deallocate t p).2 := by
  unfold AllocatorImpl.deallocate AllocatorImpl.deallocateBy
  split
  · exact h
  · split
    · exact hP.report i _ p h
    · split
      · exact hP.report i _ p h
      · split
        · exact hP.report i _ p h
        · exact hP.giveBack h t p _

theorem Stable.reallocate (hP : Stable P) (h : P i) (t p newSize : Nat) :
    P (i.reallocate t p newSize).2 := by
  have hal := hP.request h t (.allocate newSize)
  have hde := hP.deallocate h t p
  unfold Request.run at hal
  dsimp only at hal
  unfold AllocatorImpl.reallocate
  generalize i.allocate t newSize = q at hal ⊢
  obtain ⟨res, j⟩ := q
  split
  · cases res <;> exact hal
  · split
    · generalize i.deallocate t p = q at hde ⊢
      obtain ⟨res', j'⟩ := q
      cases res' <;> exact hde
    · dsimp only
      split
      · exact hP.report i _ p h
      · cases res with
        | error e => exact hal
        | ok fresh =>
          dsimp only
          unfold AllocatorImpl.moveInto
          generalize hj : j.copied fresh p (min (i.allocationSize p) newSize) = k
          have hk : P k := by
            rw [← hj]
            exact hP.tiers j _ hal
          have hmv := hP.deallocate hk t p
          generalize k.deallocate t p = q at hmv ⊢
          obtain ⟨res', j'⟩ := q
          cases res' <;> exact hmv

theorem Stable.step (hP : Stable P) {s s' : ClientSys} {call : ClientCall} (h : P s.impl)
    (hs : s.step call = some s') : P s'.impl := by
  unfold ClientSys.step at hs
  split at hs
  · cases hs
  cases call with
  | request t r =>
    cases hs
    have hr := hP.request h t r
    unfold ClientSys.request
    generalize r.run s.impl t = q at hr ⊢
    obtain ⟨res, j⟩ := q
    cases res <;> exact hr
  | reallocate t p newSize =>
    dsimp only at hs
    split at hs
    · cases hs
      have hr := hP.reallocate h t p newSize
      unfold ClientSys.reallocate
      generalize s.impl.reallocate t p newSize = q at hr ⊢
      obtain ⟨res, j⟩ := q
      match res with
      | .error e => exact hr
      | .ok none => exact hr
      | .ok (some fresh) =>
        dsimp only
        split <;> exact hr
    · cases hs
  | deallocate t p =>
    dsimp only at hs
    split at hs
    · cases hs
      have hr := hP.deallocate h t p
      unfold ClientSys.deallocate
      generalize s.impl.deallocate t p = q at hr ⊢
      obtain ⟨res, j⟩ := q
      cases res with
      | error e => exact hr
      | ok u =>
        dsimp only
        split <;> exact hr
    · cases hs
  | write addr value =>
    dsimp only at hs
    split at hs
    · cases hs
      exact hP.tiers s.impl _ h
    · cases hs
  | exit t =>
    cases hs
    exact hP.tiers s.impl _ h

/-- The configuration is never changed. -/
theorem config_stable (cfg : AllocatorConfig) : Stable fun i => i.config = cfg where
  tiers _ _ h := h
  report _ _ _ h := h
  enroll i user n r h := (enroll_config i user n r).trans h
  discharge i p n r h := (discharge_config i p n r).trans h

theorem config_of_run {cfg : AllocatorConfig} {w : World} {faults : List Bool} {calls : List ClientCall}
    {s : ClientSys} (hrun : runFrom ClientSys.step (ClientSys.start cfg w faults) calls = some s) :
    s.impl.config = cfg :=
  run_invariant (P := fun s => s.impl.config = cfg) (fun _ _ _ h hs => (config_stable cfg).step h hs)
    rfl hrun

/-- The process has not ended, and no report ends it. -/
def Running (i : AllocatorImpl) : Prop := i.config.abortOnError = false ∧ i.aborted = false

theorem running_stable : Stable Running where
  tiers _ _ h := h
  report i e p h := by
    refine ⟨h.1, ?_⟩
    unfold AllocatorImpl.report
    rw [h.1, h.2]
    rfl
  enroll i user n r h := by
    unfold AllocatorImpl.enroll
    dsimp only
    split <;> exact h
  discharge i p n r h := by
    unfold AllocatorImpl.discharge
    dsimp only
    split <;> exact h

theorem running_of_run {cfg : AllocatorConfig} {w : World} {faults : List Bool} {calls : List ClientCall}
    {s : ClientSys} (hab : cfg.abortOnError = false)
    (hrun : runFrom ClientSys.step (ClientSys.start cfg w faults) calls = some s) : Running s.impl :=
  run_invariant (P := fun s => Running s.impl) (fun _ _ _ h hs => running_stable.step h hs) ⟨hab, rfl⟩ hrun

section Enabled
variable {s : ClientSys} (h : Running s.impl) (t : Nat)
include h

theorem step_request (r : Request) : s.step (.request t r) = some (s.request t r) := by
  unfold ClientSys.step
  rw [h.2, if_neg (by simp)]

theorem step_reallocate {p : Nat} (hp : s.Allowed p) (n : Nat) :
    s.step (.reallocate t p n) = some (s.reallocate t p n) := by
  unfold ClientSys.step
  rw [h.2, if_neg (by simp)]
  exact if_pos hp

theorem step_deallocate {p : Nat} (hp : s.Allowed p) :
    s.step (.deallocate t p) = some (s.deallocate t p) := by
  unfold ClientSys.step
  rw [h.2, if_neg (by simp)]
  exact if_pos hp

theorem step_write {e : Entry} (he : e ∈ s.ledger) {x : Nat} (hx : e.range.Has x) (value : UInt8) :
    s.step (.write x value) = some { s with impl := { s.impl with
      tiers := s.impl.tiers.setMem (Function.update s.mem x value) } } := by
  unfold ClientSys.step
  rw [h.2, if_neg (by simp)]
  exact if_pos (List.any_eq_true.mpr ⟨e, he, decide_eq_true hx⟩)

theorem step_exit :
    s.step (.exit t) = some { s with impl := { s.impl with tiers := s.impl.tiers.exit t } } := by
  unfold ClientSys.step
  rw [h.2, if_neg (by simp)]

end Enabled

/-- The calls a client may always make. -/
def ClientCall.Always : ClientCall → Prop
  | .request _ _ => True
  | .exit _ => True
  | _ => False

/-- A run of such calls exists. -/
theorem run_always {s : ClientSys} {calls : List ClientCall} (h : Running s.impl)
    (hc : ∀ c ∈ calls, c.Always) : ∃ s', runFrom ClientSys.step s calls = some s' := by
  induction calls generalizing s with
  | nil => exact ⟨s, rfl⟩
  | cons c calls ih =>
    obtain ⟨s1, hs1⟩ : ∃ s1, s.step c = some s1 := by
      have hc := hc c List.mem_cons_self
      cases c with
      | request t r => exact ⟨_, step_request h t r⟩
      | exit t => exact ⟨_, step_exit h t⟩
      | _ => exact absurd hc id
    obtain ⟨s', hs'⟩ := ih (running_stable.step h hs1) fun c hc' => hc c (List.mem_cons_of_mem _ hc')
    exact ⟨s', run_cons.mpr ⟨s1, hs1, hs'⟩⟩

end Stable

end MAlloc.Client
