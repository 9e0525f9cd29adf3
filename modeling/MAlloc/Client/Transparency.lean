/-
  What a client can observe does not depend on the configuration.

  A script names the pointers it uses by the call that produced them. `Scripted` runs it on an
  allocator and keeps the outcome of each call; a byte is part of the outcome of a read when the
  client has written it. `Spec` is what the script means: named allocations with a size and the
  bytes written, and the counters.

  `Sim a c` relates the two. As long as the OS refuses nothing, a step of the allocator is the step
  of `Spec` (`step_sim`), so two runs of a script under any two configurations agree
  (`transparency`).
-/
import MAlloc.Client.System

namespace MAlloc.Client

open Lib AllocatorImpl DebugLayer

/-! ## Scripts -/

inductive ScriptCall where
  | request (t : Nat) (r : Request)
  | reallocate (t : Nat) (name : Option Nat) (newSize : Nat)
  | deallocate (t : Nat) (name : Option Nat)
  | allocationSize (name : Nat)
  | read (name offset : Nat)
  | write (name offset : Nat) (value : UInt8)
  | exit (t : Nat)
  deriving DecidableEq, Repr

/-- What a client sees of a call; a byte it has not written is `byte none`. -/
inductive Outcome where
  | success
  | null
  | error (e : Error)
  | size (n : Nat)
  | byte (value : Option UInt8)
  | done
  deriving DecidableEq, Repr

/-! ## The meaning of a script -/

structure Item where
  name : Nat
  size : Nat
  bytes : Nat → Option UInt8

/-- The allocations by name, the number of calls so far, what they ended in, and the counters
    (`liveReserved` apart, which is not the client's). -/
structure Spec where
  items : List Item := []
  next : Nat := 0
  outcomes : List Outcome := []
  stats : StatisticsCollector := {}

namespace Spec

def find (a : Spec) (name : Nat) : Option Item := a.items.find? fun i => decide (i.name = name)

def without (a : Spec) (name : Nat) : List Item := a.items.filter fun i => decide (i.name ≠ name)

def advance (a : Spec) (o : Outcome) (items : List Item) (stats : StatisticsCollector) : Spec :=
  ⟨items, a.next + 1, o :: a.outcomes, stats⟩

def request (a : Spec) (r : Request) : Spec :=
  match r.verdict with
  | some e => a.advance (.error e) a.items a.stats
  | none => a.advance .success (⟨a.next, r.size, fun _ => none⟩ :: a.items)
      (a.stats.recordAllocation r.size 0)

def deallocate (a : Spec) (o : Outcome) (i : Item) : Spec :=
  a.advance o (a.without i.name) (a.stats.recordFree i.size 0)

/-- The bytes a `reallocate` carries over. -/
def carried (i : Item) (newSize : Nat) : Nat → Option UInt8 := fun k =>
  if k < min i.size newSize then i.bytes k else none

def reallocate (a : Spec) (i : Item) (newSize : Nat) : Spec :=
  if newSize = 0 then a.deallocate .null i
  else
    match (Request.allocate newSize).verdict with
    | some e => a.advance (.error e) a.items a.stats
    | none => a.advance .success (⟨a.next, newSize, carried i newSize⟩ :: a.without i.name)
        ((a.stats.recordAllocation newSize 0).recordFree i.size 0)

def write (a : Spec) (name offset : Nat) (value : UInt8) : List Item :=
  a.items.map fun i => if i.name = name then { i with bytes := Function.update i.bytes offset (some value) }
    else i

def step (a : Spec) : ScriptCall → Option Spec
  | .request _ r => some (a.request r)
  | .reallocate _ none newSize => some (a.request (.allocate newSize))
  | .reallocate _ (some name) newSize => (a.find name).map fun i => a.reallocate i newSize
  | .deallocate _ none => some (a.advance .success a.items a.stats)
  | .deallocate _ (some name) => (a.find name).map fun i => a.deallocate .success i
  | .allocationSize name => (a.find name).map fun i => a.advance (.size i.size) a.items a.stats
  | .read name offset => (a.find name).bind fun i =>
      if offset < i.size then some (a.advance (.byte (i.bytes offset)) a.items a.stats) else none
  | .write name offset value => (a.find name).bind fun i =>
      if offset < i.size then some (a.advance .done (a.write name offset value) a.stats) else none
  | .exit _ => some (a.advance .done a.items a.stats)

end Spec

/-! ## Scripts on an allocator -/

/-- A named pointer, its size, and which of its bytes the client has written. -/
structure Owner where
  name : Nat
  ptr : Nat
  size : Nat
  written : Nat → Bool

structure Scripted where
  sys : ClientSys
  owners : List Owner := []
  next : Nat := 0
  outcomes : List Outcome := []

namespace Scripted

def find (c : Scripted) (name : Nat) : Option Owner := c.owners.find? fun o => decide (o.name = name)

def without (c : Scripted) (name : Nat) : List Owner := c.owners.filter fun o => decide (o.name ≠ name)

def advance (c : Scripted) (sys : ClientSys) (o : Outcome) (owners : List Owner) : Scripted :=
  ⟨sys, owners, c.next + 1, o :: c.outcomes⟩

/-- The call `call` has returned `res` for a new allocation of `size` bytes. -/
def opened (c : Scripted) (sys : ClientSys) (size : Nat) (written : Nat → Bool) (owners : List Owner) :
    Except Error Nat → Scripted
  | .ok ptr => c.advance sys .success (⟨c.next, ptr, size, written⟩ :: owners)
  | .error e => c.advance sys (.error e) c.owners

def closed (c : Scripted) (sys : ClientSys) (name : Nat) : Except Error Unit → Scripted
  | .ok () => c.advance sys .success (c.without name)
  | .error e => c.advance sys (.error e) c.owners

def resized (c : Scripted) (sys : ClientSys) (o : Owner) (newSize : Nat) :
    Except Error (Option Nat) → Scripted
  | .ok (some ptr) => c.advance sys .success
      (⟨c.next, ptr, (Request.allocate newSize).size,
        fun k => decide (k < min o.size newSize) && o.written k⟩ :: c.without o.name)
  | .ok none => c.advance sys .null (c.without o.name)
  | .error e => c.advance sys (.error e) c.owners

/-- The null pointer is an owner of nothing. -/
def nobody (c : Scripted) : Owner := ⟨c.next, 0, 0, fun _ => false⟩

def target (c : Scripted) : Option Nat → Option Owner
  | none => some c.nobody
  | some name => c.find name

def write (c : Scripted) (name offset : Nat) : List Owner :=
  c.owners.map fun o => if o.name = name then { o with written := Function.update o.written offset true }
    else o

def step (c : Scripted) : ScriptCall → Option Scripted
  | .request t r => (c.sys.step (.request t r)).map fun sys =>
      c.opened sys r.size (fun _ => false) c.owners (r.run c.sys.impl t).1
  | .reallocate t name newSize => (c.target name).bind fun o =>
      (c.sys.step (.reallocate t o.ptr newSize)).map fun sys =>
        c.resized sys o newSize (c.sys.impl.reallocate t o.ptr newSize).1
  | .deallocate t name => (c.target name).bind fun o =>
      (c.sys.step (.deallocate t o.ptr)).map fun sys =>
        c.closed sys o.name (c.sys.impl.deallocate t o.ptr).1
  | .allocationSize name => (c.find name).map fun o =>
      c.advance c.sys (.size (c.sys.impl.allocationSize o.ptr)) c.owners
  | .read name offset => (c.find name).bind fun o =>
      if offset < o.size then
        some (c.advance c.sys (.byte (if o.written offset then some (c.sys.mem (o.ptr + offset)) else none))
          c.owners)
      else none
  | .write name offset value => (c.find name).bind fun o =>
      if offset < o.size then
        (c.sys.step (.write (o.ptr + offset) value)).map fun sys =>
          c.advance sys .done (c.write name offset)
      else none
  | .exit t => (c.sys.step (.exit t)).map fun sys => c.advance sys .done c.owners

def start (cfg : AllocatorConfig) (w : World) (faults : List Bool) : Scripted where
  sys := ClientSys.start cfg w faults

/-- How often the OS has refused a mapping. -/
def refusals (c : Scripted) : Nat := c.sys.impl.tiers.world.refusals

end Scripted

/-! ## The relation -/

/-- The counters a client compares. -/
def SameCounters (a b : StatisticsCollector) : Prop :=
  { a with liveReserved := 0 } = { b with liveReserved := 0 }

/-- What memory holds for a named allocation. -/
structure Holds (m : Mem) (i : Item) (o : Owner) : Prop where
  name : i.name = o.name
  size : i.size = o.size
  written : ∀ k, (i.bytes k).isSome = o.written k
  bytes : ∀ k v, i.bytes k = some v → k < o.size ∧ m (o.ptr + k) = v

def Owner.key (o : Owner) : Nat × Nat := (o.ptr, o.size)

structure Sim (a : Spec) (c : Scripted) : Prop where
  good : ∃ live, Good c.sys live
  running : Running c.sys.impl
  next : a.next = c.next
  outcomes : a.outcomes = c.outcomes
  fresh : ∀ o ∈ c.owners, o.name < c.next
  nodup : (c.owners.map Owner.name).Nodup
  owned : (c.owners.map Owner.key).Perm (c.sys.ledger.map fun e => (e.ptr, e.size))
  items : List.Forall₂ (Holds c.sys.mem) a.items c.owners
  stats : SameCounters a.stats c.sys.impl.stats
  reports : ∀ r ∈ c.sys.impl.reports, r.1 = .SizeOverflow ∨ r.1 = .InvalidAlignment

section Counters
variable {a b : StatisticsCollector}

theorem SameCounters.recordAllocation (h : SameCounters a b) (n r : Nat) :
    SameCounters (a.recordAllocation n 0) (b.recordAllocation n r) := by
  obtain ⟨a1, a2, a3, a4, a5, a6, a7, a8⟩ := a
  obtain ⟨b1, b2, b3, b4, b5, b6, b7, b8⟩ := b
  unfold SameCounters at *
  simp only [StatisticsCollector.mk.injEq, true_and] at h
  obtain ⟨rfl, rfl, rfl, rfl, rfl, rfl, rfl⟩ := h
  unfold StatisticsCollector.recordAllocation StatisticsCollector.updatePeak
  dsimp only
  split <;> rfl

theorem SameCounters.recordFree (h : SameCounters a b) (n r : Nat) :
    SameCounters (a.recordFree n 0) (b.recordFree n r) := by
  obtain ⟨a1, a2, a3, a4, a5, a6, a7, a8⟩ := a
  obtain ⟨b1, b2, b3, b4, b5, b6, b7, b8⟩ := b
  unfold SameCounters at *
  simp only [StatisticsCollector.mk.injEq, true_and] at h
  obtain ⟨rfl, rfl, rfl, rfl, rfl, rfl, rfl⟩ := h
  rfl

theorem SameCounters.trans {c : StatisticsCollector} (h : SameCounters a b) (h' : SameCounters a c) :
    SameCounters b c := Eq.trans (Eq.symm h) h'

end Counters

/-! ## Owners and entries -/

section Owners
variable {a : Spec} {c : Scripted} {o : Owner}

theorem Holds.keep {m m' : Mem} {i : Item} (h : Holds m i o) (hm : SameOn m m' o.ptr o.size) :
    Holds m' i o :=
  ⟨h.name, h.size, h.written, fun k v hv => by
    obtain ⟨h1, h2⟩ := h.bytes k v hv
    exact ⟨h1, (hm _ (by omega) (by omega)).trans h2⟩⟩

theorem Sim.entry_of (h : Sim a c) (ho : o ∈ c.owners) :
    ∃ e ∈ c.sys.ledger, e.ptr = o.ptr ∧ e.size = o.size := by
  obtain ⟨e, he, hk⟩ := List.mem_map.mp (h.owned.mem_iff.mp (List.mem_map_of_mem ho))
  exact ⟨e, he, congrArg Prod.fst hk, congrArg Prod.snd hk⟩

theorem Sim.mem_pointers (h : Sim a c) (ho : o ∈ c.owners) : o.ptr ∈ c.sys.pointers := by
  obtain ⟨e, he, hp, -⟩ := h.entry_of ho
  rw [← hp]
  exact List.mem_map_of_mem he

theorem Sim.ptr_ne_zero (h : Sim a c) (ho : o ∈ c.owners) : o.ptr ≠ 0 := by
  obtain ⟨live, hg⟩ := h.good
  obtain ⟨d, hd, hp⟩ := hg.alloc_of_ptr (h.mem_pointers ho)
  have := hg.memory.bounds hd
  omega

/-- The allocation of an owner. -/
theorem Sim.alloc_of (h : Sim a c) {live : List Alloc} (hg : Good c.sys live) (ho : o ∈ c.owners) :
    ∃ d ∈ live, d.ptr = o.ptr ∧ d.size = o.size := by
  obtain ⟨e, he, hp, hs⟩ := h.entry_of ho
  obtain ⟨d, hd, hk⟩ := hg.alloc_of he
  have h1 : d.ptr = e.ptr := congrArg Prod.fst hk
  have h2 : d.size = e.size := congrArg (fun k => k.2.1) hk
  exact ⟨d, hd, h1.trans hp, h2.trans hs⟩

/-- Owners have different pointers. -/
theorem Sim.ptr_inj (h : Sim a c) {k : Owner} (ho : o ∈ c.owners) (hk : k ∈ c.owners)
    (hp : k.ptr = o.ptr) : k = o := by
  obtain ⟨live, hg⟩ := h.good
  have h1 := h.owned.map Prod.fst
  rw [List.map_map, List.map_map] at h1
  have hnd : (c.owners.map Owner.ptr).Nodup := h1.nodup_iff.mpr hg.ptr_nodup
  exact List.inj_on_of_nodup_map hnd hk ho hp

theorem Sim.find_mem {name : Nat} (ho : c.find name = some o) : o ∈ c.owners ∧ o.name = name :=
  ⟨List.mem_of_find?_eq_some ho, by simpa using List.find?_some ho⟩

/-- An allocation is found in both, or in neither. -/
theorem Sim.find_cases (h : Sim a c) (name : Nat) : (a.find name = none ∧ c.find name = none) ∨
    ∃ i o, a.find name = some i ∧ c.find name = some o ∧ Holds c.sys.mem i o :=
  find_inStep (fun _ _ hh => hh.name) h.items name

theorem Sim.without_next (h : Sim a c) : c.without c.next = c.owners :=
  List.filter_eq_self.mpr fun o ho => decide_eq_true (Nat.ne_of_lt (h.fresh o ho))

theorem Sim.mem_without {name : Nat} (ho : o ∈ c.without name) : o ∈ c.owners ∧ o.name ≠ name :=
  ⟨List.mem_of_mem_filter ho, of_decide_eq_true (List.mem_filter.mp ho).2⟩

/-- Taking out an owner takes out its entry. -/
theorem Sim.owned_without (h : Sim a c) (ho : o ∈ c.owners) :
    ((c.without o.name).map Owner.key).Perm
      ((c.sys.ledger.filter fun e => decide (e.ptr ≠ o.ptr)).map fun e => (e.ptr, e.size)) := by
  obtain ⟨live, hg⟩ := h.good
  obtain ⟨e, he, hp, hs⟩ := h.entry_of ho
  have h1 := (perm_filter_key h.nodup ho).map Owner.key
  have h2 := (perm_filter_key (f := Entry.ptr) hg.ptr_nodup he).map fun e => (e.ptr, e.size)
  rw [List.map_cons] at h1 h2
  rw [hp, hs] at h2
  exact ((h1.symm.trans h.owned).trans h2).cons_inv

/-- What stays keeps its bytes. -/
theorem Sim.kept (h : Sim a c) {call : ClientCall} {sys : ClientSys} (hs : c.sys.step call = some sys)
    (hw : ∀ x v, call ≠ .write x v) {p : Nat} (hin : ∀ e ∈ c.sys.ledger, e.ptr ≠ p → e ∈ sys.ledger)
    (ho : o ∈ c.owners) (hp : o.ptr ≠ p) : SameOn c.sys.mem sys.mem o.ptr o.size := by
  obtain ⟨live, hg⟩ := h.good
  obtain ⟨e, he, h1, h2⟩ := h.entry_of ho
  intro x hx1 hx2
  refine (step_good hg hs).2.1 e he (hin e he (h1 ▸ hp)) x ?_ fun v => hw x v
  unfold Span.Has Entry.range
  simp only
  omega

/-- The parts of `Sim` that a step has to restore. -/
theorem Sim.next_of (h : Sim a c) {call : ClientCall} {sys : ClientSys} (hs : c.sys.step call = some sys)
    {o : Outcome} {items : List Item} {owners : List Owner} {stats : StatisticsCollector}
    (hfresh : ∀ k ∈ owners, k.name < c.next + 1) (hnd : (owners.map Owner.name).Nodup)
    (howned : (owners.map Owner.key).Perm (sys.ledger.map fun e => (e.ptr, e.size)))
    (hitems : List.Forall₂ (Holds sys.mem) items owners) (hstats : SameCounters stats sys.impl.stats)
    (hrep : ∀ r ∈ sys.impl.reports, r.1 = .SizeOverflow ∨ r.1 = .InvalidAlignment) :
    Sim (a.advance o items stats) (c.advance sys o owners) := by
  obtain ⟨live, hg⟩ := h.good
  refine ⟨(step_good hg hs).1, running_stable.step h.running hs, ?_, ?_, hfresh, hnd, howned, hitems,
    hstats, hrep⟩
  · exact congrArg (· + 1) h.next
  · exact congrArg (List.cons o) h.outcomes

theorem Sim.fresh_succ (h : Sim a c) : ∀ k ∈ c.owners, k.name < c.next + 1 := fun k hk =>
  Nat.lt_succ_of_lt (h.fresh k hk)

/-- A step that changes nothing a script sees. -/
theorem Sim.idle (h : Sim a c) {call : ClientCall} {sys : ClientSys} (hs : c.sys.step call = some sys)
    (hw : ∀ x v, call ≠ .write x v) (o : Outcome) (hl : sys.ledger = c.sys.ledger)
    (hst : sys.impl.stats = c.sys.impl.stats)
    (hrep : ∀ r ∈ sys.impl.reports, r.1 = .SizeOverflow ∨ r.1 = .InvalidAlignment) :
    Sim (a.advance o a.items a.stats) (c.advance sys o c.owners) := by
  refine h.next_of hs h.fresh_succ h.nodup (by rw [hl]; exact h.owned) ?_ (by rw [hst]; exact h.stats) hrep
  refine imp_inStep h.items fun i _ k hk hh => hh.keep (h.kept (p := 0) hs hw (fun e he _ => ?_) hk
    (h.ptr_ne_zero hk))
  rw [hl]
  exact he

end Owners

/-! ## The steps -/

section Steps
variable {a : Spec} {c : Scripted} {o : Owner} {i : Item} {sys : ClientSys} {t : Nat}

theorem Request.verdict_kind {r : Request} {e : Error} (hv : r.verdict = some e) :
    e = .SizeOverflow ∨ e = .InvalidAlignment := by
  cases r with
  | allocate size =>
    unfold Request.verdict at hv
    dsimp only at hv
    split at hv
    · cases hv
      exact Or.inl rfl
    · cases hv
  | alignedAllocate alignment size =>
    unfold Request.verdict at hv
    dsimp only at hv
    split at hv
    · cases hv
      exact Or.inr rfl
    · split at hv
      · cases hv
        exact Or.inl rfl
      · cases hv

/-- A report for the arguments of a request. -/
theorem Sim.reports_snoc (h : Sim a c) {r : Request} {e : Error} (hv : r.verdict = some e) :
    ∀ k ∈ (c.sys.impl.report e 0).reports, k.1 = .SizeOverflow ∨ k.1 = .InvalidAlignment := by
  intro k hk
  rcases List.mem_append.mp hk with hk | hk
  · exact h.reports k hk
  · rw [List.mem_singleton.mp hk]
    exact Request.verdict_kind hv

/-- A request; the system is in the state `c.sys.request t r`. -/
theorem Sim.request (h : Sim a c) {r : Request} {call : ClientCall} (hs : c.sys.step call = some sys)
    (hw : ∀ x v, call ≠ .write x v) (hsys : sys = c.sys.request t r)
    (href : sys.impl.tiers.world.refusals ≤ c.refusals) :
    Sim (a.request r) (c.opened sys r.size (fun _ => false) c.owners (r.run c.sys.impl t).1) := by
  obtain ⟨live, hg⟩ := h.good
  have hout := Request.run_spec hg.memory t r
  unfold ClientSys.request at hsys
  generalize r.run c.sys.impl t = q at hout hsys ⊢
  unfold Spec.request
  cases hout with
  | rejected hv =>
    rw [hv]
    dsimp only at hsys ⊢
    refine h.idle hs hw _ (by rw [hsys]) (by rw [hsys]; rfl) ?_
    rw [hsys]
    exact h.reports_snoc hv
  | refused hv hl hk hlt =>
    rw [hsys] at href
    exact absurd hlt (Nat.not_lt.mpr href)
  | @served T' d hv hl hsize halign hres hk hpoison =>
    rw [hv]
    dsimp only at hsys ⊢
    have hledger : sys.ledger = ⟨d.ptr, r.size, r.align, r.reserved c.sys.impl t⟩ :: c.sys.ledger := by
      rw [hsys]
      rfl
    have hkeep : ∀ k ∈ c.owners, SameOn c.sys.mem sys.mem k.ptr k.size := fun k hk =>
      h.kept (p := 0) hs hw (fun e he _ => by rw [hledger]; exact List.mem_cons_of_mem _ he) hk
        (h.ptr_ne_zero hk)
    refine h.next_of hs ?_ ?_ ?_ (.cons ⟨h.next, rfl, fun _ => rfl, fun _ _ hv => by cases hv⟩
      (imp_inStep h.items fun i _ k hk hh => hh.keep (hkeep k hk))) ?_ ?_
    · exact List.forall_mem_cons.mpr ⟨Nat.lt_succ_self _, h.fresh_succ⟩
    · refine List.nodup_cons.mpr ⟨fun hin => ?_, h.nodup⟩
      obtain ⟨k, hk, hname⟩ := List.mem_map.mp hin
      exact Nat.lt_irrefl _ (hname ▸ h.fresh k hk)
    · rw [hledger]
      exact h.owned.cons _
    · rw [hsys]
      unfold ClientSys.opened
      dsimp only
      rw [enroll_stats, hsize]
      exact h.stats.recordAllocation _ _
    · rw [hsys]
      unfold ClientSys.opened
      dsimp only
      rw [enroll_reports]
      exact h.reports

/-- A live allocation is freed; the system is in the state `c.sys.deallocate t o.ptr`. -/
theorem Sim.free (h : Sim a c) {call : ClientCall} (hs : c.sys.step call = some sys)
    (hw : ∀ x v, call ≠ .write x v) (hsys : sys = c.sys.deallocate t o.ptr) (ho : o ∈ c.owners)
    (hi : Holds c.sys.mem i o) (out : Outcome) :
    (c.sys.impl.deallocate t o.ptr).1 = .ok () ∧
      Sim (a.deallocate out i) (c.advance sys out (c.without o.name)) := by
  obtain ⟨live, hg⟩ := h.good
  obtain ⟨d, hd, hptr, hsize⟩ := h.alloc_of hg ho
  obtain ⟨T', he, hrel⟩ := deallocate_spec hg.memory hd (hg.passes hd) (hg.guards _ hd) t
  rw [hptr, hsize] at he
  unfold ClientSys.deallocate at hsys
  rw [he] at hsys ⊢
  dsimp only at hsys
  rw [if_neg (h.ptr_ne_zero ho)] at hsys
  refine ⟨rfl, ?_⟩
  have hledger : sys.ledger = c.sys.ledger.filter fun e => decide (e.ptr ≠ o.ptr) := by
    rw [hsys]
    rfl
  have hkeep : ∀ k ∈ c.without o.name, SameOn c.sys.mem sys.mem k.ptr k.size := fun k hk => by
    obtain ⟨hk, hne⟩ := Sim.mem_without hk
    refine h.kept hs hw (fun e he hne => ?_) hk fun h0 => hne (by rw [h.ptr_inj ho hk h0])
    rw [hledger]
    exact List.mem_filter.mpr ⟨he, decide_eq_true hne⟩
  unfold Spec.deallocate Spec.without
  rw [hi.name]
  refine h.next_of hs (fun k hk => h.fresh_succ k (Sim.mem_without hk).1) ?_ ?_
    (imp_inStep (filter_inStep (fun _ _ hh => hh.name) h.items o.name) fun i _ k hk hh =>
      hh.keep (hkeep k hk)) ?_ ?_
  · exact h.nodup.sublist ((List.filter_sublist).map _)
  · rw [hledger]
    exact h.owned_without ho
  · rw [hsys]
    unfold ClientSys.closed
    dsimp only
    rw [discharge_stats, hi.size]
    exact h.stats.recordFree _ _
  · rw [hsys]
    unfold ClientSys.closed
    dsimp only
    rw [discharge_reports]
    exact h.reports

/-- What a write does to the item that is written. -/
theorem Holds.write {m : Mem} (h : Holds m i o) {offset : Nat} (hoff : offset < o.size) (value : UInt8) :
    Holds (Function.update m (o.ptr + offset) value)
      { i with bytes := Function.update i.bytes offset (some value) }
      { o with written := Function.update o.written offset true } := by
  refine ⟨h.name, h.size, fun k => ?_, fun k v hv => ?_⟩
  · dsimp only
    by_cases hk : k = offset
    · rw [hk, Function.update_self, Function.update_self]
      rfl
    · rw [Function.update_of_ne hk, Function.update_of_ne hk]
      exact h.written k
  · dsimp only at hv ⊢
    by_cases hk : k = offset
    · rw [hk, Function.update_self] at hv
      cases hv
      rw [hk, Function.update_self]
      exact ⟨hoff, rfl⟩
    · rw [Function.update_of_ne hk] at hv
      obtain ⟨h1, h2⟩ := h.bytes k v hv
      rw [Function.update_of_ne (by omega)]
      exact ⟨h1, h2⟩

/-- A live allocation is resized to a size other than 0. -/
theorem Sim.resize (h : Sim a c) {newSize : Nat} (hn : newSize ≠ 0)
    (hs : c.sys.step (.reallocate t o.ptr newSize) = some sys)
    (hsys : sys = c.sys.reallocate t o.ptr newSize) (ho : o ∈ c.owners) (hi : Holds c.sys.mem i o)
    (href : sys.impl.tiers.world.refusals ≤ c.refusals) :
    Sim (a.reallocate i newSize) (c.resized sys o newSize (c.sys.impl.reallocate t o.ptr newSize).1) := by
  obtain ⟨live, hg⟩ := h.good
  obtain ⟨d, hd, hptr, hsize⟩ := h.alloc_of hg ho
  have hout := reallocate_spec hg.memory hd (hg.passes hd) (Or.inr (hg.guards _ hd)) t (Nat.pos_of_ne_zero hn)
  have hone : (Request.allocate newSize).size = newSize := if_neg hn
  have hw : ∀ x v, ClientCall.reallocate t o.ptr newSize ≠ .write x v := fun _ _ h0 => by cases h0
  rw [hptr] at hout
  unfold ClientSys.reallocate at hsys
  generalize c.sys.impl.reallocate t o.ptr newSize = q at hout hsys ⊢
  unfold Spec.reallocate
  rw [if_neg hn]
  cases hout with
  | failed heq hreq =>
    cases hreq with
    | rejected hv =>
      rw [hv]
      dsimp only at hsys ⊢
      refine h.idle hs hw _ (by rw [hsys]) (by rw [hsys]; rfl) ?_
      rw [hsys]
      exact h.reports_snoc hv
    | refused hv hl hk hlt =>
      rw [hsys] at href
      exact absurd hlt (Nat.not_lt.mpr href)
  | @moved T' T'' f hv heq hl hfsize hres hk hrel hpoison =>
    subst hfsize
    rw [hv]
    dsimp only at hsys ⊢
    rw [if_neg (h.ptr_ne_zero ho), hone,
      checked_filled hl hd hk (Nat.min_le_right _ _) (hg.guards d hd)] at hsys
    have hledger : sys.ledger = (⟨f.ptr, f.size, 16, (Request.allocate f.size).reserved c.sys.impl t⟩ ::
        c.sys.ledger).filter fun e => decide (e.ptr ≠ o.ptr) := by
      rw [hsys]
      rfl
    have hne : f.ptr ≠ o.ptr := fun h0 => (List.nodup_cons.mp hl.ptr_nodup).1
      (List.mem_map.mpr ⟨d, hd, hptr.trans h0.symm⟩)
    rw [List.filter_cons_of_pos (by simpa using hne)] at hledger
    have hmem : sys.mem = T''.mem := by
      rw [hsys]
      unfold ClientSys.mem ClientSys.closed
      dsimp only
      rw [discharge_tiers]
    have hkeep : ∀ k ∈ c.without o.name, SameOn c.sys.mem sys.mem k.ptr k.size := fun k hk => by
      obtain ⟨hk, hne⟩ := Sim.mem_without hk
      refine h.kept hs hw (fun e he hne => ?_) hk fun h0 => hne (by rw [h.ptr_inj ho hk h0])
      rw [hledger]
      exact List.mem_cons_of_mem _ (List.mem_filter.mpr ⟨he, decide_eq_true hne⟩)
    have hbytes := (moved_bytes hl hd hk (Nat.min_le_right _ _) (Nat.min_le_left _ _) hrel).1
    rw [hptr, hsize] at hbytes
    have hnew : Holds sys.mem ⟨a.next, f.size, Spec.carried i f.size⟩
        ⟨c.next, f.ptr, f.size, fun k => decide (k < min o.size f.size) && o.written k⟩ := by
      refine ⟨h.next, rfl, fun k => ?_, fun k v hv => ?_⟩
      · unfold Spec.carried
        dsimp only
        rw [hi.size, ← hi.written k]
        by_cases hk : k < min o.size f.size
        · rw [if_pos hk, decide_eq_true hk, Bool.true_and]
        · rw [if_neg hk, decide_eq_false hk, Bool.false_and]
          rfl
      · unfold Spec.carried at hv
        dsimp only at hv ⊢
        rw [hi.size] at hv
        by_cases hk : k < min o.size f.size
        · rw [if_pos hk] at hv
          rw [hmem, hbytes k hk]
          exact ⟨by omega, (hi.bytes k v hv).2⟩
        · rw [if_neg hk] at hv
          cases hv
    unfold Spec.without Scripted.resized
    dsimp only
    rw [hi.name, hone]
    refine h.next_of hs ?_ ?_ ?_ (.cons hnew
      (imp_inStep (filter_inStep (fun _ _ hh => hh.name) h.items o.name) fun i _ k hk hh =>
        hh.keep (hkeep k hk))) ?_ ?_
    · exact List.forall_mem_cons.mpr ⟨Nat.lt_succ_self _, fun k hk =>
        h.fresh_succ k (Sim.mem_without hk).1⟩
    · refine List.nodup_cons.mpr ⟨fun hin => ?_, h.nodup.sublist ((List.filter_sublist).map _)⟩
      obtain ⟨k, hk, hname⟩ := List.mem_map.mp hin
      exact Nat.lt_irrefl _ (hname ▸ h.fresh k (Sim.mem_without hk).1)
    · rw [hledger]
      exact (h.owned_without ho).cons _
    · rw [hsys]
      unfold ClientSys.closed filled AllocatorImpl.copied
      dsimp only
      rw [discharge_stats]
      dsimp only
      rw [enroll_stats, hi.size, hsize]
      exact (h.stats.recordAllocation _ _).recordFree _ _
    · rw [hsys]
      unfold ClientSys.closed filled AllocatorImpl.copied
      dsimp only
      rw [discharge_reports]
      dsimp only
      rw [enroll_reports]
      exact h.reports

/-- A call that does not reach the allocator's state. -/
theorem Sim.still (h : Sim a c) (out : Outcome) :
    Sim (a.advance out a.items a.stats) (c.advance c.sys out c.owners) :=
  ⟨h.good, h.running, congrArg (· + 1) h.next, congrArg (List.cons out) h.outcomes, h.fresh_succ, h.nodup,
    h.owned, h.items, h.stats, h.reports⟩

/-- A byte of a live allocation is written. -/
theorem Sim.written (h : Sim a c) {offset name : Nat} (ho : o ∈ c.owners) (hname : o.name = name)
    (hoff : offset < o.size) {value : UInt8} (hs : c.sys.step (.write (o.ptr + offset) value) = some sys) :
    Sim (a.advance .done (a.write name offset value) a.stats)
      (c.advance sys .done (c.write name offset)) := by
  obtain ⟨e, he, hptr, hsize⟩ := h.entry_of ho
  obtain ⟨live, hg⟩ := h.good
  have hx : e.range.Has (o.ptr + offset) := by
    unfold Span.Has Entry.range
    simp only
    omega
  have hsys := Option.some_inj.mp (hs.symm.trans (step_write h.running he hx value))
  have hmem : sys.mem = Function.update c.sys.mem (o.ptr + offset) value := by
    rw [hsys]
    rfl
  have hname_map : (c.write name offset).map Owner.name = c.owners.map Owner.name := by
    unfold Scripted.write
    rw [List.map_map]
    refine List.map_congr_left fun k _ => ?_
    simp only [Function.comp]
    split <;> rfl
  have hkey_map : (c.write name offset).map Owner.key = c.owners.map Owner.key := by
    unfold Scripted.write
    rw [List.map_map]
    refine List.map_congr_left fun k _ => ?_
    simp only [Function.comp]
    split <;> rfl
  refine h.next_of hs ?_ (by rw [hname_map]; exact h.nodup) ?_ ?_ (by rw [hsys]; exact h.stats)
    (by rw [hsys]; exact h.reports)
  · intro k hk
    obtain ⟨k', hk', rfl⟩ := List.mem_map.mp hk
    have := h.fresh_succ k' hk'
    split <;> exact this
  · rw [hkey_map, hsys]
    exact h.owned
  · unfold Spec.write Scripted.write
    refine List.forall₂_map_left_iff.mpr (List.forall₂_map_right_iff.mpr
      (imp_inStep h.items fun j _ k hk hh => ?_))
    by_cases hk' : k.name = name
    · rw [if_pos (hh.name.trans hk'), if_pos hk', hmem]
      have hko : k = o := List.inj_on_of_nodup_map h.nodup hk ho (hk'.trans hname.symm)
      subst hko
      exact hh.write hoff value
    · rw [if_neg fun h0 => hk' (hh.name.symm.trans h0), if_neg hk', hmem]
      refine hh.keep fun x h1 h2 => Function.update_of_ne ?_ _ _
      -- the ranges of two owners are apart
      rintro rfl
      obtain ⟨d, hd, hdp, hds⟩ := h.alloc_of hg ho
      obtain ⟨f, hf, hfp, hfs⟩ := h.alloc_of hg hk
      rcases hg.memory.eq_or_apart hd hf with rfl | hap
      · have := h.ptr_inj ho hk (hfp.symm.trans hdp)
        exact hk' (by rw [this]; exact hname)
      · refine ((Alloc.range_inside hg.memory hd).disjoint (Alloc.range_inside hg.memory hf) hap).not_has
          (x := o.ptr + offset) ?_ ?_ <;> unfold Span.Has Alloc.range <;> simp only <;> omega

/-! ## One lemma for each call -/

/-- What the client names is named in the script. -/
theorem Sim.found (h : Sim a c) {name : Nat} (ho : c.find name = some o) :
    ∃ i, a.find name = some i ∧ Holds c.sys.mem i o ∧ o ∈ c.owners ∧ o.name = name := by
  rcases h.find_cases name with ⟨-, hnone⟩ | ⟨i, o', hi, ho', hh⟩
  · rw [ho] at hnone
    cases hnone
  · cases ho.symm.trans ho'
    exact ⟨i, hi, hh, Sim.find_mem ho⟩

theorem Scripted.refusals_opened {size : Nat} {written : Nat → Bool} {owners : List Owner}
    (res : Except Error Nat) :
    (c.opened sys size written owners res).refusals = sys.impl.tiers.world.refusals := by
  cases res <;> rfl

theorem Scripted.refusals_resized {newSize : Nat} (res : Except Error (Option Nat)) :
    (c.resized sys o newSize res).refusals = sys.impl.tiers.world.refusals := by
  match res with
  | .error e => rfl
  | .ok none => rfl
  | .ok (some ptr) => rfl

theorem request_sim (h : Sim a c) {t : Nat} {r : Request} {c' : Scripted}
    (hs : c.step (.request t r) = some c') (href : c'.refusals ≤ c.refusals) :
    ∃ a', a.step (.request t r) = some a' ∧ Sim a' c' := by
  obtain ⟨sys, hsys, rfl⟩ := Option.map_eq_some_iff.mp hs
  have he : sys = c.sys.request t r := Option.some_inj.mp (hsys.symm.trans (step_request h.running t r))
  rw [Scripted.refusals_opened] at href
  exact ⟨_, rfl, h.request hsys (fun _ _ h0 => by cases h0) he href⟩

theorem deallocate_null_sim (h : Sim a c) {t : Nat} {c' : Scripted}
    (hs : c.step (.deallocate t none) = some c') : ∃ a', a.step (.deallocate t none) = some a' ∧ Sim a' c' := by
  unfold Scripted.step at hs
  obtain ⟨o, ho, hs⟩ := Option.bind_eq_some_iff.mp hs
  obtain ⟨sys, hsys, rfl⟩ := Option.map_eq_some_iff.mp hs
  cases ho
  have hsame : sys = c.sys :=
    Option.some_inj.mp (hsys.symm.trans (step_deallocate h.running t (Or.inl rfl)))
  refine ⟨_, rfl, ?_⟩
  change Sim _ (c.advance sys .success (c.without c.next))
  rw [h.without_next]
  rw [hsame] at hsys
  rw [hsame]
  exact h.idle hsys (fun _ _ h0 => by cases h0) _ rfl rfl h.reports

theorem deallocate_sim (h : Sim a c) {t name : Nat} {c' : Scripted}
    (hs : c.step (.deallocate t (some name)) = some c') :
    ∃ a', a.step (.deallocate t (some name)) = some a' ∧ Sim a' c' := by
  obtain ⟨o, ho, hs⟩ := Option.bind_eq_some_iff.mp hs
  obtain ⟨sys, hsys, rfl⟩ := Option.map_eq_some_iff.mp hs
  obtain ⟨i, hi, hh, hmem, -⟩ := h.found ho
  have he := Option.some_inj.mp (hsys.symm.trans
    (step_deallocate h.running t (Or.inr (Or.inl (h.mem_pointers hmem)))))
  obtain ⟨hok, hsim⟩ := h.free hsys (fun _ _ h0 => by cases h0) he hmem hh .success
  refine ⟨a.deallocate .success i, ?_, ?_⟩
  · change (a.find name).map _ = _
    rw [hi]
    rfl
  · rw [hok]
    exact hsim

/-- `reallocate(nullptr, n)` is `allocate(n)`. -/
theorem resized_nobody (h : Sim a c) (t newSize : Nat) :
    c.resized sys c.nobody newSize (c.sys.impl.reallocate t c.nobody.ptr newSize).1 =
      c.opened sys (Request.allocate newSize).size (fun _ => false) c.owners
        ((Request.allocate newSize).run c.sys.impl t).1 := by
  unfold AllocatorImpl.reallocate Request.run
  rw [if_pos (show c.nobody.ptr = 0 from rfl)]
  dsimp only
  generalize c.sys.impl.allocate t newSize = q
  obtain ⟨res, j⟩ := q
  cases res with
  | error e => rfl
  | ok ptr =>
    unfold Scripted.resized Scripted.opened
    dsimp only
    rw [show c.nobody.name = c.next from rfl, h.without_next]
    simp only [Scripted.nobody, Bool.and_false]

theorem reallocate_null_sim (h : Sim a c) {t newSize : Nat} {c' : Scripted}
    (hs : c.step (.reallocate t none newSize) = some c') (href : c'.refusals ≤ c.refusals) :
    ∃ a', a.step (.reallocate t none newSize) = some a' ∧ Sim a' c' := by
  unfold Scripted.step at hs
  obtain ⟨o, ho, hs⟩ := Option.bind_eq_some_iff.mp hs
  obtain ⟨sys, hsys, rfl⟩ := Option.map_eq_some_iff.mp hs
  cases ho
  have he := Option.some_inj.mp (hsys.symm.trans (step_reallocate h.running t (Or.inl rfl) newSize))
  rw [reallocate_null] at he
  rw [Scripted.refusals_resized] at href
  refine ⟨_, rfl, ?_⟩
  rw [resized_nobody h]
  exact h.request hsys (fun _ _ h0 => by cases h0) he href

/-- `reallocate(p, 0)` is `deallocate(p)`. -/
theorem reallocate_zero_result {s : AllocatorImpl} {t p : Nat} (h0 : p ≠ 0) (hok : (s.deallocate t p).1 = .ok ()) :
    (s.reallocate t p 0).1 = .ok none := by
  unfold AllocatorImpl.reallocate
  rw [if_neg h0, if_pos rfl]
  generalize s.deallocate t p = q at hok
  obtain ⟨res, j⟩ := q
  cases res with
  | error e => cases hok
  | ok u => rfl

theorem reallocate_sim (h : Sim a c) {t name newSize : Nat} {c' : Scripted}
    (hs : c.step (.reallocate t (some name) newSize) = some c') (href : c'.refusals ≤ c.refusals) :
    ∃ a', a.step (.reallocate t (some name) newSize) = some a' ∧ Sim a' c' := by
  obtain ⟨o, ho, hs⟩ := Option.bind_eq_some_iff.mp hs
  obtain ⟨sys, hsys, rfl⟩ := Option.map_eq_some_iff.mp hs
  obtain ⟨i, hi, hh, hmem, -⟩ := h.found ho
  have he := Option.some_inj.mp (hsys.symm.trans
    (step_reallocate h.running t (Or.inr (Or.inl (h.mem_pointers hmem))) newSize))
  refine ⟨a.reallocate i newSize, ?_, ?_⟩
  · change (a.find name).map _ = _
    rw [hi]
    rfl
  · by_cases hn : newSize = 0
    · subst hn
      rw [reallocate_zero _ _ (h.ptr_ne_zero hmem)] at he
      obtain ⟨hok, hsim⟩ := h.free hsys (fun _ _ h0 => by cases h0) he hmem hh .null
      rw [reallocate_zero_result (h.ptr_ne_zero hmem) hok]
      exact hsim
    · rw [Scripted.refusals_resized] at href
      exact h.resize hn hsys he hmem hh href

theorem allocationSize_sim (h : Sim a c) {name : Nat} {c' : Scripted}
    (hs : c.step (.allocationSize name) = some c') :
    ∃ a', a.step (.allocationSize name) = some a' ∧ Sim a' c' := by
  obtain ⟨o, ho, rfl⟩ := Option.map_eq_some_iff.mp hs
  obtain ⟨i, hi, hh, hmem, -⟩ := h.found ho
  obtain ⟨live, hg⟩ := h.good
  obtain ⟨d, hd, hptr, hsize⟩ := h.alloc_of hg hmem
  have hsz : c.sys.impl.allocationSize o.ptr = i.size := by
    rw [← hptr, allocationSize_spec hg.memory hd (hg.passes hd), hsize, hh.size]
  refine ⟨a.advance (.size i.size) a.items a.stats, ?_, ?_⟩
  · change (a.find name).map _ = _
    rw [hi]
    rfl
  · rw [hsz]
    exact h.still _

theorem read_sim (h : Sim a c) {name offset : Nat} {c' : Scripted}
    (hs : c.step (.read name offset) = some c') :
    ∃ a', a.step (.read name offset) = some a' ∧ Sim a' c' := by
  obtain ⟨o, ho, hs⟩ := Option.bind_eq_some_iff.mp hs
  obtain ⟨i, hi, hh, -, -⟩ := h.found ho
  obtain ⟨hoff, hs⟩ := Option.ite_none_right_eq_some.mp hs
  cases hs
  have hbyte : (if o.written offset then some (c.sys.mem (o.ptr + offset)) else none) = i.bytes offset := by
    rw [← hh.written offset]
    cases hb : i.bytes offset with
    | none => rfl
    | some v =>
      rw [(hh.bytes offset v hb).2]
      rfl
  refine ⟨a.advance (.byte (i.bytes offset)) a.items a.stats, ?_, ?_⟩
  · change (a.find name).bind _ = _
    rw [hi]
    exact if_pos (by rw [hh.size]; exact hoff)
  · rw [hbyte]
    exact h.still _

theorem write_sim (h : Sim a c) {name offset : Nat} {value : UInt8} {c' : Scripted}
    (hs : c.step (.write name offset value) = some c') :
    ∃ a', a.step (.write name offset value) = some a' ∧ Sim a' c' := by
  obtain ⟨o, ho, hs⟩ := Option.bind_eq_some_iff.mp hs
  obtain ⟨i, hi, hh, hmem, hname⟩ := h.found ho
  by_cases hoff : offset < o.size
  · rw [if_pos hoff] at hs
    obtain ⟨sys, hsys, rfl⟩ := Option.map_eq_some_iff.mp hs
    refine ⟨a.advance .done (a.write name offset value) a.stats, ?_, ?_⟩
    · change (a.find name).bind _ = _
      rw [hi]
      exact if_pos (by rw [hh.size]; exact hoff)
    · exact h.written hmem hname hoff hsys
  · rw [if_neg hoff] at hs
    cases hs

theorem exit_sim (h : Sim a c) {t : Nat} {c' : Scripted} (hs : c.step (.exit t) = some c') :
    ∃ a', a.step (.exit t) = some a' ∧ Sim a' c' := by
  obtain ⟨sys, hsys, rfl⟩ := Option.map_eq_some_iff.mp hs
  have he := Option.some_inj.mp (hsys.symm.trans (step_exit h.running t))
  exact ⟨_, rfl, h.idle hsys (fun _ _ h0 => by cases h0) _ (by rw [he]) (by rw [he])
    (by rw [he]; exact h.reports)⟩

/-- **A step of the allocator is the step of the script**, when the OS refuses nothing. -/
theorem step_sim (h : Sim a c) {call : ScriptCall} {c' : Scripted} (hs : c.step call = some c')
    (href : c'.refusals ≤ c.refusals) : ∃ a', a.step call = some a' ∧ Sim a' c' := by
  cases call with
  | request t r => exact request_sim h hs href
  | deallocate t name =>
    cases name with
    | none => exact deallocate_null_sim h hs
    | some name => exact deallocate_sim h hs
  | reallocate t name newSize =>
    cases name with
    | none => exact reallocate_null_sim h hs href
    | some name => exact reallocate_sim h hs href
  | allocationSize name => exact allocationSize_sim h hs
  | read name offset => exact read_sim h hs
  | write name offset value => exact write_sim h hs
  | exit t => exact exit_sim h hs

/-- A call is possible exactly when the script allows it. -/
theorem step_enabled (h : Sim a c) (call : ScriptCall) : (c.step call).isSome = (a.step call).isSome := by
  cases call with
  | request t r =>
    unfold Scripted.step
    dsimp only
    rw [step_request h.running]
    rfl
  | exit t =>
    unfold Scripted.step
    dsimp only
    rw [step_exit h.running]
    rfl
  | deallocate t name =>
    cases name with
    | none =>
      unfold Scripted.step
      dsimp only
      rw [show c.target none = some c.nobody from rfl, Option.bind_some,
        step_deallocate h.running t (p := c.nobody.ptr) (Or.inl rfl)]
      rfl
    | some name =>
      unfold Scripted.step Spec.step
      dsimp only
      rw [show c.target (some name) = c.find name from rfl]
      rcases h.find_cases name with ⟨hi, ho⟩ | ⟨i, o, hi, ho, -⟩
      · rw [hi, ho]
        rfl
      · rw [hi, ho, Option.bind_some, step_deallocate h.running t
          (Or.inr (Or.inl (h.mem_pointers (Sim.find_mem ho).1)))]
        rfl
  | reallocate t name newSize =>
    cases name with
    | none =>
      unfold Scripted.step
      dsimp only
      rw [show c.target none = some c.nobody from rfl, Option.bind_some,
        step_reallocate h.running t (p := c.nobody.ptr) (Or.inl rfl)]
      rfl
    | some name =>
      unfold Scripted.step Spec.step
      dsimp only
      rw [show c.target (some name) = c.find name from rfl]
      rcases h.find_cases name with ⟨hi, ho⟩ | ⟨i, o, hi, ho, -⟩
      · rw [hi, ho]
        rfl
      · rw [hi, ho, Option.bind_some, step_reallocate h.running t
          (Or.inr (Or.inl (h.mem_pointers (Sim.find_mem ho).1)))]
        rfl
  | allocationSize name =>
    unfold Scripted.step Spec.step
    dsimp only
    rcases h.find_cases name with ⟨hi, ho⟩ | ⟨i, o, hi, ho, -⟩ <;> rw [hi, ho] <;> rfl
  | read name offset =>
    unfold Scripted.step Spec.step
    dsimp only
    rcases h.find_cases name with ⟨hi, ho⟩ | ⟨i, o, hi, ho, hh⟩
    · rw [hi, ho]
      rfl
    · rw [hi, ho, Option.bind_some, Option.bind_some, hh.size]
      split <;> rfl
  | write name offset value =>
    unfold Scripted.step Spec.step
    dsimp only
    rcases h.find_cases name with ⟨hi, ho⟩ | ⟨i, o, hi, ho, hh⟩
    · rw [hi, ho]
      rfl
    · rw [hi, ho, Option.bind_some, Option.bind_some, hh.size]
      split
      · obtain ⟨e, he, hptr, hsize⟩ := h.entry_of (Sim.find_mem ho).1
        rw [step_write h.running he (x := o.ptr + offset)
          (by unfold Span.Has Entry.range; simp only; omega)]
        rfl
      · rfl

/-! ## Whole scripts -/

/-- A step of a script is a step of the system, or none. -/
theorem Scripted.step_sys {call : ScriptCall} {c' : Scripted} (hs : c.step call = some c') :
    c'.sys = c.sys ∨ ∃ call', c.sys.step call' = some c'.sys := by
  cases call with
  | request t r =>
    obtain ⟨sys, hsys, rfl⟩ := Option.map_eq_some_iff.mp hs
    refine Or.inr ⟨_, hsys.trans ?_⟩
    generalize (r.run c.sys.impl t).1 = res
    cases res <;> rfl
  | deallocate t name =>
    obtain ⟨o, ho, hs⟩ := Option.bind_eq_some_iff.mp hs
    obtain ⟨sys, hsys, rfl⟩ := Option.map_eq_some_iff.mp hs
    refine Or.inr ⟨_, hsys.trans ?_⟩
    generalize (c.sys.impl.deallocate t o.ptr).1 = res
    cases res <;> rfl
  | reallocate t name newSize =>
    obtain ⟨o, ho, hs⟩ := Option.bind_eq_some_iff.mp hs
    obtain ⟨sys, hsys, rfl⟩ := Option.map_eq_some_iff.mp hs
    refine Or.inr ⟨_, hsys.trans ?_⟩
    generalize (c.sys.impl.reallocate t o.ptr newSize).1 = res
    match res with
    | .error e => rfl
    | .ok none => rfl
    | .ok (some ptr) => rfl
  | allocationSize name =>
    obtain ⟨o, ho, rfl⟩ := Option.map_eq_some_iff.mp hs
    exact Or.inl rfl
  | read name offset =>
    obtain ⟨o, ho, hs⟩ := Option.bind_eq_some_iff.mp hs
    split at hs
    · cases hs
      exact Or.inl rfl
    · cases hs
  | write name offset value =>
    obtain ⟨o, ho, hs⟩ := Option.bind_eq_some_iff.mp hs
    split at hs
    · obtain ⟨sys, hsys, rfl⟩ := Option.map_eq_some_iff.mp hs
      exact Or.inr ⟨_, hsys⟩
    · cases hs
  | exit t =>
    obtain ⟨sys, hsys, rfl⟩ := Option.map_eq_some_iff.mp hs
    exact Or.inr ⟨_, hsys⟩

theorem Scripted.step_refusals {call : ScriptCall} {c' : Scripted} (hs : c.step call = some c')
    (h : ∃ live, Good c.sys live) : (∃ live, Good c'.sys live) ∧ c.refusals ≤ c'.refusals := by
  rcases Scripted.step_sys hs with he | ⟨call', hs'⟩
  · unfold Scripted.refusals
    rw [he]
    exact ⟨h, Nat.le_refl _⟩
  · obtain ⟨live, hg⟩ := h
    exact ⟨(step_good hg hs').1, (step_good hg hs').2.2⟩

theorem run_refusals {script : List ScriptCall} {c c' : Scripted}
    (hrun : runFrom Scripted.step c script = some c') (h : ∃ live, Good c.sys live) :
    c.refusals ≤ c'.refusals := by
  induction script generalizing c with
  | nil =>
    cases hrun
    exact Nat.le_refl _
  | cons call script ih =>
    obtain ⟨c1, hs, hrun⟩ := run_cons.mp hrun
    obtain ⟨h1, hle⟩ := Scripted.step_refusals hs h
    exact hle.trans (ih hrun h1)

/-- A whole script on an allocator means what it means. -/
theorem run_sim {script : List ScriptCall} {a : Spec} {c c' : Scripted} (h : Sim a c)
    (hrun : runFrom Scripted.step c script = some c') (href : c'.refusals ≤ c.refusals) :
    ∃ a', runFrom Spec.step a script = some a' ∧ Sim a' c' := by
  induction script generalizing a c with
  | nil =>
    cases hrun
    exact ⟨a, rfl, h⟩
  | cons call script ih =>
    obtain ⟨c1, hs, hrun⟩ := run_cons.mp hrun
    obtain ⟨hg, hle⟩ := Scripted.step_refusals hs h.good
    have hle' := run_refusals hrun hg
    obtain ⟨a1, ha1, h1⟩ := step_sim h hs (hle'.trans href)
    obtain ⟨a', ha', h'⟩ := ih h1 hrun (href.trans hle)
    exact ⟨a', run_cons.mpr ⟨a1, ha1, ha'⟩, h'⟩

end Steps

theorem start_sim {cfg : AllocatorConfig} (hab : cfg.abortOnError = false) (m : Mem) (page : PageSize)
    (answers : List (Option Nat)) (faults : List Bool) :
    Sim {} (Scripted.start cfg (World.boot m page answers) faults) :=
  ⟨⟨[], start_good cfg m page answers faults⟩, ⟨hab, rfl⟩, rfl, rfl, by simp [Scripted.start],
    by simp [Scripted.start], List.Perm.refl _, .nil, rfl, by simp [Scripted.start, ClientSys.start]⟩

/-- No report of a bad pointer or of corruption. -/
def Clean (c : Scripted) : Prop :=
  ∀ r ∈ c.sys.impl.reports, r.1 ≠ .DoubleFree ∧ r.1 ≠ .InvalidPointer ∧ r.1 ≠ .HeapCorruption

/-- What two runs of a script have in common. -/
structure Agree (c d : Scripted) : Prop where
  outcomes : c.outcomes = d.outcomes
  counters : SameCounters c.sys.impl.stats d.sys.impl.stats
  enabled : ∀ call, (c.step call).isSome = (d.step call).isSome
  clean : Clean c ∧ Clean d

theorem Sim.clean {a : Spec} {c : Scripted} (h : Sim a c) : Clean c := by
  intro r hr
  rcases h.reports r hr with h0 | h0 <;> rw [h0] <;> decide

/-- **Configuration transparency**: two runs of one script, in which the OS refuses nothing, agree
    whatever the two configurations are. -/
theorem transparency {cfg cfg' : AllocatorConfig} (hab : cfg.abortOnError = false)
    (hab' : cfg'.abortOnError = false) {m m' : Mem} {page page' : PageSize}
    {answers answers' : List (Option Nat)} {faults faults' : List Bool} {script : List ScriptCall}
    {c d : Scripted}
    (hc : runFrom Scripted.step (Scripted.start cfg (World.boot m page answers) faults) script = some c)
    (hd : runFrom Scripted.step (Scripted.start cfg' (World.boot m' page' answers') faults') script = some d)
    (hrc : c.refusals = 0) (hrd : d.refusals = 0) : Agree c d := by
  obtain ⟨a, ha, hsc⟩ := run_sim (start_sim hab m page answers faults) hc
    (by rw [hrc]; exact Nat.zero_le _)
  obtain ⟨b, hb, hsd⟩ := run_sim (start_sim hab' m' page' answers' faults') hd
    (by rw [hrd]; exact Nat.zero_le _)
  cases ha.symm.trans hb
  exact ⟨hsc.outcomes.symm.trans hsd.outcomes, hsc.stats.trans hsd.stats,
    fun call => (step_enabled hsc call).trans (step_enabled hsd call).symm, hsc.clean, hsd.clean⟩

/-- A script through all tiers: allocate, write, resize, read, free. -/
def mixedScript : List ScriptCall :=
  [.request 0 (.allocate 24), .write 0 5 7, .reallocate 1 (some 0) 5000, .read 2 5,
    .request 0 (.alignedAllocate 64 300000), .deallocate 0 (some 2), .allocationSize 4]

theorem transparency_mixedScript : ∃ c d,
    runFrom Scripted.step (Scripted.start {} roomyWorld []) mixedScript = some c ∧
    runFrom Scripted.step (Scripted.start
      { enableGuardBytes := true, enablePoisoning := true, enableLeakTracking := true,
        enableThreadCache := false } roomyWorld []) mixedScript = some d ∧
    c.refusals = 0 ∧ d.refusals = 0 ∧ Agree c d := by
  obtain ⟨c, hc, hrc⟩ := Option.map_eq_some_iff.mp (show
    (runFrom Scripted.step (Scripted.start {} roomyWorld []) mixedScript).map Scripted.refusals = some 0 by
      decide +kernel)
  obtain ⟨d, hd, hrd⟩ := Option.map_eq_some_iff.mp (show
    (runFrom Scripted.step (Scripted.start
      { enableGuardBytes := true, enablePoisoning := true, enableLeakTracking := true,
        enableThreadCache := false } roomyWorld []) mixedScript).map Scripted.refusals = some 0 by
      decide +kernel)
  exact ⟨c, d, hc, hd, hrc, hrd, transparency rfl rfl hc hd hrc hrd⟩

end MAlloc.Client
