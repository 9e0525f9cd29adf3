/-
  The objects users hold, and the adapters bound to them.

  Of the `Allocator` objects one, the owner, has the implementation, and a move passes it on. Users call
  any of them, or hand it to `MemoryResource` and `StlAllocator`; `storage` is what those two have
  handed out and not taken back, and nobody else frees it. A call reaches the implementation as at most
  one call of `ClientSys` (`UserCall.underlying`), so each run is one of `ClientSys`; and storage is what the
  standard asks of it (`storage_of_run`, `answers_of_run`).
-/
import MAlloc.Client.Failure
import MAlloc.Client.Separation
import MAlloc.Model.Allocator

namespace MAlloc.Client

open Lib AllocatorImpl

/-! ## The system -/

/-- What an adapter has handed out. -/
structure Storage where
  ptr : Nat
  bytes : Nat
  align : Nat
  deriving DecidableEq, Repr

def Storage.range (u : Storage) : Span := ⟨u.ptr, u.bytes⟩

/-- What the user of a call gets. -/
inductive Answer where
  | pointer (ptr : Nat)
  | error (e : Error)
  | badAlloc
  | done
  deriving DecidableEq, Repr

namespace Answer

def ofResult : Except Error Nat → Answer
  | .ok ptr => pointer ptr
  | .error e => error e

def ofStatus : Except Error Unit → Answer
  | .ok () => done
  | .error e => error e

def ofThrowing : Option Nat → Answer
  | some ptr => pointer ptr
  | none => badAlloc

/-- An adapter that was answered with a pointer has handed out storage. -/
def handed (answer : Answer) (bytes align : Nat) (l : List Storage) : List Storage :=
  match answer with
  | pointer ptr => ⟨ptr, bytes, align⟩ :: l
  | _ => l

end Answer

/-- A call on an `Allocator`, or on an adapter bound to it. -/
inductive UserCall where
  | allocate (size : Nat)
  | deallocate (ptr : Nat)
  | reallocate (ptr newSize : Nat)
  | alignedAllocate (alignment size : Nat)
  | tryAllocate (size : Nat)
  | tryDeallocate (ptr : Nat)
  | tryAlignedAllocate (alignment size : Nat)
  | doAllocate (bytes alignment : Nat)
  | doDeallocate (ptr : Nat)
  | containerAllocate (T : ElementType) (count : Nat)
  | containerDeallocate (ptr : Nat)

/-- What the adapters ask the allocator for. -/
def adapterRequest (bytes alignment : Nat) : Request :=
  if alignment > 16 then .alignedAllocate alignment bytes else .allocate bytes

namespace UserCall

def run (a : Allocator) (t : Nat) : UserCall → Answer × Allocator
  | .allocate size => (a.allocate t size).map .pointer id
  | .deallocate ptr => (.done, a.deallocate t ptr)
  | .reallocate ptr newSize => (a.reallocate t ptr newSize).map .pointer id
  | .alignedAllocate alignment size => (a.alignedAllocate t alignment size).map .pointer id
  | .tryAllocate size => (a.tryAllocate t size).map .ofResult id
  | .tryDeallocate ptr => (a.tryDeallocate t ptr).map .ofStatus id
  | .tryAlignedAllocate alignment size => (a.tryAlignedAllocate t alignment size).map .ofResult id
  | .doAllocate bytes alignment => (MemoryResource.doAllocate a t bytes alignment).map .ofThrowing id
  | .doDeallocate ptr => (.done, MemoryResource.doDeallocate a t ptr)
  | .containerAllocate T count => (StlAllocator.allocateFrom T a t count).map .ofThrowing id
  | .containerDeallocate ptr => (.done, StlAllocator.deallocate a t ptr)

/-- The call that reaches the implementation. -/
def underlying (t : Nat) : UserCall → Option ClientCall
  | .allocate size => some (.request t (.allocate size))
  | .deallocate ptr => some (.deallocate t ptr)
  | .reallocate ptr newSize => some (.reallocate t ptr newSize)
  | .alignedAllocate alignment size => some (.request t (.alignedAllocate alignment size))
  | .tryAllocate size => some (.request t (.allocate size))
  | .tryDeallocate ptr => some (.deallocate t ptr)
  | .tryAlignedAllocate alignment size => some (.request t (.alignedAllocate alignment size))
  | .doAllocate bytes alignment => some (.request t (adapterRequest bytes alignment))
  | .doDeallocate ptr => some (.deallocate t ptr)
  | .containerAllocate T count =>
    if count > (2 ^ 64 - 1) / T.sizeof then none
    else some (.request t (adapterRequest (StlAllocator.bytes T count) T.alignof))
  | .containerDeallocate ptr => some (.deallocate t ptr)

/-- The bytes and the alignment an adapter is asked for. -/
def asks : UserCall → Option (Nat × Nat)
  | .doAllocate bytes alignment => some (bytes, alignment)
  | .containerAllocate T count => some (count * T.sizeof, T.alignof)
  | _ => none

/-- The storage after the call has been answered. -/
def stored (c : UserCall) (answer : Answer) (l : List Storage) : List Storage :=
  match c with
  | .doAllocate bytes alignment => answer.handed bytes alignment l
  | .containerAllocate T count => answer.handed (count * T.sizeof) T.alignof l
  | .doDeallocate ptr => l.filter fun u => decide (u.ptr ≠ ptr)
  | .containerDeallocate ptr => l.filter fun u => decide (u.ptr ≠ ptr)
  | _ => l

end UserCall

structure Facade where
  sys : ClientSys
  owner : Nat
  storage : List Storage := []

inductive FacadeEvent where
  | call (h t : Nat) (c : UserCall)
  | move (src dst : Nat)
  | write (addr : Nat) (value : UInt8)
  | exit (t : Nat)

namespace Facade

/-- The `Allocator` object `h`. -/
def object (s : Facade) (h : Nat) : Allocator := ⟨if h = s.owner then some s.sys.impl else none⟩

def pointers (s : Facade) : List Nat := s.storage.map Storage.ptr

/-- What the users of adapters promise: alignments are powers of two, and storage goes back the way it
    came. -/
def promised (s : Facade) : UserCall → Bool
  | .doAllocate _ alignment => isPowerOfTwo alignment
  | .containerAllocate T _ => isPowerOfTwo T.alignof
  | .doDeallocate ptr => decide (ptr ∈ s.pointers)
  | .containerDeallocate ptr => decide (ptr ∈ s.pointers)
  | .deallocate ptr => decide (ptr ∉ s.pointers)
  | .tryDeallocate ptr => decide (ptr ∉ s.pointers)
  | .reallocate ptr _ => decide (ptr ∉ s.pointers)
  | _ => true

/-- A call by thread `t` on the object `h`. -/
def call (s : Facade) (h t : Nat) (c : UserCall) : Option Facade :=
  if h = s.owner then
    match c.underlying t with
    | none => some s
    | some under => (s.sys.step under).map fun sys =>
      { s with sys := sys, storage := c.stored (c.run (s.object h) t).1 s.storage }
  else some s

/-- Assigning to the owner from another object would destroy the implementation: no step. -/
def step (s : Facade) (event : FacadeEvent) : Option Facade :=
  if s.sys.impl.aborted then none
  else
    match event with
    | .call h t c => if s.promised c then s.call h t c else none
    | .move src dst =>
      if src = s.owner then some { s with owner := dst }
      else if dst = s.owner then none
      else some s
    | .write addr value => (s.sys.step (.write addr value)).map fun sys => { s with sys := sys }
    | .exit t => (s.sys.step (.exit t)).map fun sys => { s with sys := sys }

def start (cfg : AllocatorConfig) (w : World) (faults : List Bool) : Facade where
  sys := ClientSys.start cfg w faults
  owner := 0

end Facade

/-! ## The calls -/

section Calls
variable {s s' : ClientSys} {live : List Alloc} {t p n : Nat} {l : List Storage} {u : Storage}

theorem request_impl (s : ClientSys) (t : Nat) (r : Request) : (s.request t r).impl = (r.run s.impl t).2 := by
  unfold ClientSys.request
  generalize r.run s.impl t = q
  obtain ⟨res, i⟩ := q
  cases res <;> rfl

theorem deallocate_impl (s : ClientSys) (t p : Nat) : (s.deallocate t p).impl = (s.impl.deallocate t p).2 := by
  unfold ClientSys.deallocate
  generalize s.impl.deallocate t p = q
  obtain ⟨res, i⟩ := q
  cases res
  · rfl
  · dsimp only
    split <;> rfl

theorem reallocate_impl (s : ClientSys) (t p n : Nat) :
    (s.reallocate t p n).impl = (s.impl.reallocate t p n).2 := by
  unfold ClientSys.reallocate
  generalize s.impl.reallocate t p n = q
  obtain ⟨res, i⟩ := q
  cases res with
  | error e => rfl
  | ok fresh =>
    cases fresh
    · rfl
    · dsimp only
      split <;> rfl

/-- An adapter over an implementation makes its request, and throws for null. -/
theorem allocateOrThrow_some (i : AllocatorImpl) (t bytes alignment : Nat) :
    Allocator.allocateOrThrow ⟨some i⟩ t bytes alignment =
      (if valueOrNull ((adapterRequest bytes alignment).run i t).1 = 0 then none
        else some (valueOrNull ((adapterRequest bytes alignment).run i t).1),
        ⟨some ((adapterRequest bytes alignment).run i t).2⟩) := by
  have hthrow : ∀ q : Except Error Nat × AllocatorImpl,
      (if valueOrNull q.1 = 0 then (none, ⟨some q.2⟩) else (some (valueOrNull q.1), ⟨some q.2⟩) :
        Option Nat × Allocator) = (if valueOrNull q.1 = 0 then none else some (valueOrNull q.1), ⟨some q.2⟩) := by
    intro q
    split <;> rfl
  unfold Allocator.allocateOrThrow adapterRequest
  by_cases ha : alignment > 16
  · rw [if_pos ha, if_pos ha]
    exact hthrow _
  · rw [if_neg ha, if_neg ha]
    exact hthrow _

theorem Unchanged.refl (s : ClientSys) (t : Nat) : Unchanged s s t :=
  ⟨⟨⟨rfl, rfl, rfl⟩, rfl, rfl, rfl, Or.inl rfl⟩, rfl, rfl, rfl, rfl⟩

theorem request_of_step {r : Request} (hs : s.step (.request t r) = some s') : s' = s.request t r := by
  unfold ClientSys.step at hs
  split at hs
  · cases hs
  · exact (Option.some.inj hs).symm

theorem deallocate_of_step (hs : s.step (.deallocate t p) = some s') : s' = s.deallocate t p := by
  unfold ClientSys.step at hs
  split at hs
  · cases hs
  · exact (Option.some.inj (Option.ite_none_right_eq_some.mp hs).2).symm

theorem reallocate_of_step (hs : s.step (.reallocate t p n) = some s') : s' = s.reallocate t p n := by
  unfold ClientSys.step at hs
  split at hs
  · cases hs
  · exact (Option.some.inj (Option.ite_none_right_eq_some.mp hs).2).symm

/-- A call that reaches the implementation leaves it as the call underneath does. -/
theorem run_underlying (c : UserCall) {under : ClientCall} (hu : c.underlying t = some under)
    (hs : s.step under = some s') : (c.run ⟨some s.impl⟩ t).2 = ⟨some s'.impl⟩ := by
  have hrequest : ∀ r, s.step (.request t r) = some s' → (r.run s.impl t).2 = s'.impl := by
    intro r hs
    rw [request_of_step hs, request_impl]
  have hfree : ∀ p, s.step (.deallocate t p) = some s' → (s.impl.deallocate t p).2 = s'.impl := by
    intro p hs
    rw [deallocate_of_step hs, deallocate_impl]
  have hadapter : ∀ bytes align, s.step (.request t (adapterRequest bytes align)) = some s' →
      (Allocator.allocateOrThrow ⟨some s.impl⟩ t bytes align).2 = ⟨some s'.impl⟩ := by
    intro bytes align hs
    rw [allocateOrThrow_some, hrequest _ hs]
  have hlift : ∀ {i : AllocatorImpl}, i = s'.impl → (⟨some i⟩ : Allocator) = ⟨some s'.impl⟩ := by
    intro i hi
    rw [hi]
  cases c with
  | allocate size =>
    cases hu
    exact hlift (hrequest _ hs)
  | deallocate ptr =>
    cases hu
    exact hlift (hfree _ hs)
  | reallocate ptr newSize =>
    cases hu
    refine hlift ?_
    rw [reallocate_of_step hs, reallocate_impl]
  | alignedAllocate alignment size =>
    cases hu
    exact hlift (hrequest _ hs)
  | tryAllocate size =>
    cases hu
    exact hlift (hrequest _ hs)
  | tryDeallocate ptr =>
    cases hu
    exact hlift (hfree _ hs)
  | tryAlignedAllocate alignment size =>
    cases hu
    exact hlift (hrequest _ hs)
  | doAllocate bytes alignment =>
    cases hu
    exact hadapter _ _ hs
  | doDeallocate ptr =>
    cases hu
    exact hlift (hfree _ hs)
  | containerAllocate T count =>
    obtain ⟨hfit, hu⟩ := Option.ite_none_left_eq_some.mp hu
    cases hu
    change (StlAllocator.allocateFrom T ⟨some s.impl⟩ t count).2 = _
    unfold StlAllocator.allocateFrom
    rw [if_neg hfit]
    exact hadapter _ _ hs
  | containerDeallocate ptr =>
    cases hu
    exact hlift (hfree _ hs)

/-- A call that does not reach the implementation is a container that asks for too many elements. -/
theorem run_thrown (c : UserCall) (hu : c.underlying t = none) (a : Allocator) :
    c.run a t = (.badAlloc, a) := by
  cases c <;> try cases hu
  case containerAllocate T count =>
    have hmany : count > (2 ^ 64 - 1) / T.sizeof := by
      by_contra hfit
      cases (if_neg hfit).symm.trans hu
    unfold UserCall.run StlAllocator.allocateFrom
    dsimp only
    rw [if_pos hmany]
    rfl

theorem allocateOrThrow_none (t bytes alignment : Nat) :
    Allocator.allocateOrThrow ⟨none⟩ t bytes alignment = (none, ⟨none⟩) := by
  unfold Allocator.allocateOrThrow
  split <;> rfl

/-- An object that has been moved from stays empty. -/
theorem run_null (c : UserCall) (t : Nat) : (c.run ⟨none⟩ t).2 = ⟨none⟩ := by
  cases c <;> try rfl
  case doAllocate bytes alignment => exact congrArg Prod.snd (allocateOrThrow_none t bytes alignment)
  case containerAllocate T count =>
    change (StlAllocator.allocateFrom T ⟨none⟩ t count).2 = _
    unfold StlAllocator.allocateFrom
    split
    · rfl
    · rw [allocateOrThrow_none]

/-- `count * sizeof(T)` does not wrap when it passes the check. -/
theorem bytes_eq {T : ElementType} {count : Nat} (hfit : ¬ count > (2 ^ 64 - 1) / T.sizeof) :
    StlAllocator.bytes T count = count * T.sizeof := by
  have hle := (Nat.le_div_iff_mul_le T.sizeof_pos).mp (Nat.le_of_not_lt hfit)
  exact Nat.mod_eq_of_lt (by omega)

/-- What an adapter does with what it is asked for. -/
theorem asks_cases {c : UserCall} {bytes align : Nat} (hask : c.asks = some (bytes, align)) (t : Nat) :
    c.underlying t = none ∨ c.underlying t = some (.request t (adapterRequest bytes align)) ∧
      ∀ a, (c.run a t).1 = Answer.ofThrowing (a.allocateOrThrow t bytes align).1 := by
  cases c <;> try cases hask
  case doAllocate => exact Or.inr ⟨rfl, fun _ => rfl⟩
  case containerAllocate T count =>
    unfold UserCall.underlying
    dsimp only
    by_cases hfit : count > (2 ^ 64 - 1) / T.sizeof
    · exact Or.inl (if_pos hfit)
    · rw [if_neg hfit, bytes_eq hfit]
      refine Or.inr ⟨rfl, fun a => ?_⟩
      change Answer.ofThrowing (StlAllocator.allocateFrom T a t count).1 = _
      unfold StlAllocator.allocateFrom
      rw [if_neg hfit, bytes_eq hfit]

theorem stored_asks {c : UserCall} {bytes align : Nat} (hask : c.asks = some (bytes, align)) (answer : Answer)
    (l : List Storage) : c.stored answer l = answer.handed bytes align l := by
  cases c <;> cases hask <;> rfl

theorem underlying_ne_write (c : UserCall) (t x : Nat) (v : UInt8) : c.underlying t ≠ some (.write x v) := by
  intro hu
  cases c <;> try cases hu
  obtain ⟨-, hu⟩ := Option.ite_none_left_eq_some.mp hu
  cases hu

end Calls

/-! ## Storage -/

/-- Storage is live, aligned, and handed out once. -/
structure Served (l : List Storage) (live : List Alloc) : Prop where
  live : ∀ u ∈ l, ∃ a ∈ live, a.ptr = u.ptr ∧ a.size = atLeastOne u.bytes
  aligned : ∀ u ∈ l, u.ptr % u.align = 0
  nodup : (l.map Storage.ptr).Nodup

section Storage
variable {s s' : ClientSys} {live live' : List Alloc} {t p : Nat} {l : List Storage} {r : Request}

theorem Served.filter (h : Served l live) (p : Nat) :
    Served (l.filter fun u => decide (u.ptr ≠ p)) live :=
  ⟨fun u hu => h.live u (List.mem_of_mem_filter hu), fun u hu => h.aligned u (List.mem_of_mem_filter hu),
    h.nodup.sublist (List.filter_sublist.map _)⟩

/-- Storage that is spared stays. -/
theorem Served.spared (h : Good s live) (hv : Served l live) {call : ClientCall}
    (hs : s.step call = some s') (hsp : ∀ u ∈ l, call.Spares u.ptr) :
    ∃ live', Good s' live' ∧ Served l live' := by
  obtain ⟨live', h', hst⟩ := step_stepped h hs
  refine ⟨live', h', fun u hu => ?_, hv.aligned, hv.nodup⟩
  obtain ⟨a, ha, hptr, hsize⟩ := hv.live u hu
  have hin : u.ptr ∈ s.pointers := h.ptrs.mem_iff.mp (hptr ▸ List.mem_map_of_mem ha)
  have hstay : a.ptr ∈ s'.pointers := hptr ▸ step_spares hs (hsp u hu) hin
  exact ⟨a, hst.stays a ha hstay, hptr, hsize⟩

/-- What a request is served with is new. -/
theorem Good.fresh (h' : Good (s.request t r) live') (hr : (r.run s.impl t).1 = .ok p) :
    p ≠ 0 ∧ p % 16 = 0 ∧ p % r.align = 0 ∧ (∃ a ∈ live', a.ptr = p ∧ a.size = r.size) ∧ p ∉ s.pointers := by
  have hled : (s.request t r).ledger = ⟨p, r.size, r.align, r.reserved s.impl t⟩ :: s.ledger := by
    unfold ClientSys.request
    generalize r.run s.impl t = q at hr
    obtain ⟨res, i⟩ := q
    cases hr
    rfl
  have he : (⟨p, r.size, r.align, r.reserved s.impl t⟩ : Entry) ∈ (s.request t r).ledger :=
    hled ▸ List.mem_cons_self
  obtain ⟨a, ha, hptr, hsize, -⟩ := h'.alloc_eq he
  have hb := h'.memory.bounds ha
  have hal := h'.aligned _ he
  have hnd := h'.ptr_nodup
  unfold ClientSys.pointers at hnd
  rw [hled, List.map_cons, List.nodup_cons] at hnd
  refine ⟨?_, hal.1, hal.2, ⟨a, ha, hptr, hsize⟩, hnd.1⟩
  change a.ptr = p at hptr
  omega

theorem adapterRequest_size (bytes align : Nat) : (adapterRequest bytes align).size = atLeastOne bytes := by
  unfold adapterRequest
  split <;> rfl

/-- **An adapter's request.** Storage grows by what it returns. -/
theorem Served.adapter (h : Good s live) (hv : Served l live) {bytes align : Nat}
    (hpow : isPowerOfTwo align = true) (hs : s.step (.request t (adapterRequest bytes align)) = some s') :
    ∃ live', Good s' live' ∧ Served ((Answer.ofThrowing
      (Allocator.allocateOrThrow ⟨some s.impl⟩ t bytes align).1).handed bytes align l) live' := by
  obtain ⟨live', h', hv'⟩ := hv.spared h hs fun _ _ => trivial
  refine ⟨live', h', ?_⟩
  rw [allocateOrThrow_some]
  dsimp only
  obtain rfl := request_of_step hs
  cases hr : ((adapterRequest bytes align).run s.impl t).1 with
  | error e => exact hv'
  | ok p =>
    obtain ⟨h0, h16, halign, ⟨a, ha, hptr, hsize⟩, hnew⟩ := h'.fresh hr
    have hal : p % align = 0 := by
      unfold adapterRequest at halign
      by_cases hbig : align > 16
      · rw [if_pos hbig] at halign
        exact halign
      · have hdvd := Nat.dvd_of_mod_eq_zero (dvd_16_of_pow hpow (Nat.le_of_not_lt hbig))
        exact Nat.mod_eq_zero_of_dvd (hdvd.trans (Nat.dvd_of_mod_eq_zero h16))
    rw [if_neg (by exact h0)]
    refine ⟨?_, ?_, List.nodup_cons.mpr ⟨fun hin => ?_, hv'.nodup⟩⟩
    · exact List.forall_mem_cons.mpr ⟨⟨a, ha, hptr, hsize.trans (adapterRequest_size _ _)⟩, hv'.live⟩
    · exact List.forall_mem_cons.mpr ⟨hal, hv'.aligned⟩
    · obtain ⟨u, hu, hup⟩ := List.mem_map.mp hin
      obtain ⟨d, hd, hdp, -⟩ := hv.live u hu
      exact hnew (h.ptrs.mem_iff.mp (List.mem_map.mpr ⟨d, hd, hdp.trans hup⟩))

end Storage

/-! ## The steps -/

namespace Facade

/-- The implementation is sound, and storage is served. -/
def Ok (s : Facade) : Prop := ∃ live, Good s.sys live ∧ Served s.storage live

section Steps
variable {s s' : Facade} {h t : Nat} {c : UserCall} {event : FacadeEvent}

theorem object_owner (s : Facade) : s.object s.owner = ⟨some s.sys.impl⟩ := congrArg Allocator.mk (if_pos rfl)

theorem object_other (ho : h ≠ s.owner) : s.object h = ⟨none⟩ := congrArg Allocator.mk (if_neg ho)

/-- A call either stays away from the implementation or is the call underneath. -/
theorem call_cases (hc : s.call h t c = some s') :
    s' = s ∧ (h ≠ s.owner ∨ c.underlying t = none) ∨
      ∃ under sys, h = s.owner ∧ c.underlying t = some under ∧ s.sys.step under = some sys ∧
        s' = { s with sys := sys, storage := c.stored (c.run ⟨some s.sys.impl⟩ t).1 s.storage } := by
  unfold call at hc
  split at hc
  case isTrue ho =>
    split at hc
    case h_1 hu => exact Or.inl ⟨(Option.some.inj hc).symm, Or.inr hu⟩
    case h_2 under hu =>
      obtain ⟨sys, hs, rfl⟩ := Option.map_eq_some_iff.mp hc
      subst ho
      rw [object_owner]
      exact Or.inr ⟨under, sys, rfl, hu, hs, rfl⟩
  case isFalse ho => exact Or.inl ⟨(Option.some.inj hc).symm, Or.inl ho⟩

/-- **A call keeps storage as it was handed out.** -/
theorem call_ok (hok : s.Ok) (hp : s.promised c = true) (hc : s.call h t c = some s') : s'.Ok := by
  rcases call_cases hc with ⟨rfl, -⟩ | ⟨under, sys, -, hu, hs, rfl⟩
  · exact hok
  obtain ⟨live, hg, hv⟩ := hok
  have hother : ∀ {p : Nat}, p ∉ s.pointers → ∀ u ∈ s.storage, p ≠ u.ptr := fun hp u hu hpu =>
    hp (hpu ▸ List.mem_map_of_mem hu)
  have hreturned : ∀ p, ∀ u ∈ s.storage.filter fun u => decide (u.ptr ≠ p), p ≠ u.ptr := fun p u hu hpu =>
    of_decide_eq_true (List.mem_filter.mp hu).2 hpu.symm
  have hadapter : ∀ {bytes align : Nat}, c.asks = some (bytes, align) → isPowerOfTwo align = true →
      Ok { s with sys := sys, storage := c.stored (c.run ⟨some s.sys.impl⟩ t).1 s.storage } := by
    intro bytes align hask hpow
    rcases asks_cases hask t with h0 | ⟨hreq, hrun⟩
    · cases h0.symm.trans hu
    · cases hreq.symm.trans hu
      rw [stored_asks hask, hrun]
      exact hv.adapter hg hpow hs
  cases c with
  | allocate size =>
    cases hu
    exact hv.spared hg hs fun _ _ => trivial
  | deallocate ptr =>
    cases hu
    exact hv.spared hg hs (hother (of_decide_eq_true hp))
  | reallocate ptr newSize =>
    cases hu
    exact hv.spared hg hs (hother (of_decide_eq_true hp))
  | alignedAllocate alignment size =>
    cases hu
    exact hv.spared hg hs fun _ _ => trivial
  | tryAllocate size =>
    cases hu
    exact hv.spared hg hs fun _ _ => trivial
  | tryDeallocate ptr =>
    cases hu
    exact hv.spared hg hs (hother (of_decide_eq_true hp))
  | tryAlignedAllocate alignment size =>
    cases hu
    exact hv.spared hg hs fun _ _ => trivial
  | doAllocate bytes alignment => exact hadapter rfl hp
  | doDeallocate ptr =>
    cases hu
    exact (hv.filter ptr).spared hg hs (hreturned ptr)
  | containerAllocate T count => exact hadapter rfl hp
  | containerDeallocate ptr =>
    cases hu
    exact (hv.filter ptr).spared hg hs (hreturned ptr)

theorem step_cases (hs : s.step event = some s') :
    (∃ h t c, event = .call h t c ∧ s.promised c = true ∧ s.call h t c = some s') ∨
      (∃ owner, s' = { s with owner := owner }) ∨
      ∃ under sys, (∀ p, under.Spares p) ∧ s.sys.step under = some sys ∧ s' = { s with sys := sys } ∧
        ∀ x v, under = .write x v → event = .write x v := by
  unfold step at hs
  split at hs
  · cases hs
  cases event with
  | call h t c =>
    obtain ⟨hp, hc⟩ := Option.ite_none_right_eq_some.mp hs
    exact Or.inl ⟨h, t, c, rfl, hp, hc⟩
  | move src dst =>
    refine Or.inr (Or.inl ?_)
    dsimp only at hs
    split at hs
    · exact ⟨dst, (Option.some.inj hs).symm⟩
    · obtain ⟨-, hs⟩ := Option.ite_none_left_eq_some.mp hs
      exact ⟨s.owner, (Option.some.inj hs).symm⟩
  | write addr value =>
    obtain ⟨sys, hsys, rfl⟩ := Option.map_eq_some_iff.mp hs
    refine Or.inr (Or.inr ⟨.write addr value, sys, fun _ => trivial, hsys, rfl, fun x v h0 => ?_⟩)
    cases h0
    rfl
  | exit t =>
    obtain ⟨sys, hsys, rfl⟩ := Option.map_eq_some_iff.mp hs
    exact Or.inr (Or.inr ⟨.exit t, sys, fun _ => trivial, hsys, rfl, fun x v h0 => nomatch h0⟩)

/-- **Every step keeps storage as it was handed out.** -/
theorem step_ok (hok : s.Ok) (hs : s.step event = some s') : s'.Ok := by
  rcases step_cases hs with ⟨h, t, c, -, hp, hc⟩ | ⟨owner, rfl⟩ | ⟨under, sys, hsp, hsys, rfl, -⟩
  · exact call_ok hok hp hc
  · exact hok
  · obtain ⟨live, hg, hv⟩ := hok
    exact hv.spared hg hsys fun u _ => hsp u.ptr

/-- A step is at most one step of the implementation and its clients, a write if it is one. -/
theorem step_projects (hs : s.step event = some s') :
    s'.sys = s.sys ∨ ∃ under, s.sys.step under = some s'.sys ∧
      ∀ x v, under = .write x v → event = .write x v := by
  rcases step_cases hs with ⟨h, t, c, -, -, hc⟩ | ⟨owner, rfl⟩ | ⟨under, sys, -, hsys, rfl, hw⟩
  · rcases call_cases hc with ⟨rfl, -⟩ | ⟨under, sys, -, hu, hsys, rfl⟩
    · exact Or.inl rfl
    · exact Or.inr ⟨under, hsys, fun x v h0 => absurd (h0 ▸ hu) (underlying_ne_write c t x v)⟩
  · exact Or.inl rfl
  · exact Or.inr ⟨under, hsys, hw⟩

/-- Storage that stays keeps its bytes, but for what is written. -/
theorem step_bytes (hok : s.Ok) (hs : s.step event = some s') {u : Storage} (hu : u ∈ s.storage)
    (hu' : u ∈ s'.storage) {x : Nat} (hx : u.range.Has x) (hne : ∀ v, event ≠ .write x v) :
    s'.sys.mem x = s.sys.mem x := by
  obtain ⟨live', hg', hv'⟩ := step_ok hok hs
  rcases step_projects hs with hsame | ⟨under, hsys, hw⟩
  · rw [hsame]
  · obtain ⟨live, hg, hv⟩ := hok
    obtain ⟨live'', -, hst⟩ := step_stepped hg hsys
    obtain ⟨a, ha, hptr, hsize⟩ := hv.live u hu
    obtain ⟨d, hd, hdp, -⟩ := hv'.live u hu'
    have hin : a.ptr ∈ s'.sys.pointers := by
      rw [hptr, ← hdp]
      exact hg'.ptrs.mem_iff.mp (List.mem_map_of_mem hd)
    refine hst.bytes a ha (hst.stays a ha hin) x ?_ fun v h0 => hne v (hw x v h0)
    refine (Alloc.range_inside hg.memory ha).has ?_
    unfold Storage.range Span.Has at hx
    unfold Alloc.range Span.Has
    rw [hptr, hsize]
    unfold atLeastOne
    simp only at hx ⊢
    split <;> omega

/-- **The objects are what the calls leave**: the call is on `h` alone. -/
theorem object_of_call (hc : s.call h t c = some s') (k : Nat) :
    s'.object k = if k = h then (c.run (s.object h) t).2 else s.object k := by
  have hsame : (c.run (s.object h) t).2 = s.object h →
      s.object k = if k = h then (c.run (s.object h) t).2 else s.object k := by
    intro hrun
    split
    · rename_i hk
      rw [hrun, hk]
    · rfl
  rcases call_cases hc with ⟨rfl, ho | hu⟩ | ⟨under, sys, rfl, hu, hs, rfl⟩
  · refine hsame ?_
    rw [object_other ho]
    exact run_null c t
  · refine hsame ?_
    rw [run_thrown c hu]
  · rw [object_owner, run_underlying c hu hs]
    unfold object
    dsimp only
    split <;> rfl

/-- Passing the owner on is what a move does to the two objects. -/
theorem object_of_move {src dst : Nat} (hs : s.step (.move src dst) = some s') (hne : src ≠ dst) :
    (s'.object dst, s'.object src) = (s.object src).moved := by
  unfold step at hs
  split at hs
  · cases hs
  dsimp only at hs
  split at hs
  case isTrue ho =>
    cases hs
    subst ho
    have hdst : object { s with owner := dst } dst = s.object s.owner :=
      (object_owner { s with owner := dst }).trans (object_owner s).symm
    have hsrc : object { s with owner := dst } s.owner = ⟨none⟩ := object_other hne
    rw [hdst, hsrc]
    rfl
  case isFalse ho =>
    obtain ⟨hd, hs⟩ := Option.ite_none_left_eq_some.mp hs
    cases hs
    rw [object_other hd, object_other ho]
    rfl

/-- What is promised of storage in one state. -/
structure Kept (s : Facade) : Prop where
  placed : ∀ u ∈ s.storage, u.ptr ≠ 0 ∧ u.ptr % u.align = 0 ∧
    (s.object s.owner).allocationSize u.ptr = atLeastOne u.bytes
  mapped : ∀ u ∈ s.storage, ∃ r ∈ s.sys.impl.tiers.world.mapped, u.range.Inside r
  apart : (s.storage.map Storage.range).Pairwise Span.Disjoint
  direct : ∀ u ∈ s.storage, ∀ e ∈ s.sys.ledger, e.ptr ∉ s.pointers → u.range.Disjoint e.range
  counted : (s.object s.owner).statistics.activeAllocations = s.sys.ledger.length ∧
    (s.sys.impl.config.enableLeakTracking = true →
      (s.object s.owner).liveAllocationCount = s.sys.ledger.length)

theorem Ok.kept (hok : s.Ok) : s.Kept := by
  obtain ⟨live, hg, hv⟩ := hok
  have hsep := hg.separated
  have hap := hsep.apart
  rw [List.pairwise_map] at hap
  have hsymm : Std.Symm fun a d : Entry => a.range.Disjoint d.range := ⟨fun _ _ h => h.symm⟩
  have hentry : ∀ u ∈ s.storage, ∃ e ∈ s.sys.ledger, e.ptr = u.ptr ∧ e.size = atLeastOne u.bytes ∧
      u.range.Inside e.range := by
    intro u hu
    obtain ⟨a, ha, hptr, hsize⟩ := hv.live u hu
    obtain ⟨e, he, hkey⟩ := hg.entry_of ha
    have hep : e.ptr = u.ptr := (congrArg Prod.fst hkey).trans hptr
    have hes : e.size = atLeastOne u.bytes := (congrArg (fun k => k.2.1) hkey).trans hsize
    refine ⟨e, he, hep, hes, ?_⟩
    unfold Storage.range Entry.range Span.Inside
    rw [hep, hes]
    unfold atLeastOne
    simp only
    split <;> omega
  have hne : ∀ {u v : Storage} {e f : Entry}, e.ptr = u.ptr → f.ptr = v.ptr → u.ptr ≠ v.ptr → e ≠ f := by
    rintro u v e f he hf huv rfl
    exact huv (he.symm.trans hf)
  constructor
  · intro u hu
    obtain ⟨e, he, hep, hes, -⟩ := hentry u hu
    obtain ⟨a, ha, hptr, -⟩ := hg.alloc_eq he
    have hb := hg.memory.bounds ha
    refine ⟨by omega, hv.aligned u hu, ?_⟩
    rw [object_owner, ← hep, ← hes]
    exact hsep.size e he
  · intro u hu
    obtain ⟨e, he, -, -, hin⟩ := hentry u hu
    obtain ⟨r, hr, hi⟩ := hsep.mapped e he
    exact ⟨r, hr, hin.trans hi⟩
  · refine List.pairwise_map.mpr ((List.pairwise_map.mp hv.nodup).imp_of_mem fun {u v} hu hu' huv => ?_)
    obtain ⟨e, he, hep, -, hin⟩ := hentry u hu
    obtain ⟨f, hf, hfp, -, hin'⟩ := hentry v hu'
    exact hin.disjoint hin' (hap.forall he hf (hne hep hfp huv))
  · intro u hu e he hout
    obtain ⟨f, hf, hfp, -, hin⟩ := hentry u hu
    have hfe : f ≠ e := by
      rintro rfl
      exact hout (hfp ▸ List.mem_map_of_mem hu)
    exact hin.disjoint ⟨Nat.le_refl _, Nat.le_refl _⟩ (hap.forall hf he hfe)
  · rw [object_owner]
    refine ⟨?_, fun ht => ?_⟩
    · exact hg.accounts.active.trans (Nat.mod_eq_of_lt hg.totals.2.2.1)
    · exact (hg.registry ht).live.length_eq.trans (List.length_map _)

/-- What the user of an adapter hears of a request for `bytes` bytes at a multiple of `align`. -/
structure Answered (s : Facade) (h t : Nat) (c : UserCall) (bytes align : Nat) (s' : Facade) : Prop where
  thrown_iff : (c.run (s.object h) t).1 = .badAlloc ↔ h ≠ s.owner ∨ c.underlying t = none ∨
    ∃ e, ((adapterRequest bytes align).run s.sys.impl t).1 = .error e
  thrown : (c.run (s.object h) t).1 = .badAlloc → s'.storage = s.storage ∧ Unchanged s.sys s'.sys t
  served : (c.run (s.object h) t).1 ≠ .badAlloc →
    ∃ ptr, (c.run (s.object h) t).1 = .pointer ptr ∧ s'.storage = ⟨ptr, bytes, align⟩ :: s.storage
  objects : ∀ k, s'.object k = if k = h then (c.run (s.object h) t).2 else s.object k

/-- **What an adapter answers.** -/
theorem call_answered (hok : s.Ok) (hc : s.call h t c = some s') {bytes align : Nat}
    (hask : c.asks = some (bytes, align)) : Answered s h t c bytes align s' := by
  have hobjects := object_of_call hc
  rcases call_cases hc with ⟨rfl, hno⟩ | ⟨under, sys, rfl, hu, hs, rfl⟩
  · have hbad : (c.run (s'.object h) t).1 = .badAlloc := by
      rcases asks_cases hask t with h0 | ⟨hreq, hrun⟩
      · rw [run_thrown c h0]
      · have ho : h ≠ s'.owner := hno.resolve_right fun h0 => nomatch hreq.symm.trans h0
        rw [object_other ho, hrun, allocateOrThrow_none]
        rfl
    refine ⟨⟨fun _ => hno.imp_right Or.inl, fun _ => hbad⟩, fun _ => ⟨rfl, Unchanged.refl _ _⟩,
      fun hne => absurd hbad hne, hobjects⟩
  · obtain ⟨live, hg, -⟩ := hok
    rcases asks_cases hask t with h0 | ⟨hreq, hrun⟩
    · cases h0.symm.trans hu
    cases hreq.symm.trans hu
    rw [object_owner] at hobjects
    cases hr : ((adapterRequest bytes align).run s.sys.impl t).1 with
    | error e =>
      have hbad : (c.run ⟨some s.sys.impl⟩ t).1 = .badAlloc := by
        rw [hrun, allocateOrThrow_some, hr]
        rfl
      obtain rfl := request_of_step hs
      refine ⟨⟨fun _ => Or.inr (Or.inr ⟨e, hr⟩), fun _ => ?_⟩, fun _ => ⟨?_, (hg.request_error hr).1⟩,
        fun hne => ?_, ?_⟩
      · rw [object_owner]
        exact hbad
      · dsimp only
        rw [hbad, stored_asks hask]
        rfl
      · rw [object_owner] at hne
        exact absurd hbad hne
      · rw [object_owner]
        exact hobjects
    | ok p =>
      obtain rfl := request_of_step hs
      obtain ⟨⟨live', hg'⟩, -⟩ := step_good hg hs
      have hp : (c.run ⟨some s.sys.impl⟩ t).1 = .pointer p := by
        rw [hrun, allocateOrThrow_some, hr]
        dsimp only
        rw [if_neg (by exact (hg'.fresh hr).1)]
        rfl
      rw [← object_owner] at hp hobjects
      refine ⟨⟨fun hbad => ?_, fun h0 => ?_⟩, fun hbad => ?_, fun _ => ⟨p, hp, ?_⟩, hobjects⟩
      · cases hp.symm.trans hbad
      · rcases h0 with h0 | h0 | ⟨e, h0⟩
        · exact absurd rfl h0
        · cases hreq.symm.trans h0
        · cases hr.symm.trans h0
      · cases hp.symm.trans hbad
      · dsimp only
        rw [← object_owner, hp, stored_asks hask]
        rfl

end Steps

end Facade

/-! ## Runs -/

section Runs
variable {cfg : AllocatorConfig} {m : Mem} {page : PageSize} {answers : List (Option Nat)}
  {faults : List Bool} {events : List FacadeEvent} {s : Facade}

theorem facade_ok_of_run
    (hrun : runFrom Facade.step (Facade.start cfg (World.boot m page answers) faults) events = some s) : s.Ok := by
  refine run_invariant (fun _ _ _ hok hs => Facade.step_ok hok hs) ⟨[], start_good cfg m page answers faults, ?_⟩ hrun
  exact ⟨fun u hu => absurd hu List.not_mem_nil, fun u hu => absurd hu List.not_mem_nil, List.nodup_nil⟩

/-- **Storage is what the standard asks of it.** However the `Allocator` objects, their moves and the
    adapters are used, the run is one of the implementation and its clients, and what the adapters have
    handed out is placed as asked, in mapped memory, apart from everything else; its bytes change only
    when they are written. -/
theorem storage_of_run
    (hrun : runFrom Facade.step (Facade.start cfg (World.boot m page answers) faults) events = some s) :
    (∃ calls, runFrom ClientSys.step (ClientSys.start cfg (World.boot m page answers) faults) calls =
      some s.sys) ∧ s.Kept ∧
      ∀ event s', s.step event = some s' → ∀ u ∈ s.storage, u ∈ s'.storage → ∀ x, u.range.Has x →
        (∀ v, event ≠ .write x v) → s'.sys.mem x = s.sys.mem x := by
  have hok := facade_ok_of_run hrun
  refine ⟨?_, hok.kept, fun event s' hs u hu hu' x hx hne => Facade.step_bytes hok hs hu hu' hx hne⟩
  refine run_invariant (P := fun s => ∃ calls,
    runFrom ClientSys.step (ClientSys.start cfg (World.boot m page answers) faults) calls = some s.sys) ?_
    ⟨[], rfl⟩ hrun
  rintro s event s' ⟨calls, h⟩ hs
  rcases Facade.step_projects hs with hsame | ⟨under, hsys, -⟩
  · exact ⟨calls, hsame ▸ h⟩
  · exact ⟨calls ++ [under], run_snoc.mpr ⟨s.sys, h, hsys⟩⟩

/-- A pmr container and an STL container, and then the `Allocator` is moved. -/
def adapterEvents : List FacadeEvent :=
  [.call 0 0 (.doAllocate 100 64), .call 0 1 (.containerAllocate ⟨24, 8, by decide⟩ 10), .move 0 1]

def twoMappings : World := World.boot (fun _ => 0) smallWorld.page [some 65536, some 1048576]

theorem storage_of_run_moved : ∃ s, runFrom Facade.step (Facade.start {} twoMappings []) adapterEvents = some s ∧
    s.owner = 1 ∧ s.storage = [⟨1052672, 240, 8⟩, ⟨68736, 100, 64⟩] ∧ s.Kept := by
  have hrun : (runFrom Facade.step (Facade.start {} twoMappings []) adapterEvents).map
      (fun s => (s.owner, s.storage)) = some (1, [⟨1052672, 240, 8⟩, ⟨68736, 100, 64⟩]) := by decide +kernel
  obtain ⟨s, hs, hfacts⟩ := Option.map_eq_some_iff.mp hrun
  obtain ⟨howner, hstorage⟩ := Prod.mk.inj hfacts
  exact ⟨s, hs, howner, hstorage, (storage_of_run hs).2.1⟩

/-- **An adapter throws exactly when there is nothing to hand out**: the object has been moved from, the
    element count overflows, or the implementation refuses; and then nothing has changed. -/
theorem answers_of_run
    (hrun : runFrom Facade.step (Facade.start cfg (World.boot m page answers) faults) events = some s)
    {h t : Nat} {c : UserCall} {s' : Facade} (hs : s.step (.call h t c) = some s') {bytes align : Nat}
    (hask : c.asks = some (bytes, align)) : Facade.Answered s h t c bytes align s' := by
  have hok := facade_ok_of_run hrun
  unfold Facade.step at hs
  split at hs
  · cases hs
  · exact Facade.call_answered hok (Option.ite_none_right_eq_some.mp hs).2 hask

/-- There is no third mapping. -/
theorem answers_of_run_refused : ∃ s s', runFrom Facade.step (Facade.start {} twoMappings []) adapterEvents = some s ∧
    s.step (.call 1 0 (.doAllocate 20 8)) = some s' ∧
    ((UserCall.doAllocate 20 8).run (s.object 1) 0).1 = .badAlloc ∧ s'.storage = s.storage := by
  have hrun : (runFrom Facade.step (Facade.start {} twoMappings []) adapterEvents).map (fun s =>
      ((s.step (.call 1 0 (.doAllocate 20 8))).isSome,
        decide (((adapterRequest 20 8).run s.sys.impl 0).1 = .error .OutOfMemory))) = some (true, true) := by
    decide +kernel
  obtain ⟨s, hs, hfacts⟩ := Option.map_eq_some_iff.mp hrun
  obtain ⟨hstep, hrefused⟩ := Prod.mk.inj hfacts
  obtain ⟨s', hs'⟩ := Option.isSome_iff_exists.mp hstep
  have hask : (UserCall.doAllocate 20 8).asks = some (20, 8) := rfl
  have hout := answers_of_run hs hs' hask
  have hbad := hout.thrown_iff.mpr (Or.inr (Or.inr ⟨_, of_decide_eq_true hrefused⟩))
  exact ⟨s, s', hs, hs', hbad, (hout.thrown hbad).1⟩

end Runs

end MAlloc.Client
