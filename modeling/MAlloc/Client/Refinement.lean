/-
  The allocator is a heap of objects.

  `objects s` forgets everything but the live allocations and the bytes that stand in them. Each call is an
  operation on such a heap, named by the call and its result (`operation`); a call that fails is
  none. Every run of the allocator is a path of operations (`refines_of_run`), so what holds of heaps of
  objects holds of it: an allocation keeps what its client has written, wherever `reallocate` moves
  it (`integrity_of_run`).
-/
import MAlloc.Client.Failure
import MAlloc.Lib.Objects

namespace MAlloc.Client

open Lib AllocatorImpl

/-- The live allocations, and memory. -/
def objects (s : ClientSys) : Objects UInt8 where
  live := { u | ∃ e ∈ s.ledger, e.range = u }
  value := s.mem

/-- What a call amounts to. -/
def operation (s : ClientSys) : ClientCall → HeapOp UInt8
  | .request t r =>
    match (r.run s.impl t).1 with
    | .ok ptr => .alloc ptr r.size r.align
    | .error _ => .idle
  | .reallocate t ptr newSize =>
    match (s.impl.reallocate t ptr newSize).1 with
    | .ok (some fresh) =>
      if ptr = 0 then .alloc fresh (Request.allocate newSize).size (Request.allocate newSize).align
      else .resize ptr fresh newSize 16
    | .ok none => .free ptr
    | .error _ => .idle
  | .deallocate t ptr =>
    match (s.impl.deallocate t ptr).1 with
    | .ok () => if ptr = 0 then .idle else .free ptr
    | .error _ => .idle
  | .write addr value => .store addr value
  | .exit _ => .idle

section Refinement
variable {s s' : ClientSys} {live : List Alloc} {e : Entry} {t p n : Nat}

theorem range_mem (he : e ∈ s.ledger) : e.range ∈ (objects s).live := ⟨e, he, rfl⟩

/-- The objects of a reachable state are apart. -/
theorem Good.objects_ok (h : Good s live) : (objects s).Ok := by
  have hap := h.separated.apart
  constructor
  · rintro o ⟨e, he, rfl⟩
    obtain ⟨a, ha, -, hsize, -⟩ := h.alloc_eq he
    have hpos := (h.memory.ok a ha).pos
    unfold Entry.range
    simp only
    omega
  · rintro o ⟨e, he, rfl⟩ u ⟨d, hd, rfl⟩ hne
    rw [List.pairwise_map] at hap
    have hsymm : Std.Symm fun a d : Entry => a.range.Disjoint d.range := ⟨fun _ _ h => h.symm⟩
    exact hap.forall he hd fun h0 => hne (by rw [h0])

theorem Good.ptr_pos (h : Good s live) (he : e ∈ s.ledger) : 0 < e.ptr := by
  obtain ⟨a, ha, hptr, -⟩ := h.alloc_eq he
  have hb := h.memory.bounds ha
  omega

/-- What stays in the ledger keeps its bytes. -/
theorem kept_of (h : Good s live) {call : ClientCall} (hs : s.step call = some s')
    (hw : ∀ x v, call ≠ .write x v) {l : Set Span}
    (hl : ∀ o ∈ l, ∃ d ∈ s.ledger, d ∈ s'.ledger ∧ d.range = o) : (objects s).Kept (objects s') l := by
  intro o ho x hx
  obtain ⟨d, hd, hd', rfl⟩ := hl o ho
  exact (step_good h hs).2.1 d hd hd' x hx fun v => hw x v

/-- The same ledger: no operation. -/
theorem idle_of (h : Good s live) {call : ClientCall} (hs : s.step call = some s')
    (hw : ∀ x v, call ≠ .write x v) (hled : s'.ledger = s.ledger) :
    HeapOp.Step .idle (objects s) (objects s') := by
  refine ⟨?_, kept_of h hs hw ?_⟩
  · unfold objects
    rw [hled]
  · rintro o ⟨d, hd, rfl⟩
    exact ⟨d, hd, by rw [hled]; exact hd, rfl⟩

/-- A new entry stands where nothing else does. -/
theorem place_of (h' : Good s' live) (he : e ∈ s'.ledger) {l : Set Span} {align : Nat}
    (halign : e.ptr % align = 0) (hl : ∀ o ∈ l, ∃ d ∈ s'.ledger, d.range = o ∧ d.ptr ≠ e.ptr) :
    Objects.Place l e.ptr e.size align := by
  have hok := h'.objects_ok
  refine ⟨h'.ptr_pos he, hok.pos _ (range_mem he), halign, fun o ho => ?_⟩
  obtain ⟨d, hd, rfl, hne⟩ := hl o ho
  exact hok.apart _ (range_mem he) _ (range_mem hd) fun hr => hne (congrArg Span.data hr).symm

theorem objects_cons {l : List Entry} (hled : s'.ledger = e :: l) :
    (objects s').live = insert e.range { u | ∃ d ∈ l, d.range = u } := by
  unfold objects
  rw [hled]
  ext u
  rw [Set.mem_insert_iff]
  constructor
  · rintro ⟨d, hd, rfl⟩
    rcases List.mem_cons.mp hd with rfl | hd
    · exact Or.inl rfl
    · exact Or.inr ⟨d, hd, rfl⟩
  · rintro (rfl | ⟨d, hd, rfl⟩)
    · exact ⟨e, List.mem_cons_self, rfl⟩
    · exact ⟨d, List.mem_cons_of_mem _ hd, rfl⟩

/-- The ledger without a pointer is the objects without one. -/
theorem objects_without (h : Good s live) (he : e ∈ s.ledger) :
    { u | ∃ d ∈ s.ledger.filter fun d => decide (d.ptr ≠ e.ptr), d.range = u } =
      (objects s).live \ {e.range} := by
  ext u
  constructor
  · rintro ⟨d, hd, rfl⟩
    obtain ⟨hd, hne⟩ := List.mem_filter.mp hd
    refine ⟨range_mem hd, fun hr => of_decide_eq_true hne ?_⟩
    exact congrArg Span.data hr
  · rintro ⟨⟨d, hd, rfl⟩, hne⟩
    refine ⟨d, List.mem_filter.mpr ⟨hd, decide_eq_true fun hp => hne ?_⟩, rfl⟩
    rw [h.entry_eq he hd hp]
    rfl

/-- A new entry on top of the ledger. -/
theorem alloc_of (h : Good s live) {live' : List Alloc} (h' : Good s' live') {call : ClientCall}
    (hs : s.step call = some s') (hw : ∀ x v, call ≠ .write x v) (hled : s'.ledger = e :: s.ledger) {align : Nat}
    (halign : e.ptr % align = 0) : HeapOp.Step (.alloc e.ptr e.size align) (objects s) (objects s') := by
  have hin : ∀ d ∈ s.ledger, d ∈ s'.ledger := fun d hd => hled ▸ List.mem_cons_of_mem e hd
  have hnew : e ∈ s'.ledger := hled ▸ List.mem_cons_self
  have hnd := h'.ptr_nodup
  unfold ClientSys.pointers at hnd
  rw [hled, List.map_cons, List.nodup_cons] at hnd
  refine ⟨place_of h' hnew halign ?_, objects_cons hled, kept_of h hs hw ?_⟩
  · rintro o ⟨d, hd, rfl⟩
    exact ⟨d, hin d hd, rfl, fun hp => hnd.1 (hp ▸ List.mem_map_of_mem hd)⟩
  · rintro o ⟨d, hd, rfl⟩
    exact ⟨d, hd, hin d hd, rfl⟩

/-- An entry less. -/
theorem free_of (h : Good s live) {call : ClientCall} (hs : s.step call = some s')
    (hw : ∀ x v, call ≠ .write x v) (he : e ∈ s.ledger)
    (hled : s'.ledger = s.ledger.filter fun d => decide (d.ptr ≠ e.ptr)) :
    HeapOp.Step (.free e.ptr) (objects s) (objects s') := by
  have hlive : (objects s').live = (objects s).live \ {e.range} := by
    rw [← objects_without h he]
    unfold objects
    rw [hled]
  refine ⟨e.size, range_mem he, hlive, kept_of h hs hw ?_⟩
  rintro o ⟨d, hd, rfl⟩
  refine ⟨d, ?_, hd, rfl⟩
  rw [hled] at hd
  exact List.mem_of_mem_filter hd

/-- **An allocation.** -/
theorem request_refines (h : Good s live) (t : Nat) (r : Request) {call : ClientCall}
    (hs : s.step call = some (s.request t r)) (hw : ∀ x v, call ≠ .write x v) :
    HeapOp.Step (operation s (.request t r)) (objects s) (objects (s.request t r)) := by
  obtain ⟨⟨live', h'⟩, -⟩ := step_good h hs
  unfold operation
  unfold ClientSys.request at hs h' ⊢
  dsimp only
  cases hq : r.run s.impl t with
  | mk res i =>
    rw [hq] at hs h'
    cases res with
    | error err => exact idle_of h hs hw rfl
    | ok ptr =>
      have haligned := h'.aligned _ (List.mem_cons_self (l := s.ledger))
      exact alloc_of h h' hs hw rfl haligned.2

/-- What may be passed to `deallocate`: null, a live pointer, or one the registry rejects. -/
theorem allowed_cases (hp : s.Allowed p) (h0 : p ≠ 0) :
    (∃ e ∈ s.ledger, e.ptr = p) ∨ (s.impl.config.enableLeakTracking = true ∧ p ∉ s.pointers) := by
  by_cases hin : p ∈ s.pointers
  · exact Or.inl (List.mem_map.mp hin)
  · rcases hp with hp | hp | hp
    · exact absurd hp h0
    · exact absurd hp hin
    · exact Or.inr ⟨hp, hin⟩

/-- **A deallocation.** -/
theorem deallocate_refines (h : Good s live) (t : Nat) (hp : s.Allowed p) {call : ClientCall}
    (hs : s.step call = some (s.deallocate t p)) (hw : ∀ x v, call ≠ .write x v) :
    HeapOp.Step (operation s (.deallocate t p)) (objects s) (objects (s.deallocate t p)) := by
  have hrej : s.impl.config.enableLeakTracking = true ∧ p ∉ s.pointers → p ≠ 0 →
      ∀ i, s.impl.deallocate t p ≠ (.ok (), i) := by
    rintro ⟨ht, hin⟩ h0 i hq
    rw [deallocate_rejected h.toSound ht t h0 hin] at hq
    cases congrArg Prod.fst hq
  unfold operation
  unfold ClientSys.deallocate at hs ⊢
  dsimp only
  cases hq : s.impl.deallocate t p with
  | mk res i =>
    rw [hq] at hs
    cases res with
    | error err => exact idle_of h hs hw rfl
    | ok u =>
      dsimp only at hs ⊢
      by_cases h0 : p = 0
      · rw [if_pos h0] at hs ⊢
        rw [if_pos h0]
        exact idle_of h hs hw rfl
      · rw [if_neg h0] at hs ⊢
        rw [if_neg h0]
        rcases allowed_cases hp h0 with ⟨e, he, rfl⟩ | hno
        · exact free_of h hs hw he rfl
        · exact absurd hq (hrej hno h0 i)

/-- An entry has moved. -/
theorem resize_of (h : Good s live) {live' : List Alloc} (h' : Good s' live') {call : ClientCall}
    (hs : s.step call = some s') (hw : ∀ x v, call ≠ .write x v) (he : e ∈ s.ledger) {f : Entry}
    (hled : s'.ledger = f :: s.ledger.filter fun d => decide (d.ptr ≠ e.ptr)) {align : Nat}
    (halign : f.ptr % align = 0)
    (hcopied : ∀ k < min e.size f.size, s'.mem (f.ptr + k) = s.mem (e.ptr + k)) :
    HeapOp.Step (.resize e.ptr f.ptr f.size align) (objects s) (objects s') := by
  have hwithout := objects_without h he
  have hstay : ∀ o ∈ (objects s).live \ {e.range}, ∃ d ∈ s.ledger, d ∈ s'.ledger ∧ d.range = o := by
    rw [← hwithout, hled]
    rintro o ⟨d, hd, rfl⟩
    exact ⟨d, List.mem_of_mem_filter hd, List.mem_cons_of_mem _ hd, rfl⟩
  have hnd := h'.ptr_nodup
  unfold ClientSys.pointers at hnd
  rw [hled, List.map_cons, List.nodup_cons] at hnd
  refine ⟨e.size, range_mem he, place_of h' (hled ▸ List.mem_cons_self) halign ?_, ?_, kept_of h hs hw hstay,
    hcopied⟩
  · change ∀ o ∈ (objects s).live \ {e.range}, _
    rw [← hwithout]
    rintro o ⟨d, hd, rfl⟩
    exact ⟨d, hled ▸ List.mem_cons_of_mem _ hd, rfl, fun hp => hnd.1 (hp ▸ List.mem_map_of_mem hd)⟩
  · rw [objects_cons hled, hwithout]
    rfl

theorem operation_reallocate_null (s : ClientSys) (t n : Nat) :
    operation s (.reallocate t 0 n) = operation s (.request t (.allocate n)) := by
  unfold operation AllocatorImpl.reallocate Request.run
  dsimp only
  rw [if_pos rfl]
  generalize s.impl.allocate t n = q
  obtain ⟨res, i⟩ := q
  cases res <;> rfl

theorem operation_reallocate_zero (s : ClientSys) (t : Nat) (h0 : p ≠ 0) :
    operation s (.reallocate t p 0) = operation s (.deallocate t p) := by
  unfold operation AllocatorImpl.reallocate
  dsimp only
  rw [if_neg h0, if_pos rfl]
  generalize s.impl.deallocate t p = q
  obtain ⟨res, i⟩ := q
  cases res with
  | error err => rfl
  | ok u => exact (if_neg h0).symm

/-- A pointer the registry does not know. -/
theorem reallocate_unknown (h : Good s live) (ht : s.impl.config.enableLeakTracking = true)
    (hin : p ∉ s.pointers) (h0 : p ≠ 0) (hn : n ≠ 0) :
    s.impl.reallocate t p n = s.impl.fail .InvalidPointer p := by
  unfold AllocatorImpl.reallocate
  rw [if_neg h0, if_neg hn, allocationSize_rejected h.toSound ht hin]
  rfl

/-- **A reallocation.** -/
theorem reallocate_refines (h : Good s live) (t : Nat) (hp : s.Allowed p) (n : Nat)
    (hs : s.step (.reallocate t p n) = some (s.reallocate t p n)) :
    HeapOp.Step (operation s (.reallocate t p n)) (objects s) (objects (s.reallocate t p n)) := by
  have hw : ∀ x v, ClientCall.reallocate t p n ≠ .write x v := by simp
  obtain ⟨⟨live', h'⟩, -⟩ := step_good h hs
  by_cases h0 : p = 0
  · subst h0
    rw [reallocate_null] at hs ⊢
    rw [operation_reallocate_null]
    exact request_refines h t _ hs hw
  by_cases hn : n = 0
  · subst hn
    rw [reallocate_zero s t h0] at hs ⊢
    rw [operation_reallocate_zero s t h0]
    exact deallocate_refines h t hp hs hw
  rcases allowed_cases hp h0 with ⟨e, he, rfl⟩ | ⟨ht, hin⟩
  · by_cases herr : ∃ err, (s.impl.allocate t n).1 = .error err
    · obtain ⟨err, hr⟩ := herr
      obtain ⟨heq, hun, -⟩ := h.reallocate_error he (Nat.pos_of_ne_zero hn) hr
      have hop : operation s (.reallocate t e.ptr n) = .idle := by
        unfold operation
        dsimp only
        rw [heq]
      rw [hop]
      exact idle_of h hs hw hun.ledger
    · push Not at herr
      obtain ⟨q, i, hq⟩ := h.reallocate_ok he (Nat.pos_of_ne_zero hn) herr
      have hmoved := h.moved he (Nat.pos_of_ne_zero hn) hq
      obtain ⟨f, hf, rfl, hsz, hled, -⟩ := hmoved.fresh
      have hop : operation s (.reallocate t e.ptr n) = .resize e.ptr f.ptr f.size 16 := by
        unfold operation
        dsimp only
        rw [hq, hsz]
        exact if_neg h0
      rw [List.filter_cons_of_pos (by simpa using hmoved.other)] at hled
      rw [hop]
      exact resize_of h h' hs hw he hled hmoved.aligned fun k hk => hmoved.copied k (by omega)
  · have hq := reallocate_unknown (t := t) h ht hin h0 hn
    have hop : operation s (.reallocate t p n) = .idle := by
      unfold operation
      dsimp only
      rw [hq]
      rfl
    have hled : (s.reallocate t p n).ledger = s.ledger := by
      unfold ClientSys.reallocate
      rw [hq]
      rfl
    rw [hop]
    exact idle_of h hs hw hled

/-- **Each step is an operation.** -/
theorem step_refines (h : Good s live) {call : ClientCall} (hs : s.step call = some s') :
    HeapOp.Step (operation s call) (objects s) (objects s') := by
  have hs₀ := hs
  unfold ClientSys.step at hs
  split at hs
  · cases hs
  cases call with
  | request t r =>
    cases hs
    exact request_refines h t r hs₀ (by simp)
  | reallocate t p n =>
    obtain ⟨hp, hs⟩ := Option.ite_none_right_eq_some.mp hs
    cases hs
    exact reallocate_refines h t hp n hs₀
  | deallocate t p =>
    obtain ⟨hp, hs⟩ := Option.ite_none_right_eq_some.mp hs
    cases hs
    exact deallocate_refines h t hp hs₀ (by simp)
  | write addr value =>
    obtain ⟨hany, hs⟩ := Option.ite_none_right_eq_some.mp hs
    cases hs
    obtain ⟨e, he, hx⟩ := List.any_eq_true.mp hany
    refine ⟨⟨e.range, range_mem he, of_decide_eq_true hx⟩, rfl, fun o _ y _ => ?_⟩
    exact Function.update_apply _ _ _ _
  | exit t =>
    cases hs
    exact idle_of h hs₀ (by simp) rfl

end Refinement

/-! ## Runs -/

section Runs
variable {cfg : AllocatorConfig} {m : Mem} {page : PageSize} {answers : List (Option Nat)}
  {faults : List Bool} {calls more : List ClientCall} {s s' : ClientSys}

theorem path_of_good {live : List Alloc} (h : Good s live) (hrun : runFrom ClientSys.step s more = some s') :
    Path HeapOp.Step (objects s) (operations ClientSys.step operation s more) (objects s') := by
  have hstep : ∀ s call s', (∃ live, Good s live) → ClientSys.step s call = some s' →
      (∃ live, Good s' live) ∧ HeapOp.Step (operation s call) (objects s) (objects s') := by
    rintro s call s' ⟨live, h⟩ hs
    exact ⟨(step_good h hs).1, step_refines h hs⟩
  exact path_of_run hstep ⟨live, h⟩ hrun

/-- **The allocator refines the heap of objects.** Under any configuration, with any threads and any answers
    of the OS, a run is a path of operations from the empty heap. -/
theorem refines_of_run
    (hrun : runFrom ClientSys.step (ClientSys.start cfg (World.boot m page answers) faults) calls = some s) :
    Path HeapOp.Step ⟨∅, m⟩
      (operations ClientSys.step operation (ClientSys.start cfg (World.boot m page answers) faults) calls)
      (objects s) := by
  have hstart : objects (ClientSys.start cfg (World.boot m page answers) faults) = ⟨∅, m⟩ := by
    have hnone : { u | ∃ e ∈ (ClientSys.start cfg (World.boot m page answers) faults).ledger, e.range = u } =
        (∅ : Set Span) := by
      ext u
      exact ⟨fun ⟨e, he, _⟩ => absurd he List.not_mem_nil, fun hu => absurd hu (Set.notMem_empty u)⟩
    unfold objects
    rw [hnone]
    rfl
  rw [← hstart]
  exact path_of_good (start_good cfg m page answers faults) hrun

/-- An allocation is written, moved to another tier by another thread, and written again. -/
def movedCalls : List ClientCall :=
  [.write 67475 7, .request 1 (.allocate 100), .reallocate 1 67472 5000, .write 1048609 9]

def twoRegions : ClientSys :=
  ClientSys.start {} (World.boot (fun _ => 0) smallWorld.page [some 65536, some 1048576]) []

theorem refines_of_run_moved : ∃ s, runFrom ClientSys.step twoRegions (.request 0 (.allocate 100) :: movedCalls) =
      some s ∧
    Path HeapOp.Step ⟨∅, fun _ => 0⟩
      (operations ClientSys.step operation twoRegions (.request 0 (.allocate 100) :: movedCalls)) (objects s) := by
  have hrun : (runFrom ClientSys.step twoRegions (.request 0 (.allocate 100) :: movedCalls)).isSome = true := by
    decide +kernel
  obtain ⟨s, hs⟩ := Option.isSome_iff_exists.mp hrun
  exact ⟨s, hs, refines_of_run hs⟩

/-- **An allocation keeps what was written in it.** From a state of any run follow a live allocation
    through any further calls: wherever `reallocate` has moved it, as long as it is not freed, it is
    live, and each byte that fitted all along is the one its client wrote last, or the one that stood
    there. -/
theorem integrity_of_run
    (hrun : runFrom ClientSys.step (ClientSys.start cfg (World.boot m page answers) faults) calls = some s)
    {e : Entry} (he : e ∈ s.ledger) (hrun' : runFrom ClientSys.step s more = some s') {k : Tracked UInt8}
    (hk : runFrom Tracked.next ⟨e.ptr, e.size, fun i => s.mem (e.ptr + i)⟩
      (operations ClientSys.step operation s more) = some k) :
    ∃ d ∈ s'.ledger, d.ptr = k.base ∧ k.kept ≤ d.size ∧ ∀ i < k.kept, s'.mem (d.ptr + i) = k.value i := by
  obtain ⟨live, h⟩ := good_of_run hrun
  have hpath := path_of_good h hrun'
  have hin : Tracked.In ⟨e.ptr, e.size, fun i => s.mem (e.ptr + i)⟩ (objects s) :=
    ⟨e.size, range_mem he, Nat.le_refl _, fun _ _ => rfl⟩
  obtain ⟨n, ⟨d, hd, hr⟩, hle, hv⟩ := Tracked.path h.objects_ok hin hpath hk
  have hptr : d.ptr = k.base := congrArg Span.data hr
  have hsize : d.size = n := congrArg Span.size hr
  refine ⟨d, hd, hptr, hsize ▸ hle, fun i hi => ?_⟩
  rw [hptr]
  exact hv i hi

theorem integrity_of_run_moved : ∃ s s', ∃ d ∈ s'.ledger,
    runFrom ClientSys.step twoRegions [.request 0 (.allocate 100)] = some s ∧
      runFrom ClientSys.step s movedCalls = some s' ∧ d.ptr = 1048608 ∧ s'.mem (d.ptr + 3) = 7 ∧
      s'.mem (d.ptr + 1) = 9 := by
  have hrun : (runFrom ClientSys.step twoRegions [.request 0 (.allocate 100)]).map (fun s =>
      (s.ledger.map fun e => (e.ptr, e.size), (runFrom ClientSys.step s movedCalls).isSome)) =
      some ([(67472, 100)], true) := by decide +kernel
  have hfollow : (runFrom ClientSys.step twoRegions [.request 0 (.allocate 100)]).bind (fun s =>
      (runFrom Tracked.next ⟨67472, 100, fun i => s.mem (67472 + i)⟩
        (operations ClientSys.step operation s movedCalls)).map fun k => (k.base, k.kept, k.value 3, k.value 1)) =
      some (1048608, 100, 7, 9) := by decide +kernel
  obtain ⟨s, hs, hfacts⟩ := Option.map_eq_some_iff.mp hrun
  obtain ⟨hled, hmore⟩ := Prod.mk.inj hfacts
  obtain ⟨s', hs'⟩ := Option.isSome_iff_exists.mp hmore
  rw [hs] at hfollow
  obtain ⟨k, hk, hvalues⟩ := Option.map_eq_some_iff.mp hfollow
  obtain ⟨e, hl, he⟩ := List.map_eq_singleton_iff.mp hled
  obtain ⟨hptr, hsize⟩ := Prod.mk.inj he
  rw [← hptr, ← hsize] at hk
  obtain ⟨hbase, hvalues⟩ := Prod.mk.inj hvalues
  obtain ⟨hkept, hvalues⟩ := Prod.mk.inj hvalues
  obtain ⟨h3, h1⟩ := Prod.mk.inj hvalues
  obtain ⟨d, hd, hdp, -, hv⟩ := integrity_of_run hs (hl ▸ List.mem_singleton_self e) hs' hk
  exact ⟨s, s', d, hd, hs, hs', hdp.trans hbase, (hv 3 (by omega)).trans h3, (hv 1 (by omega)).trans h1⟩

end Runs

end MAlloc.Client
