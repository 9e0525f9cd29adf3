/-
  Calls that fail change nothing, and `reallocate` is all or nothing.

  `Unchanged s s' t`: the ledger, the registry, the counters and the tiers are as they were, an
  empty cache of the calling thread apart. `failure_of_run` proves it for every error of
  `allocate` and `alignedAllocate`, with the reason when it is out of memory. `Resized` is the
  contract of `reallocate(p, n)` for a live `p`: it fails exactly when `allocate(n)` does, and then
  nothing has changed; otherwise the block has moved with its bytes, and the old one is back in its
  tier, out of the registry and off the counters (`Moved`).
-/
import MAlloc.Client.Books
import MAlloc.Client.Release
import MAlloc.Client.Separation
import MAlloc.Raw.Refuse

namespace MAlloc.Client

open Lib AllocatorImpl DebugLayer

/-! ## Requests that fail -/

structure Unchanged (s s' : ClientSys) (t : Nat) : Prop where
  tiers : Raw.Unspoilt s.impl.tiers s'.impl.tiers t
  stats : s'.impl.stats = s.impl.stats
  debug : s'.impl.debug = s.impl.debug
  config : s'.impl.config = s.impl.config
  ledger : s'.ledger = s.ledger

/-- The bytes the request asks of its tier: with the guards, or with room to align. -/
def Request.rawSize (cfg : AllocatorConfig) : Request → Nat
  | .allocate size => if cfg.enableGuardBytes then atLeastOne size + 64 else atLeastOne size
  | .alignedAllocate alignment size =>
    if alignment ≤ kDefaultAlignment then
      if cfg.enableGuardBytes then atLeastOne size + 64 else atLeastOne size
    else atLeastOne size + alignment

section Failure
variable {T T' : Tiers} {live : List Alloc} {cfg : AllocatorConfig} {t size : Nat} {e : Error}

theorem acquire_error (h : Live T live) (hmax : size ≤ kMaxRequest)
    (he : AllocatorImpl.acquire cfg T t size = (.error e, T')) :
    e = .OutOfMemory ∧ Raw.Unspoilt T T' t ∧ Raw.Exhausted T cfg.enableThreadCache t
      (if cfg.enableGuardBytes then size + 64 else size) := by
  have hmax' : size ≤ 2 ^ 46 := hmax
  have hgs : guardedSize size = size + 64 := by
    unfold guardedSize
    change (size + 32 + 32) % 2 ^ 64 = size + 64
    omega
  unfold AllocatorImpl.acquire at he
  by_cases hg : cfg.enableGuardBytes = true
  · rw [if_pos hg, hgs] at he
    rw [if_pos hg]
    generalize hr : T.rawAllocate cfg.enableThreadCache t (size + 64) = r at he
    obtain ⟨res, T1⟩ := r
    cases res with
    | error e1 =>
      cases he
      exact Raw.rawAllocate_error h.raw (by omega) hr
    | ok raw => cases he
  · rw [if_neg hg] at he ⊢
    generalize hr : T.rawAllocate cfg.enableThreadCache t size = r at he
    obtain ⟨res, T1⟩ := r
    cases res with
    | error e1 =>
      cases he
      exact Raw.rawAllocate_error h.raw (by omega) hr
    | ok raw => cases he

theorem acquireAligned_error (h : Live T live) {alignment : Nat} (hmax : size ≤ kMaxRequest)
    (hal : alignment ≤ kMaxAlignment)
    (he : acquireAligned cfg T t alignment size = (.error e, T')) :
    e = .OutOfMemory ∧ Raw.Unspoilt T T' t ∧
      Raw.Exhausted T cfg.enableThreadCache t (size + alignment) := by
  have hmax' : size ≤ 2 ^ 46 := hmax
  have hal' : alignment ≤ 2 ^ 30 := hal
  unfold acquireAligned at he
  rw [Nat.mod_eq_of_lt (show size + alignment < 2 ^ 64 by omega)] at he
  generalize hr : T.rawAllocate cfg.enableThreadCache t (size + alignment) = r at he
  obtain ⟨res, T1⟩ := r
  cases res with
  | error e1 =>
    cases he
    exact Raw.rawAllocate_error h.raw (by omega) hr
  | ok raw => cases he

theorem Request.acquire_error {r : Request} (h : Live T live) (hv : r.verdict = none)
    (he : r.acquire cfg T t = (.error e, T')) :
    e = .OutOfMemory ∧ Raw.Unspoilt T T' t ∧
      Raw.Exhausted T cfg.enableThreadCache t (r.rawSize cfg) := by
  cases r with
  | allocate size =>
    unfold Request.verdict at hv
    dsimp only at hv
    by_cases hgt : atLeastOne size > kMaxRequest
    · rw [if_pos hgt] at hv
      cases hv
    · exact Client.acquire_error h (Nat.le_of_not_lt hgt) he
  | alignedAllocate alignment size =>
    unfold Request.verdict at hv
    dsimp only at hv
    by_cases hbad : isPowerOfTwo alignment = false ∨ alignment > kMaxAlignment
    · rw [if_pos hbad] at hv
      cases hv
    rw [if_neg hbad] at hv
    by_cases hgt : atLeastOne size > kMaxRequest
    · rw [if_pos hgt] at hv
      cases hv
    unfold Request.acquire at he
    unfold Request.rawSize
    dsimp only at he ⊢
    by_cases hsm : alignment ≤ kDefaultAlignment
    · rw [if_pos hsm] at he ⊢
      exact Client.acquire_error h (Nat.le_of_not_lt hgt) he
    · rw [if_neg hsm] at he ⊢
      exact Client.acquireAligned_error h (Nat.le_of_not_lt hgt)
        (Nat.le_of_not_lt (not_or.mp hbad).2) he

/-- An error of the arguments changes nothing; an error of the tiers is out of memory. -/
theorem Request.run_error {i i' : AllocatorImpl} {r : Request} (h : Live i.tiers live)
    (he : r.run i t = (.error e, i')) :
    ∃ T', i' = { i with tiers := T' }.report e 0 ∧ Raw.Unspoilt i.tiers T' t ∧
      (e = .OutOfMemory → Raw.Exhausted i.tiers i.config.enableThreadCache t (r.rawSize i.config)) := by
  rw [Request.run_eq] at he
  cases hv : r.verdict with
  | some e1 =>
    rw [hv] at he
    dsimp only [AllocatorImpl.fail] at he
    cases he
    refine ⟨i.tiers, rfl, ⟨⟨rfl, rfl, rfl⟩, rfl, rfl, rfl, Or.inl rfl⟩, fun h0 => ?_⟩
    -- the arguments alone never lead to out of memory
    subst h0
    exfalso
    cases r <;> simp only [Request.verdict] at hv
    · split at hv <;> cases hv
    · split at hv
      · cases hv
      · split at hv <;> cases hv
  | none =>
    rw [hv] at he
    dsimp only at he
    generalize hr : r.acquire i.config i.tiers t = q at he
    obtain ⟨res, T1⟩ := q
    cases res with
    | error e1 =>
      dsimp only [AllocatorImpl.finish, AllocatorImpl.fail] at he
      cases he
      obtain ⟨-, hun, hex⟩ := Request.acquire_error h hv hr
      exact ⟨T1, rfl, hun, fun _ => hex⟩
    | ok raw => cases he

end Failure

/-- A request that fails, from any good state. -/
theorem Good.request_error {s : ClientSys} {live : List Alloc} (h : Good s live) {t : Nat} {r : Request}
    {e : Error} (he : (r.run s.impl t).1 = .error e) :
    Unchanged s (s.request t r) t ∧ (s.request t r).impl.reports = s.impl.reports ++ [(e, 0)] ∧
      (e = .OutOfMemory → Raw.Exhausted s.impl.tiers s.impl.config.enableThreadCache t
        (r.rawSize s.impl.config)) := by
  generalize hr : r.run s.impl t = q at he
  obtain ⟨res, i'⟩ := q
  cases he
  obtain ⟨T', rfl, hun, hex⟩ := Request.run_error h.memory hr
  have hs : s.request t r = { s with impl := { s.impl with tiers := T' }.report e 0 } := by
    unfold ClientSys.request
    rw [hr]
  rw [hs]
  exact ⟨⟨hun, rfl, rfl, rfl, rfl⟩, rfl, hex⟩

/-- **A failed allocation is atomic**, after every run and for every request; and out of memory
    means that the tier had nothing left and the OS gave it nothing. -/
theorem failure_of_run {cfg : AllocatorConfig} {m : Mem} {page : PageSize}
    {answers : List (Option Nat)} {faults : List Bool} {calls : List ClientCall} {s : ClientSys}
    (hrun : runFrom ClientSys.step (ClientSys.start cfg (World.boot m page answers) faults) calls = some s)
    {t : Nat} {r : Request} {e : Error} (he : (r.run s.impl t).1 = .error e) :
    Unchanged s (s.request t r) t ∧ (s.request t r).impl.reports = s.impl.reports ++ [(e, 0)] ∧
      (e = .OutOfMemory → Raw.Exhausted s.impl.tiers cfg.enableThreadCache t (r.rawSize cfg)) := by
  obtain ⟨live, h⟩ := good_of_run hrun
  have hout := h.request_error he
  rw [config_of_run hrun] at hout
  exact hout

/-- The one region of `smallWorld` went to the small tier; the medium tier gets none. -/
theorem failure_of_run_smallWorld : ∃ s,
    runFrom ClientSys.step (ClientSys.start { enableGuardBytes := true } smallWorld [])
      [.request 0 (.allocate 100)] = some s ∧
    Unchanged s (s.request 0 (.allocate 5000)) 0 ∧
    Raw.Exhausted s.impl.tiers true 0 (5000 + 64) := by
  have hfail : (runFrom ClientSys.step (ClientSys.start { enableGuardBytes := true } smallWorld [])
      [.request 0 (.allocate 100)]).map
        (fun s => decide ((Request.run s.impl 0 (.allocate 5000)).1 = .error .OutOfMemory)) =
      some true := by
    decide +kernel
  obtain ⟨s, hs, he⟩ := Option.map_eq_some_iff.mp hfail
  have hout := failure_of_run hs (of_decide_eq_true he)
  exact ⟨s, hs, hout.1, hout.2.2 rfl⟩

/-! ## reallocate -/

/-- The tiers when `reallocate(e, n)` frees the old block: the fresh one, at `q`, is out and filled. -/
def refilled (s : ClientSys) (t : Nat) (e : Entry) (n q : Nat) : Tiers :=
  let T := (s.impl.allocate t n).2.tiers
  T.setMem (copy T.mem q e.ptr (min e.size n))

/-- A `reallocate(e, n)` from `s` that has moved the block to `q`. The old block went back to its tier;
    no header of an allocated block is left in front of it, or its region is unmapped. -/
structure Moved (s : ClientSys) (t : Nat) (e : Entry) (n q : Nat) (s' : ClientSys) : Prop where
  aligned : q % 16 = 0
  other : q ≠ e.ptr
  new : q ∉ s.pointers
  fresh : ∃ f ∈ s'.ledger, f.ptr = q ∧ f.size = n ∧
    s'.ledger = (f :: s.ledger).filter (fun d => decide (d.ptr ≠ e.ptr)) ∧
    s'.impl.allocationSize q = n ∧ ∀ d ∈ s'.ledger, d ≠ f → f.range.Disjoint d.range
  copied : ∀ k < min e.size n, s'.mem (q + k) = s.mem (e.ptr + k)
  poisoned : s.impl.config.enablePoisoning = true → ∀ k, min e.size n ≤ k → k < n →
    s'.mem (q + k) = kAllocPoison
  kept : ∀ d ∈ s.ledger, d ≠ e → d ∈ s'.ledger ∧ SameOn s.mem s'.mem d.ptr d.size ∧
    s'.impl.allocationSize d.ptr = d.size
  gone : e.ptr ∉ s'.pointers
  back : release s.impl.config (refilled s t e n q) t e.ptr
    (BlockHeader.load (refilled s t e n q).mem (headerOf e.ptr)) = (.ok e.reserved, s'.impl.tiers)
  dead : tierBehind s.mem e.ptr ≠ some .Large → BlockHeader.Dead s'.mem (e.ptr - 16)
  unmapped : tierBehind s.mem e.ptr = some .Large → ∀ r ∈ s'.impl.tiers.world.mapped, ¬ r.Has e.ptr
  untracked : s.impl.config.enableLeakTracking = true →
    s'.impl.debug = (s.impl.debug.track q n).untrack e.ptr ∧ s'.impl.debug.isTracked q = true ∧
      s'.impl.debug.isTracked e.ptr = false ∧ s'.impl.debug.wasFreed e.ptr = true
  recorded : s'.impl.stats = (s.impl.stats.recordAllocation n
    ((Request.allocate n).reserved s.impl t)).recordFree e.size e.reserved
  silent : s'.impl.reports = s.impl.reports

/-- `reallocate(e, n)` by thread `t` from the state `s`. -/
structure Resized (s : ClientSys) (t : Nat) (e : Entry) (n : Nat) : Prop where
  error_iff : (∃ err, (s.impl.reallocate t e.ptr n).1 = .error err) ↔
    ∃ err, (s.impl.allocate t n).1 = .error err
  not_null : (s.impl.reallocate t e.ptr n).1 ≠ .ok none
  failed : ∀ err, (s.impl.reallocate t e.ptr n).1 = .error err →
    Unchanged s (s.reallocate t e.ptr n) t ∧
      (s.reallocate t e.ptr n).impl.allocationSize e.ptr = e.size
  moved : ∀ q, (s.impl.reallocate t e.ptr n).1 = .ok (some q) → Moved s t e n q (s.reallocate t e.ptr n)

section Resize
variable {s : ClientSys} {live : List Alloc} {e : Entry}

/-- Entries with one pointer are one. -/
theorem Good.entry_eq (h : Good s live) {d : Entry} (he : e ∈ s.ledger) (hd : d ∈ s.ledger)
    (hp : d.ptr = e.ptr) : d = e := by
  have hnd := h.ptr_nodup
  unfold ClientSys.pointers at hnd
  exact List.inj_on_of_nodup_map hnd hd he hp

/-- A `reallocate` that fails. -/
theorem Good.reallocate_error (h : Good s live) (he : e ∈ s.ledger) {t n : Nat} (hn : 0 < n)
    {err : Error} (hr : (s.impl.allocate t n).1 = .error err) :
    s.impl.reallocate t e.ptr n = (.error err, (s.impl.allocate t n).2) ∧
      Unchanged s (s.reallocate t e.ptr n) t ∧ Sound (s.reallocate t e.ptr n) live := by
  obtain ⟨a, ha, hptr, hsize, -⟩ := h.alloc_eq he
  have hpos := (h.memory.ok a ha).pos
  have hb := h.memory.bounds ha
  have heq : s.impl.reallocate t e.ptr n = (.error err, (s.impl.allocate t n).2) := by
    unfold AllocatorImpl.reallocate
    rw [if_neg (by omega), if_neg (by omega), ← hptr,
      allocationSize_spec h.memory ha (h.passes ha)]
    dsimp only
    rw [if_neg (by omega)]
    generalize s.impl.allocate t n = q at hr ⊢
    obtain ⟨res, i⟩ := q
    cases hr
    rfl
  have hs : s.reallocate t e.ptr n = s.request t (.allocate n) := by
    unfold ClientSys.reallocate ClientSys.request Request.run
    rw [heq]
    dsimp only
    generalize s.impl.allocate t n = q at hr ⊢
    obtain ⟨res, i⟩ := q
    cases hr
    rfl
  refine ⟨heq, ?_⟩
  rw [hs]
  have hun := (h.request_error (r := .allocate n) (e := err) hr).1
  refine ⟨hun, ?_⟩
  have hout := Request.run_spec h.memory t (.allocate n)
  unfold ClientSys.request
  change RequestOutcome _ _ _ _ (s.impl.allocate t n) at hout
  rw [show (Request.allocate n).run s.impl t = s.impl.allocate t n from rfl]
  generalize s.impl.allocate t n = q at hr hout ⊢
  cases hout with
  | rejected hv => exact h.report h.memory _ _
  | refused hv hl hk href => exact h.report hl _ _
  | served => cases hr

/-- What the call records in the counters and in the registry. -/
theorem moved_books (i : AllocatorImpl) (T' T'' : Tiers) (a d : Alloc) (n p k r : Nat) :
    (({ filled i T' a d n with tiers := T'' } : AllocatorImpl).discharge p k r).stats =
        (i.stats.recordAllocation d.size d.raw.reserved).recordFree k r ∧
      (i.config.enableLeakTracking = true →
        (({ filled i T' a d n with tiers := T'' } : AllocatorImpl).discharge p k r).debug =
          (i.debug.track d.ptr d.size).untrack p) := by
  refine ⟨?_, fun ht => ?_⟩
  · rw [discharge_stats]
    exact congrArg (fun c => c.recordFree k r) (enroll_stats { i with tiers := T' } _ _ _)
  · have ht' : (filled i T' a d n).config.enableLeakTracking = true := by
      rw [filled_config]
      exact ht
    rw [discharge_debug { filled i T' a d n with tiers := T'' } _ _ _ ht']
    exact congrArg (fun b => b.untrack p) (enroll_debug { i with tiers := T' } _ _ _ ht)

/-- The old block, when the fresh one is out and filled. -/
theorem Live.refilled_header {T' : Tiers} {a d : Alloc} {n : Nat} (hl : Live T' (d :: live)) (ha : a ∈ live)
    (hn : n ≤ d.size) :
    BlockHeader.load (T'.setMem (copy T'.mem d.ptr a.ptr n)).mem (headerOf a.ptr) = a.header := by
  have hin := List.mem_cons_of_mem d ha
  have hcopy : ∀ x, ¬ d.range.Has x → copy T'.mem d.ptr a.ptr n x = T'.mem x := fun x hx =>
    copy_of_not fun hx' => hx (by unfold Span.Has Alloc.range; simp only; omega)
  rw [hl.headerOf_ptr hin]
  exact ((hl.write List.mem_cons_self hcopy).ok a hin).header

/-- A large block that is gone holds its pointer in no region. -/
theorem Alloc.Gone.not_has {T T' : Tiers} {a : Alloc} (h : a.Gone T') (hl : Live T live) (ha : a ∈ live)
    (ht : a.raw.tier = .Large) {r : Span} (hr : r ∈ T'.world.mapped) : ¬ r.Has a.ptr := by
  have hb := hl.bounds ha
  have hpos := (hl.ok a ha).pos
  have hap := h.unmapped ht r hr
  obtain ⟨parts, segs, hraw⟩ := hl.raw.tiers
  have hlow := ((hraw.ok _ (Live.raw_mem ha)).large ht).2
  unfold Span.Disjoint Raw.Block.region at hap
  unfold Span.Has
  simp only at hap
  omega

/-- A `reallocate` whose allocation succeeds moves the block. -/
theorem Good.reallocate_ok (h : Good s live) (he : e ∈ s.ledger) {t n : Nat} (hn : 0 < n)
    (hr : ∀ err, (s.impl.allocate t n).1 ≠ .error err) :
    ∃ q i, s.impl.reallocate t e.ptr n = (.ok (some q), i) := by
  obtain ⟨a, ha, hptr, -⟩ := h.alloc_eq he
  have hout := reallocate_spec h.memory ha (h.passes ha) (Or.inr (h.guards a ha)) t hn
  rw [← hptr]
  generalize s.impl.reallocate t a.ptr n = q at *
  cases hout with
  | failed heq => exact absurd (congrArg Prod.fst heq) (hr _)
  | moved => exact ⟨_, _, rfl⟩

/-- The step of a `reallocate` that moves a block. -/
theorem reallocate_closed {t p n q r : Nat} {i j : AllocatorImpl} (hp : p ≠ 0) (hn : 0 < n)
    (hal : s.impl.allocate t n = (.ok q, j)) (hr : (Request.allocate n).reserved s.impl t = r)
    (hre : s.impl.reallocate t p n = (.ok (some q), i)) :
    s.reallocate t p n = (s.opened j ⟨q, n, 16, r⟩).closed i p := by
  have hone : (Request.allocate n).size = n := if_neg (by omega)
  unfold ClientSys.reallocate
  rw [hre, hal]
  dsimp only
  rw [if_neg hp, hone, hr]
  rfl

/-- What `reallocate` moves. -/
theorem Good.moved (h : Good s live) (he : e ∈ s.ledger) {t n q : Nat} (hn : 0 < n) {i : AllocatorImpl}
    (hq : s.impl.reallocate t e.ptr n = (.ok (some q), i)) : Moved s t e n q (s.reallocate t e.ptr n) := by
  obtain ⟨a, ha, hptr, hsize, hres⟩ := h.alloc_eq he
  have hb := h.memory.bounds ha
  have hout := reallocate_spec h.memory ha (h.passes ha) (Or.inr (h.guards a ha)) t hn
  obtain ⟨live', hg, hc⟩ := reallocate_sound h.toSound t (p := e.ptr) h.lenient
    (Or.inr (Or.inl (List.mem_map_of_mem he))) n
  have hun := hc.untouched h.toSound
  rw [hptr, hq] at hout
  cases hout with
  | @moved T' T'' d hv heq hl hdsize hdres hk hrel hpoison hguard _ hback =>
    have hs' := reallocate_closed (p := e.ptr) (by omega) hn heq hdres.symm hq
    rw [checked_filled hl ha hk (by omega) (h.guards a ha)] at hs'
    obtain ⟨hstats, hdebug⟩ := moved_books s.impl T' T'' a d (min a.size n) a.ptr a.size a.raw.reserved
    -- the fresh entry is one of the ledger, and the old one is not
    have hnew : d.ptr ∉ s.pointers := fun hin =>
      (List.nodup_cons.mp hl.ptr_nodup).1 (h.ptrs.mem_iff.mpr hin)
    have hne : d.ptr ≠ e.ptr := fun h0 => hnew (h0 ▸ List.mem_map_of_mem he)
    have hstay : ∀ k ∈ (⟨d.ptr, n, 16, d.raw.reserved⟩ : Entry) :: s.ledger, k.ptr ≠ e.ptr →
        k ∈ (s.reallocate t e.ptr n).ledger := by
      intro k hk hp
      rw [hs']
      exact List.mem_filter.mpr ⟨hk, decide_eq_true hp⟩
    have hf := hstay _ List.mem_cons_self hne
    have hgone : e.ptr ∉ (s.reallocate t e.ptr n).pointers := by
      intro hin
      obtain ⟨k, hk, hp⟩ := List.mem_map.mp hin
      rw [hs'] at hk
      exact of_decide_eq_true (List.mem_filter.mp hk).2 hp
    have hbytes := moved_bytes hl ha hk (n := min a.size n) (by omega) (by omega) hrel
    have htiers : (s.reallocate t e.ptr n).impl.tiers = T'' := by
      rw [hs']
      exact discharge_tiers _ _ _ _
    have hmem : (s.reallocate t e.ptr n).mem = T''.mem := congrArg Tiers.mem htiers
    have hrefilled : refilled s t e n d.ptr = T'.setMem (copy T'.mem d.ptr e.ptr (min a.size n)) := by
      unfold refilled
      rw [heq, enroll_tiers, ← hsize]
    have hheader := hl.refilled_header ha (n := min a.size n) (by omega)
    have hbehind := (h.memory.behind ha).2.2
    rw [hptr] at hbehind hheader hback
    exact {
      aligned := (hg.aligned _ hf).1
      other := hne
      new := hnew
      fresh := by
        refine ⟨_, hf, rfl, rfl, congrArg ClientSys.ledger hs', hg.separated.size _ hf, fun k hk hkf => ?_⟩
        have hap := hg.separated.apart
        rw [List.pairwise_map] at hap
        have hsymm : Std.Symm fun a d : Entry => a.range.Disjoint d.range := ⟨fun _ _ h => h.symm⟩
        exact hap.forall hf hk fun h0 => hkf h0.symm
      copied := fun k hk' => by
        rw [hmem, hbytes.1 k (by omega), hptr]
      poisoned := fun hp k h1 h2 => by
        rw [hmem, hbytes.2 k (by omega) (by omega)]
        refine hpoison hp _ ?_
        unfold Span.Has Alloc.range
        simp only
        omega
      kept := fun k hk hke => by
        have hin := hstay k (List.mem_cons_of_mem _ hk) fun hp => hke (h.entry_eq he hk hp)
        exact ⟨hin, hun.bytes k hk hin, hg.separated.size k hin⟩
      gone := hgone
      back := by
        rw [hrefilled, hheader, hback, hres, htiers]
      dead := fun ht => by
        rw [hmem, ← hptr]
        exact hrel.gone.dead fun h0 => ht (hbehind.trans (congrArg some h0))
      unmapped := fun ht r hr => by
        rw [htiers] at hr
        rw [← hptr]
        exact hrel.gone.not_has h.memory ha (Option.some.inj (hbehind.symm.trans ht)) hr
      untracked := fun ht => by
        have ht' : (s.reallocate t e.ptr n).impl.config.enableLeakTracking = true := by
          rw [hs', ClientSys.closed, discharge_config]
          exact (congrArg AllocatorConfig.enableLeakTracking 
            (filled_config s.impl T' a d (min a.size n))).trans ht
        have hreg := hg.registry ht'
        have hret : e.ptr ∈ (s.reallocate t e.ptr n).returned := by
          rw [hs']
          exact List.mem_cons_of_mem _ (h.returned e he)
        refine ⟨?_, isTracked_iff.mpr ⟨n, ?_⟩, hg.not_tracked ht' hgone,
          wasFreed_iff.mpr ((hreg.freed _).mpr ⟨hret, hgone⟩)⟩
        · rw [hs', ← hptr, ← hdsize]
          exact hdebug ht
        · exact hreg.live.mem_iff.mpr (List.mem_map.mpr ⟨_, hf, rfl⟩)
      recorded := by
        rw [hs', ← hsize, ← hres, ← hdres]
        exact hstats.trans (by rw [hdsize])
      silent := by
        rw [hs']
        exact (discharge_reports _ _ _ _).trans (enroll_reports { s.impl with tiers := T' } _ _ _) }

theorem Good.resized (h : Good s live) (he : e ∈ s.ledger) (t : Nat) {n : Nat} (hn : 0 < n) :
    Resized s t e n := by
  by_cases herr : ∃ err, (s.impl.allocate t n).1 = .error err
  · obtain ⟨err, hr⟩ := herr
    obtain ⟨heq, hun, hg⟩ := h.reallocate_error he hn hr
    refine ⟨⟨fun _ => ⟨err, hr⟩, fun _ => ⟨err, by rw [heq]⟩⟩, ?_, fun _ _ => ⟨hun, ?_⟩, ?_⟩
    · rw [heq]
      simp
    · exact hg.separated.size e (by rw [hun.ledger]; exact he)
    · intro q hq
      rw [heq] at hq
      cases hq
  · push Not at herr
    obtain ⟨q, i, hq⟩ := h.reallocate_ok he hn herr
    rw [Prod.ext_iff] at hq
    refine ⟨⟨fun ⟨err, h0⟩ => ?_, fun ⟨err, h0⟩ => absurd h0 (herr err)⟩, ?_, fun err h0 => ?_,
      fun p hp => h.moved he hn (Prod.ext hp rfl)⟩
    · rw [hq.1] at h0
      cases h0
    · rw [hq.1]
      simp
    · rw [hq.1] at h0
      cases h0

end Resize

/-- **`reallocate` is all or nothing**, after every run and for every live pointer. -/
theorem reallocate_of_run {cfg : AllocatorConfig} {m : Mem} {page : PageSize}
    {answers : List (Option Nat)} {faults : List Bool} {calls : List ClientCall} {s : ClientSys}
    (hrun : runFrom ClientSys.step (ClientSys.start cfg (World.boot m page answers) faults) calls = some s)
    {e : Entry} (he : e ∈ s.ledger) (t : Nat) {n : Nat} (hn : 1 ≤ n) : Resized s t e n := by
  obtain ⟨live, h⟩ := good_of_run hrun
  exact h.resized he t hn

/-- From the small tier to the medium tier, by another thread than the one that allocated. -/
theorem reallocate_of_run_roomyWorld : ∃ s e q,
    runFrom ClientSys.step (ClientSys.start { enablePoisoning := true, enableLeakTracking := true }
      roomyWorld []) [.request 0 (.allocate 100), .write 1050514 7, .request 0 (.allocate 100)] = some s ∧
    e ∈ s.ledger ∧ (s.impl.reallocate 1 e.ptr 5000).1 = .ok (some q) ∧
    Moved s 1 e 5000 q (s.reallocate 1 e.ptr 5000) ∧ (s.reallocate 1 e.ptr 5000).mem (q + 2) = 7 := by
  have hrun : (runFrom ClientSys.step (ClientSys.start { enablePoisoning := true, enableLeakTracking := true }
      roomyWorld []) [.request 0 (.allocate 100), .write 1050514 7, .request 0 (.allocate 100)]).map (fun s =>
        (decide ((⟨1050512, 100, 16, 112⟩ : Entry) ∈ s.ledger), s.mem 1050514,
          (s.impl.reallocate 1 1050512 5000).1)) = some (true, 7, .ok (some 16777248)) := by
    decide +kernel
  obtain ⟨s, hs, hv⟩ := Option.map_eq_some_iff.mp hrun
  obtain ⟨he, hv⟩ := Prod.mk.inj hv
  obtain ⟨hbyte, hq⟩ := Prod.mk.inj hv
  have hmoved := (reallocate_of_run hs (of_decide_eq_true he) 1 (by decide)).moved _ hq
  exact ⟨s, _, _, hs, of_decide_eq_true he, hq, hmoved, (hmoved.copied 2 (by decide)).trans hbyte⟩

end MAlloc.Client
