/-
  The public calls on an allocator with `live` allocations.

  A `Request` is a call of `allocate` or of `alignedAllocate`. What it is refused for by its
  arguments alone is its `verdict`; otherwise it is served, or the OS has refused a mapping
  (`Request.run_spec`). `deallocate_spec` and `reallocate_spec` are about pointers that are live and,
  where leaks are tracked, registered. What the other allocations keep is part of each statement.
-/
import MAlloc.Client.Shim

namespace MAlloc.Client

open Lib AllocatorImpl DebugLayer

/-! ## Requests -/

inductive Request where
  | allocate (size : Nat)
  | alignedAllocate (alignment size : Nat)
  deriving DecidableEq, Repr

namespace Request

def run (s : AllocatorImpl) (t : Nat) : Request → Except Error Nat × AllocatorImpl
  | .allocate size => s.allocate t size
  | .alignedAllocate alignment size => s.alignedAllocate t alignment size

/-- The requested size, 0 counted as 1. -/
def size : Request → Nat
  | .allocate size => atLeastOne size
  | .alignedAllocate _ size => atLeastOne size

/-- The alignment asked for. -/
def align : Request → Nat
  | .allocate _ => 16
  | .alignedAllocate alignment _ => alignment

/-- The error the arguments alone lead to. -/
def verdict : Request → Option Error
  | .allocate size => if atLeastOne size > kMaxRequest then some .SizeOverflow else none
  | .alignedAllocate alignment size =>
    if isPowerOfTwo alignment = false ∨ alignment > kMaxAlignment then some .InvalidAlignment
    else if atLeastOne size > kMaxRequest then some .SizeOverflow
    else none

/-- The middle part of the call. -/
def acquire (cfg : AllocatorConfig) (T : Tiers) (t : Nat) : Request → Except Error RawAllocation × Tiers
  | .allocate size => AllocatorImpl.acquire cfg T t (atLeastOne size)
  | .alignedAllocate alignment size =>
    if alignment ≤ kDefaultAlignment then AllocatorImpl.acquire cfg T t (atLeastOne size)
    else acquireAligned cfg T t alignment (atLeastOne size)

/-- The `reserved` the call records. -/
def reserved (s : AllocatorImpl) (t : Nat) (r : Request) : Nat :=
  match (r.acquire s.config s.tiers t).1 with
  | .ok raw => raw.reserved
  | .error _ => 0

/-- The shape of what the request is served with. -/
def shape (cfg : AllocatorConfig) : Request → Shape
  | .allocate _ => if cfg.enableGuardBytes then .guarded else .plain
  | .alignedAllocate alignment _ =>
    if alignment ≤ kDefaultAlignment then if cfg.enableGuardBytes then .guarded else .plain
    else .aligned alignment

theorem run_eq (s : AllocatorImpl) (t : Nat) (r : Request) : r.run s t =
    match r.verdict with
    | some e => s.fail e 0
    | none => s.finish r.size (r.acquire s.config s.tiers t) := by
  cases r with
  | allocate size =>
    simp only [run, verdict, AllocatorImpl.allocate, Request.size, acquire]
    split <;> rfl
  | alignedAllocate alignment size =>
    simp only [run, verdict, AllocatorImpl.alignedAllocate, AllocatorImpl.allocate, Request.size, acquire]
    by_cases h1 : isPowerOfTwo alignment = false ∨ alignment > kMaxAlignment
    · rw [if_pos h1, if_pos h1]
    · rw [if_neg h1, if_neg h1]
      by_cases h2 : alignment ≤ kDefaultAlignment
      · rw [if_pos h2, if_pos h2]
        split <;> rfl
      · rw [if_neg h2, if_neg h2]
        split <;> rfl

theorem size_pos (r : Request) : 0 < r.size := by
  cases r <;> simp only [size, atLeastOne] <;> split <;> omega

end Request

/-- What the raw blocks of `live` span. -/
def spans (live : List Alloc) : List Span := (live.map Alloc.raw).map Raw.Block.span

/-- What a request may end in. -/
inductive RequestOutcome (s : AllocatorImpl) (live : List Alloc) (t : Nat) (r : Request) :
    Except Error Nat × AllocatorImpl → Prop
  | rejected {e} : r.verdict = some e → RequestOutcome s live t r (.error e, s.report e 0)
  | refused {T'} : r.verdict = none → Live T' live → s.tiers.world.Keeps T'.world (spans live) →
      s.tiers.world.refusals < T'.world.refusals →
      RequestOutcome s live t r (.error .OutOfMemory, { s with tiers := T' }.report .OutOfMemory 0)
  | served {T' a} : r.verdict = none → Live T' (a :: live) → a.size = r.size → a.ptr % r.align = 0 →
      a.raw.reserved = r.reserved s t → s.tiers.world.Keeps T'.world (spans live) [a.raw.span] →
      (s.config.enablePoisoning = true → ∀ x, a.range.Has x → T'.mem x = kAllocPoison) →
      a.Guarded T'.mem → a.raw.New s.tiers →
      RequestOutcome s live t r
        (.ok a.ptr, { s with tiers := T' }.enroll a.ptr a.size a.raw.reserved)

section Run
variable {s : AllocatorImpl} {live : List Alloc} {a : Alloc}

/-- Live pointers are different. -/
theorem Live.ptr_nodup {T : Tiers} (h : Live T live) : (live.map Alloc.ptr).Nodup := by
  obtain ⟨parts, segs, hr⟩ := h.raw.tiers
  have hp := hr.apart
  rw [List.map_map, List.pairwise_map] at hp
  refine List.pairwise_map.mpr (hp.imp_of_mem fun {a d} ha hd hap he => ?_)
  have h1 := h.bounds ha
  have h2 := h.bounds hd
  have h3 := (h.ok a ha).pos
  have h4 := (h.ok d hd).pos
  unfold Span.Disjoint at hap
  simp only [Function.comp, Raw.Block.span] at hap
  omega

theorem Live.ptr_aligned {T : Tiers} (h : Live T live) (ha : a ∈ live) {A : Nat}
    (hs : a.shape = .aligned A) : a.ptr % A = 0 := by
  have hp := (h.ok a ha).placed
  unfold Alloc.Placed at hp
  rw [hs] at hp
  exact hp.2.2.2.1

theorem Request.acquire_spec (cfg : AllocatorConfig) {T : Tiers} (h : Live T live) (t : Nat) {r : Request}
    (hv : r.verdict = none) : AcquireOutcome cfg T live (r.shape cfg) r.size (r.acquire cfg T t) := by
  have hpos := r.size_pos
  cases r with
  | allocate size =>
    have hmax : ¬ atLeastOne size > kMaxRequest := fun hgt => by
      unfold Request.verdict at hv
      dsimp only at hv
      rw [if_pos hgt] at hv
      cases hv
    exact Client.acquire_spec h cfg t hpos (Nat.le_of_not_lt hmax)
  | alignedAllocate alignment size =>
    unfold Request.verdict at hv
    dsimp only at hv
    by_cases hbad : isPowerOfTwo alignment = false ∨ alignment > kMaxAlignment
    · rw [if_pos hbad] at hv
      cases hv
    rw [if_neg hbad] at hv
    by_cases hgt : atLeastOne size > kMaxRequest
    · rw [if_pos hgt] at hv
      cases hv
    obtain ⟨hpow, hle⟩ := not_or.mp hbad
    unfold Request.acquire Request.shape
    dsimp only
    by_cases hsm : alignment ≤ kDefaultAlignment
    · rw [if_pos hsm, if_pos hsm]
      exact Client.acquire_spec h cfg t hpos (Nat.le_of_not_lt hgt)
    · rw [if_neg hsm, if_neg hsm]
      exact Client.acquireAligned_spec h cfg t hpos (Nat.le_of_not_lt hgt) (by simpa using hpow)
        (Nat.lt_of_not_le hsm) (Nat.le_of_not_lt hle)

/-- An alignment that passes the check and is not above 16 divides 16. -/
theorem dvd_16_of_pow {A : Nat} (hpow : isPowerOfTwo A = true) (hle : A ≤ 16) : 16 % A = 0 := by
  obtain ⟨k, rfl⟩ := isPowerOfTwo_iff.mp hpow
  have hk : k ≤ 4 := (Nat.pow_le_pow_iff_right (show 1 < 2 by decide)).mp (show 2 ^ k ≤ 2 ^ 4 from hle)
  exact Nat.mod_eq_zero_of_dvd (show 2 ^ k ∣ 2 ^ 4 from Nat.pow_dvd_pow 2 hk)

theorem Request.served_align {cfg : AllocatorConfig} {T : Tiers} {r : Request} (hv : r.verdict = none)
    (h : Live T (a :: live)) (hs : a.shape = r.shape cfg) : a.ptr % r.align = 0 := by
  have hin : a ∈ a :: live := List.mem_cons_self
  cases r with
  | allocate size => exact h.ptr_mod_16 hin
  | alignedAllocate alignment size =>
    unfold Request.shape at hs
    dsimp only at hs
    by_cases hsm : alignment ≤ kDefaultAlignment
    · have hpow : isPowerOfTwo alignment = true := by
        unfold Request.verdict at hv
        dsimp only at hv
        by_contra hne
        rw [if_pos (Or.inl (by simpa using hne))] at hv
        cases hv
      exact Nat.mod_eq_zero_of_dvd ((Nat.dvd_of_mod_eq_zero (dvd_16_of_pow hpow hsm)).trans
        (Nat.dvd_of_mod_eq_zero (h.ptr_mod_16 hin)))
    · rw [if_neg hsm] at hs
      exact h.ptr_aligned hin hs

/-- **A request** is rejected for its arguments, served, or out of memory after a refusal. -/
theorem Request.run_spec (h : Live s.tiers live) (t : Nat) (r : Request) :
    RequestOutcome s live t r (r.run s t) := by
  rw [Request.run_eq]
  cases hv : r.verdict with
  | some e => exact RequestOutcome.rejected hv
  | none =>
    have hout := Request.acquire_spec s.config h t hv
    have hres : r.reserved s t = match (r.acquire s.config s.tiers t).1 with
      | .ok raw => raw.reserved
      | .error _ => 0 := rfl
    dsimp only
    generalize r.acquire s.config s.tiers t = q at *
    cases hout with
    | refused hl hk href => exact RequestOutcome.refused hv hl hk href
    | @served T' a hl hshape hsize hk hpoison hguard hnew =>
      unfold AllocatorImpl.finish
      dsimp only
      rw [← hsize]
      exact RequestOutcome.served hv hl hsize (Request.served_align hv hl hshape) hres.symm hk hpoison
        hguard hnew

end Run

/-! ## The registry -/

section Registry
variable {d : DebugLayer} {p user n : Nat}

theorem isTracked_iff : d.isTracked p = true ↔ ∃ n, (p, n) ∈ d.live := by
  unfold DebugLayer.isTracked
  rw [List.any_eq_true]
  constructor
  · rintro ⟨e, he, hq⟩
    refine ⟨e.2, ?_⟩
    rw [← of_decide_eq_true hq]
    exact he
  · rintro ⟨n, he⟩
    exact ⟨_, he, decide_eq_true rfl⟩

theorem isTracked_track (h : d.isTracked p = true) : (d.track user n).isTracked p = true := by
  obtain ⟨k, hk⟩ := isTracked_iff.mp h
  by_cases hp : p = user
  · exact isTracked_iff.mpr ⟨n, by rw [hp]; exact List.mem_cons_self⟩
  · exact isTracked_iff.mpr ⟨k, List.mem_cons_of_mem _ (List.mem_filter.mpr ⟨hk, by simpa using hp⟩)⟩

end Registry

/-! ## Freeing and resizing what is live -/

/-- The registry lets the pointer pass. -/
def Passes (s : AllocatorImpl) (ptr : Nat) : Prop :=
  s.config.enableLeakTracking = true → s.debug.isTracked ptr = true

section Free
variable {s : AllocatorImpl} {live : List Alloc} {a : Alloc}

theorem Passes.check {ptr : Nat} (h : Passes s ptr) :
    (s.config.enableLeakTracking && !s.debug.isTracked ptr) = false := by
  cases ht : s.config.enableLeakTracking with
  | false => rfl
  | true => rw [h ht]; rfl

/-- What the guard check of `deallocate` reports. -/
def checked (s : AllocatorImpl) (a : Alloc) : AllocatorImpl :=
  if corrupt s.config s.tiers.mem a.ptr a.header then s.report .HeapCorruption a.ptr else s

theorem checked_eq (h : Live s.tiers live) (ha : a ∈ live) (hg : a.Guarded s.tiers.mem) :
    checked s a = s := by
  unfold checked
  rw [corrupt_eq_false h ha hg, if_neg (by simp)]

/-- **`deallocate`** of a live pointer succeeds, unless a report of broken guards ends the process. -/
theorem deallocate_checked (h : Live s.tiers live) (ha : a ∈ live) (hp : Passes s a.ptr)
    (hg : s.config.abortOnError = false ∨ a.Guarded s.tiers.mem) (t : Nat) :
    ∃ T', release s.config s.tiers t a.ptr a.header = (.ok a.raw.reserved, T') ∧
      s.deallocate t a.ptr =
        (.ok (), { checked s a with tiers := T' }.discharge a.ptr a.size a.raw.reserved) ∧
      Released s.tiers live a T' := by
  have hb := h.bounds ha
  obtain ⟨T', he, hrel⟩ := release_spec h ha s.config t
  refine ⟨T', he, ?_, hrel⟩
  have hhead : BlockHeader.load s.tiers.mem (headerOf a.ptr) = a.header := by
    rw [h.headerOf_ptr ha]
    exact (h.ok a ha).header
  unfold AllocatorImpl.deallocate
  rw [if_neg (by omega), hp.check, if_neg (by simp), hhead]
  unfold AllocatorImpl.deallocateBy
  rw [a.header_valid, a.header_state, if_neg (by simp), if_neg (by decide)]
  unfold AllocatorImpl.giveBack checked
  have hgo : (corrupt s.config s.tiers.mem a.ptr a.header && s.config.abortOnError) = false := by
    rcases hg with hg | hg
    · rw [hg, Bool.and_false]
    · rw [corrupt_eq_false h ha hg, Bool.false_and]
  cases hc : corrupt s.config s.tiers.mem a.ptr a.header with
  | false => simp only [Bool.false_eq_true, if_false, Bool.false_and, he, a.header_size]
  | true =>
    rw [hc, Bool.true_and] at hgo
    have hcfg : (s.report .HeapCorruption a.ptr).config = s.config := rfl
    have htiers : (s.report .HeapCorruption a.ptr).tiers = s.tiers := rfl
    simp only [if_true, hcfg, htiers, hgo, Bool.true_and, Bool.false_eq_true, if_false, he,
      a.header_size]

/-- **`deallocate`** of a live pointer with intact guards. -/
theorem deallocate_spec (h : Live s.tiers live) (ha : a ∈ live) (hp : Passes s a.ptr)
    (hg : a.Guarded s.tiers.mem) (t : Nat) :
    ∃ T', s.deallocate t a.ptr =
        (.ok (), { s with tiers := T' }.discharge a.ptr a.size a.raw.reserved) ∧
      Released s.tiers live a T' := by
  obtain ⟨T', -, he, hrel⟩ := deallocate_checked h ha hp (Or.inr hg) t
  rw [checked_eq h ha hg] at he
  exact ⟨T', he, hrel⟩

/-- **`allocationSize`** of a live pointer is the size it was asked for. -/
theorem allocationSize_spec (h : Live s.tiers live) (ha : a ∈ live) (hp : Passes s a.ptr) :
    s.allocationSize a.ptr = a.size := by
  have hb := h.bounds ha
  unfold AllocatorImpl.allocationSize
  rw [if_neg (by omega), hp.check, if_neg (by simp), h.headerOf_ptr ha, (h.ok a ha).header]
  unfold AllocatorImpl.sizeIn
  rw [a.header_valid, a.header_state, if_neg (by simp), a.header_size]

/-- The state in which `reallocate` frees the old block: the fresh one is enrolled and filled. -/
def filled (s : AllocatorImpl) (T' : Tiers) (a d : Alloc) (n : Nat) : AllocatorImpl :=
  ({ s with tiers := T' }.enroll d.ptr d.size d.raw.reserved).copied d.ptr a.ptr n

/-- What `reallocate(a, newSize)` may end in: what its `allocate` ends in, or a fresh block with
    the bytes of the old one, which is gone. -/
inductive ReallocateOutcome (s : AllocatorImpl) (live : List Alloc) (t : Nat) (a : Alloc) (newSize : Nat) :
    Except Error (Option Nat) × AllocatorImpl → Prop
  | failed {e s'} : s.allocate t newSize = (.error e, s') →
      RequestOutcome s live t (.allocate newSize) (.error e, s') →
      ReallocateOutcome s live t a newSize (.error e, s')
  | moved {T' T'' d} : (Request.allocate newSize).verdict = none →
      s.allocate t newSize = (.ok d.ptr, { s with tiers := T' }.enroll d.ptr d.size d.raw.reserved) →
      Live T' (d :: live) → d.size = newSize → d.raw.reserved = (Request.allocate newSize).reserved s t →
      s.tiers.world.Keeps T'.world (spans live) [d.raw.span] →
      Released (T'.setMem (copy T'.mem d.ptr a.ptr (min a.size newSize))) (d :: live) a T'' →
      (s.config.enablePoisoning = true → ∀ x, d.range.Has x → T'.mem x = kAllocPoison) →
      d.Guarded (T'.setMem (copy T'.mem d.ptr a.ptr (min a.size newSize))).mem → d.raw.New s.tiers →
      release s.config (T'.setMem (copy T'.mem d.ptr a.ptr (min a.size newSize))) t a.ptr a.header =
        (.ok a.raw.reserved, T'') →
      ReallocateOutcome s live t a newSize (.ok (some d.ptr),
        { checked (filled s T' a d (min a.size newSize)) a with tiers := T'' }.discharge a.ptr a.size
          a.raw.reserved)

theorem enroll_tiers (s : AllocatorImpl) (user n r : Nat) : (s.enroll user n r).tiers = s.tiers := by
  unfold AllocatorImpl.enroll
  dsimp only
  split <;> rfl

theorem enroll_config (s : AllocatorImpl) (user n r : Nat) : (s.enroll user n r).config = s.config := by
  unfold AllocatorImpl.enroll
  dsimp only
  split <;> rfl

theorem Passes.enroll {ptr : Nat} (h : Passes s ptr) (user n r : Nat) :
    Passes (s.enroll user n r) ptr := by
  intro ht
  rw [enroll_config] at ht
  unfold AllocatorImpl.enroll
  dsimp only
  rw [if_pos ht]
  exact isTracked_track (h ht)

theorem filled_config (s : AllocatorImpl) (T' : Tiers) (a d : Alloc) (n : Nat) :
    (filled s T' a d n).config = s.config := enroll_config _ _ _ _

theorem filled_tiers (s : AllocatorImpl) (T' : Tiers) (a d : Alloc) (n : Nat) :
    (filled s T' a d n).tiers = T'.setMem (copy T'.mem d.ptr a.ptr n) := by
  unfold filled AllocatorImpl.copied
  dsimp only
  rw [enroll_tiers]

/-- The old block keeps its guards until it is freed. -/
theorem guarded_copied {T' : Tiers} {d : Alloc} {n : Nat} (hl : Live T' (d :: live)) (ha : a ∈ live)
    (hk : s.tiers.world.Keeps T'.world (spans live) [d.raw.span]) (hn : n ≤ d.size) (hg : a.Guarded s.tiers.mem) :
    a.Guarded (T'.setMem (copy T'.mem d.ptr a.ptr n)).mem := by
  have hin := List.mem_cons_of_mem d ha
  refine hg.congr (hl.ok a hin).placed (hl.fits hin) fun x hx _ => ?_
  rw [Tiers.setMem_mem, copy_of_not fun hx' => ?_]
  · exact hk.bytes a.raw.span (List.mem_map_of_mem (List.mem_map_of_mem ha)) x hx.1 hx.2
  · rcases hl.eq_or_apart List.mem_cons_self hin with rfl | hap
    · exact (List.nodup_cons.mp hl.ptr_nodup).1 (List.mem_map_of_mem ha)
    · refine hap.not_has ((Alloc.range_inside hl List.mem_cons_self).has (x := x) ?_) hx
      unfold Span.Has Alloc.range
      simp only
      omega

/-- **`reallocate`** of a live pointer to a size other than 0. -/
theorem reallocate_spec (h : Live s.tiers live) (ha : a ∈ live) (hp : Passes s a.ptr)
    (hg : s.config.abortOnError = false ∨ a.Guarded s.tiers.mem) (t : Nat)
    {newSize : Nat} (hn : 0 < newSize) :
    ReallocateOutcome s live t a newSize (s.reallocate t a.ptr newSize) := by
  have hb := h.bounds ha
  have hpos := (h.ok a ha).pos
  have hout := Request.run_spec h t (.allocate newSize)
  have hrun : (Request.allocate newSize).run s t = s.allocate t newSize := rfl
  have hone : (Request.allocate newSize).size = newSize := if_neg (by omega)
  unfold AllocatorImpl.reallocate
  rw [if_neg (by omega), if_neg (by omega), allocationSize_spec h ha hp]
  dsimp only
  rw [if_neg (by omega)]
  rw [hrun] at hout
  generalize hs : s.allocate t newSize = q at hout ⊢
  cases hq : q with
  | mk res s1 =>
  rw [hq] at hout
  cases res with
  | error e => exact ReallocateOutcome.failed (hs.trans hq) hout
  | ok fresh =>
    have heq := hs.trans hq
    cases hout with
    | @served T' d hv hl hsize halign hres hk hpoison hguard hnew =>
      dsimp only
      -- the copy goes into the fresh block
      have hfit : ∀ x, ¬ d.range.Has x →
          copy T'.mem d.ptr a.ptr (min a.size newSize) x = T'.mem x := fun x hx =>
        copy_of_not fun hx' => hx (by
          unfold Span.Has Alloc.range
          simp only
          rw [hone] at hsize
          omega)
      have hl' := hl.write List.mem_cons_self hfit
      have ht : (filled s T' a d (min a.size newSize)).tiers =
          T'.setMem (copy T'.mem d.ptr a.ptr (min a.size newSize)) := by
        unfold filled AllocatorImpl.copied
        dsimp only
        rw [enroll_tiers]
      have hpass : Passes (filled s T' a d (min a.size newSize)) a.ptr :=
        Passes.enroll (s := { s with tiers := T' }) hp d.ptr d.size d.raw.reserved
      have hlf : Live (filled s T' a d (min a.size newSize)).tiers (d :: live) := by
        rw [ht]
        exact hl'
      have hgf : (filled s T' a d (min a.size newSize)).config.abortOnError = false ∨
          a.Guarded (filled s T' a d (min a.size newSize)).tiers.mem := by
        refine hg.imp (fun hab => ?_) fun hg => ?_
        · rw [filled_config]
          exact hab
        · rw [ht]
          exact guarded_copied hl ha hk (by omega) hg
      obtain ⟨T'', hback, he, hrel⟩ := deallocate_checked hlf (List.mem_cons_of_mem _ ha) hpass hgf t
      rw [ht] at hback hrel
      rw [filled_config] at hback
      have hmove : AllocatorImpl.moveInto ({ s with tiers := T' }.enroll d.ptr d.size d.raw.reserved) t
          a.ptr d.ptr (min a.size newSize) = (.ok (some d.ptr),
            { checked (filled s T' a d (min a.size newSize)) a with tiers := T'' }.discharge a.ptr a.size
              a.raw.reserved) := by
        unfold AllocatorImpl.moveInto
        have hf : AllocatorImpl.copied ({ s with tiers := T' }.enroll d.ptr d.size d.raw.reserved) d.ptr
            a.ptr (min a.size newSize) = filled s T' a d (min a.size newSize) := rfl
        rw [hf, he]
      rw [hmove]
      refine ReallocateOutcome.moved hv heq hl (hsize.trans hone) hres hk hrel hpoison ?_ hnew hback
      exact hguard.congr (hl.ok d List.mem_cons_self).placed (hl.fits List.mem_cons_self)
        fun x _ hx => hfit x hx

/-- With intact guards `reallocate` reports nothing. -/
theorem checked_filled {T' : Tiers} {d : Alloc} {n : Nat} (hl : Live T' (d :: live)) (ha : a ∈ live)
    (hk : s.tiers.world.Keeps T'.world (spans live) [d.raw.span]) (hn : n ≤ d.size)
    (hg : a.Guarded s.tiers.mem) : checked (filled s T' a d n) a = filled s T' a d n := by
  have hfit : ∀ x, ¬ d.range.Has x → copy T'.mem d.ptr a.ptr n x = T'.mem x := fun x hx =>
    copy_of_not fun hx' => hx (by unfold Span.Has Alloc.range; simp only; omega)
  have hlf : Live (filled s T' a d n).tiers (d :: live) := by
    rw [filled_tiers]
    exact hl.write List.mem_cons_self hfit
  refine checked_eq hlf (List.mem_cons_of_mem _ ha) ?_
  rw [filled_tiers]
  exact guarded_copied hl ha hk hn hg

end Free

end MAlloc.Client
