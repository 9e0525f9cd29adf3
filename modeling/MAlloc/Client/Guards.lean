/-
  Guard bytes detect what changes them, and nothing else.

  Beside the calls of `ClientSys`, clients write out of bounds: anywhere in the raw block of a guarded
  allocation except its two headers. Nothing the allocator keeps is changed by that (`Sound` stays);
  only guard bytes may differ from the pattern (`Tampered`). `deallocate` then makes one report. The
  rest of it does not look at the guard bytes (`release_off`), so it goes on as on intact guards.
-/
import MAlloc.Client.Release
import MAlloc.Client.Separation
import MAlloc.Heap.Blind

namespace MAlloc.Client

open Lib AllocatorImpl DebugLayer SizeClassTable

/-! ## What the release path reads -/

/-- The tiers differ in bytes of `G` only. -/
def TiersOff (G : Nat → Prop) (T T' : Tiers) : Prop := ∃ m, T' = T.setMem m ∧ SameOff G T.mem m

section Off
variable {G : Nat → Prop} {T T' : Tiers} {m m' : Mem}

theorem pushBatch_off (blocks : List Nat) (l : FreeList) (hs : SameOff G m m') :
    (PoolAllocator.pushBatch blocks m' l).2 = (PoolAllocator.pushBatch blocks m l).2 ∧
      SameOff G (PoolAllocator.pushBatch blocks m l).1 (PoolAllocator.pushBatch blocks m' l).1 := by
  induction blocks generalizing m m' l with
  | nil => exact ⟨rfl, hs⟩
  | cons b blocks ih => exact ih _ (hs.writeLE _ _ _)

/-- The slot of a thread does not depend on memory. -/
theorem threadCache_setMem (T : Tiers) (m : Mem) (enabled : Bool) (t : Nat) :
    (T.setMem m).threadCache enabled t = ((T.threadCache enabled t).1, (T.threadCache enabled t).2.setMem m) ∧
      (T.threadCache enabled t).2.mem = T.mem := by
  have hslot : (T.setMem m).tlsCaches t = T.tlsCaches t := rfl
  have hfaults : (T.setMem m).cacheFaults = T.cacheFaults := rfl
  unfold Tiers.threadCache
  rw [hslot, hfaults]
  cases enabled with
  | false => exact ⟨rfl, rfl⟩
  | true =>
    cases T.tlsCaches t with
    | some cache => exact ⟨rfl, rfl⟩
    | none => cases T.cacheFaults.headD false <;> exact ⟨rfl, rfl⟩

theorem giveSmall_off (hs : SameOff G T.mem m) (enabled : Bool) (t c b : Nat) :
    TiersOff G (T.giveSmall enabled t c b) ((T.setMem m).giveSmall enabled t c b) := by
  obtain ⟨hcache, hmem⟩ := threadCache_setMem T m enabled t
  unfold Tiers.giveSmall
  rw [hcache]
  generalize T.threadCache enabled t = q at hmem
  obtain ⟨o, T1⟩ := q
  dsimp only at hmem
  rw [← hmem] at hs
  cases o with
  | none => exact ⟨_, rfl, hs.writeLE _ _ _⟩
  | some cache =>
    unfold ThreadCache.freeBlock PoolAllocator.freeBatch
    dsimp only
    by_cases hfull : (cache c).count = kCapacity
    · rw [if_pos hfull, if_pos hfull]
      obtain ⟨hl, hm⟩ := pushBatch_off ((cache c).window (kCapacity - kBatchSize) kBatchSize)
        (T1.pools c).freeList hs
      refine ⟨_, ?_, hm⟩
      have hp : (T1.setMem m).pools = T1.pools := rfl
      have hw : (T1.setMem m).world.mem = m := rfl
      dsimp only
      rw [hp, hw, hl]
      rfl
    · rw [if_neg hfull, if_neg hfull]
      exact ⟨m, rfl, hs⟩

theorem rawDeallocateLarge_off (hs : SameOff G T.mem m) (header : Nat) :
    TiersOff G (T.rawDeallocateLarge header).2 ((T.setMem m).rawDeallocateLarge header).2 := by
  have hl : (T.setMem m).large = T.large := rfl
  unfold Tiers.rawDeallocateLarge LargeAllocator.deallocate
  rw [hl]
  cases T.large.lookup header with
  | none => exact ⟨m, rfl, hs⟩
  | some region => exact ⟨m, rfl, hs⟩

theorem unshimmed_off (hs : SameOff G m m') (cfg : AllocatorConfig) (a : Alloc) :
    SameOff G (unshimmed cfg m a) (unshimmed cfg m' a) := by
  have hp : SameOff G (poisonedOld cfg m a.ptr a.size) (poisonedOld cfg m' a.ptr a.size) := by
    unfold poisonedOld
    split
    · exact hs.fill _ _ _
    · exact hs
  unfold unshimmed
  split
  · exact hp
  · exact hp.writeLE _ _ _

variable {live : List Alloc} {a : Alloc}

/-- **`release` does not look at bytes of the raw block behind its headers.** -/
theorem release_off (h : Live T live) (h' : Live (T.setMem m) live) (ha : a ∈ live)
    (hG : ∀ x, G x → a.raw.span.Has x) (hs : SameOff G T.mem m) (cfg : AllocatorConfig) (t : Nat) :
    TiersOff G (release cfg T t a.ptr a.header).2 (release cfg (T.setMem m) t a.ptr a.header).2 := by
  obtain ⟨parts, segs, hr⟩ := h.raw.tiers
  have hsu := unshimmed_off hs cfg a
  have hsg : SameOff G (given cfg T.mem a) (given cfg m a) := hsu.writeLE _ _ _
  rcases (hr.ok _ (Live.raw_mem ha)).tiers with ht | ht | ht
  · rw [release_small h ha ht, release_small h' ha ht]
    exact giveSmall_off (T := T.setMem (given cfg T.mem a)) hsg _ _ _ _
  · have hg := h.given_tiers ha cfg hr
    have hoff := Heap.deallocate_off (w := { T.world with mem := given cfg T.mem a }) (h := T.segments)
      (u := a.raw.span) hg.heap (hr.used_span (Live.raw_mem ha) ht) hG hsg
    have hstart : a.raw.span.data = a.raw.start := rfl
    dsimp only at hoff
    rw [hstart] at hoff
    cases hd : SegmentHeap.deallocate { T.world with mem := given cfg T.mem a } T.segments a.raw.start with
    | mk w₁ h₁ =>
    cases hd' : SegmentHeap.deallocate { T.world with mem := given cfg m a } T.segments a.raw.start with
    | mk w₂ h₂ =>
    rw [release_medium h ha ht hd, release_medium h' ha ht (t := t) hd']
    rw [hd, hd'] at hoff
    dsimp only at hoff
    obtain ⟨rfl, m₂, rfl, hs₂⟩ := hoff
    exact ⟨m₂, rfl, hs₂⟩
  · rw [rawDeallocate_tier h ha, rawDeallocate_tier h' ha, ht]
    unfold Tiers.rawDeallocateBy
    rw [BlockHeader.tierValue_of_code (t := .Large) rfl, Tiers.setMem_setMem, Tiers.setMem_mem]
    exact rawDeallocateLarge_off (T := T.setMem (unshimmed cfg T.mem a)) hsu _

end Off

/-! ## Guard bytes -/

/-- A guard byte of an allocation of `n` bytes at `p`. -/
def GuardByte (p n x : Nat) : Prop := (p - 32 ≤ x ∧ x < p - 16) ∨ (p + n ≤ x ∧ x < p + n + 32)

instance (p n x : Nat) : Decidable (GuardByte p n x) := inferInstanceAs (Decidable (_ ∨ _))

/-- Some guard byte differs from the pattern. -/
def Tampered (m : Mem) (p n : Nat) : Prop := ∃ x, GuardByte p n x ∧ m x ≠ kGuardPattern

/-- The memory in which the guards are intact. -/
def mended (m : Mem) (p n : Nat) : Mem := fun x => if GuardByte p n x then kGuardPattern else m x

section Guards
variable {T : Tiers} {live : List Alloc} {a : Alloc} {m : Mem}

theorem Live.guard_inside (h : Live T live) (ha : a ∈ live) (hs : a.shape = .guarded) {x : Nat}
    (hx : GuardByte a.ptr a.size x) :
    a.raw.user ≤ x ∧ x < a.raw.user + a.raw.reserved ∧ ¬ (a.ptr - 16 ≤ x ∧ x < a.ptr) := by
  obtain ⟨hp, hsz⟩ := (h.ok a ha).placed.guarded hs
  have hfit := h.fits ha
  have hpos := (h.ok a ha).pos
  unfold GuardByte at hx
  unfold Raw.Block.user
  omega

theorem Live.guarded_iff (h : Live T live) (ha : a ∈ live) (hs : a.shape = .guarded) :
    a.Guarded m ↔ ¬ Tampered m a.ptr a.size := by
  obtain ⟨hp, -⟩ := (h.ok a ha).placed.guarded hs
  have huser : a.raw.user = a.ptr - 32 := by
    unfold Raw.Block.user
    omega
  constructor
  · rintro hg ⟨x, hx, hne⟩
    obtain ⟨hf, hr⟩ := hg hs
    rcases hx with hx | hx
    · have := hf (x - (a.ptr - 32)) (by omega)
      rw [huser, Nat.add_sub_cancel' hx.1] at this
      exact hne this
    · have := hr (x - (a.ptr + a.size)) (by omega)
      rw [Nat.add_sub_cancel' hx.1] at this
      exact hne this
  · intro hno _
    refine ⟨fun i hi => ?_, fun i hi => ?_⟩
    · by_contra hne
      exact hno ⟨_, Or.inl (by omega), hne⟩
    · by_contra hne
      exact hno ⟨_, Or.inr (by omega), hne⟩

/-- A write into the raw block, behind the raw header and beside the shim. -/
theorem Live.scribble (h : Live T live) (ha : a ∈ live)
    (hm : ∀ x, m x ≠ T.mem x → a.raw.user ≤ x ∧ x < a.raw.user + a.raw.reserved ∧ ¬ (a.ptr - 16 ≤ x ∧ x < a.ptr)) :
    Live (T.setMem m) live := by
  have hout : ∀ x, ¬ (a.raw.user ≤ x ∧ x < a.raw.user + a.raw.reserved) → m x = T.mem x := by
    intro x hx
    by_contra hne
    have := hm x hne
    omega
  refine ⟨h.raw.write (Live.raw_mem ha) hout, fun d hd => ?_⟩
  have hok := h.ok d hd
  refine ⟨hok.pos, hok.bound, hok.placed, (BlockHeader.load_congr fun x h1 h2 => ?_).trans hok.header⟩
  by_contra hne
  have hin := hm x hne
  have hbd := h.bounds hd
  rcases h.eq_or_apart ha hd with rfl | hap
  · omega
  · refine hap.not_has (x := x) ?_ ?_ <;> unfold Span.Has Raw.Block.span
    · unfold Raw.Block.user at hin
      simp only
      omega
    · simp only
      omega

theorem mended_of_not {p n x : Nat} (hx : ¬ GuardByte p n x) : mended m p n x = m x := if_neg hx

theorem Live.mended (h : Live T live) (ha : a ∈ live) (hs : a.shape = .guarded) :
    Live (T.setMem (mended T.mem a.ptr a.size)) live := by
  refine h.scribble ha fun x hx => h.guard_inside ha hs ?_
  by_contra hno
  exact hx (mended_of_not hno)

theorem not_tampered_mended (m : Mem) (p n : Nat) : ¬ Tampered (mended m p n) p n := by
  rintro ⟨x, hx, hne⟩
  exact hne (if_pos hx)

/-- The check of `deallocate` is exact. -/
theorem Live.corrupt_iff (h : Live T live) (ha : a ∈ live) (hs : a.shape = .guarded) {cfg : AllocatorConfig}
    (hcfg : cfg.enableGuardBytes = true) :
    corrupt cfg T.mem a.ptr a.header = true ↔ Tampered T.mem a.ptr a.size := by
  constructor
  · intro hc
    by_contra hno
    rw [corrupt_eq_false h ha ((h.guarded_iff ha hs).mpr hno)] at hc
    cases hc
  · rintro ⟨x, hx, hne⟩
    have hb := h.bounds ha
    obtain ⟨hp, -⟩ := (h.ok a ha).placed.guarded hs
    have hsub : ptrSub a.ptr kFrontGuardSize = a.ptr - 32 := ptrSub_eq (show 32 ≤ a.ptr by omega) (by omega)
    have hv : verifyGuards T.mem a.ptr a.size = false := by
      unfold verifyGuards
      rw [hsub, Bool.and_eq_false_iff]
      rcases hx with hx | hx
      · refine Or.inl (List.all_eq_false.mpr ⟨x - (a.ptr - 32), List.mem_range.mpr ?_, ?_⟩)
        · change x - (a.ptr - 32) < 16
          omega
        · rw [Nat.add_sub_cancel' hx.1]
          simpa using hne
      · have hlt : x - (a.ptr + a.size) < 32 := by omega
        refine Or.inr (List.all_eq_false.mpr ⟨x - (a.ptr + a.size), List.mem_range.mpr hlt, ?_⟩)
        rw [h.rearAt_eq ha hs hlt, Nat.add_sub_cancel' hx.1]
        simpa using hne
    unfold corrupt
    rw [a.header_tier, hs, hcfg, a.header_size, hv]
    rfl

end Guards

/-! ## `deallocate` -/

/-- `i` has ended as `i'`, apart from reports and the guard bytes themselves. -/
structure AsIf (p n : Nat) (i i' : AllocatorImpl) : Prop where
  tiers : TiersOff (GuardByte p n) i'.tiers i.tiers
  stats : i.stats = i'.stats
  debug : i.debug = i'.debug

section Deallocate
variable {s : AllocatorImpl} {live : List Alloc} {a : Alloc}

theorem discharge_registry (s : AllocatorImpl) (p n r : Nat) :
    (s.discharge p n r).debug = if s.config.enableLeakTracking then s.debug.untrack p else s.debug := by
  unfold AllocatorImpl.discharge
  dsimp only
  split <;> rfl

theorem deallocate_tampered (h : Live s.tiers live) (ha : a ∈ live) (hs : a.shape = .guarded)
    (hcfg : s.config.enableGuardBytes = true) (hp : Passes s a.ptr) (hab : s.config.abortOnError = false)
    (ht : Tampered s.tiers.mem a.ptr a.size) (t : Nat) :
    ∃ i i', s.deallocate t a.ptr = (.ok (), i) ∧
      AllocatorImpl.deallocate { s with tiers := s.tiers.setMem (mended s.tiers.mem a.ptr a.size) } t a.ptr =
        (.ok (), i') ∧
      i.reports = s.reports ++ [(.HeapCorruption, a.ptr)] ∧ i'.reports = s.reports ∧
      AsIf a.ptr a.size i i' := by
  have hl := h.mended ha hs
  have hg := (hl.guarded_iff ha hs).mpr (not_tampered_mended s.tiers.mem a.ptr a.size)
  obtain ⟨T', hrel, hd, -⟩ := deallocate_checked h ha hp (Or.inl hab) t
  obtain ⟨T'', hrel', hd', -⟩ := deallocate_checked
    (s := { s with tiers := s.tiers.setMem (mended s.tiers.mem a.ptr a.size) }) hl ha hp (Or.inr hg) t
  rw [checked_eq hl ha hg] at hd'
  have hc : checked s a = s.report .HeapCorruption a.ptr := by
    unfold checked
    rw [(h.corrupt_iff ha hs hcfg).mpr ht, if_pos rfl]
  rw [hc] at hd
  have hback : (s.tiers.setMem (mended s.tiers.mem a.ptr a.size)).setMem s.tiers.mem = s.tiers := rfl
  have hoff := release_off hl (by rw [hback]; exact h) ha (G := GuardByte a.ptr a.size) (m := s.tiers.mem)
    (fun x hx => ?_) (fun x hx => (mended_of_not hx).symm) s.config t
  · rw [hback, hrel, hrel'] at hoff
    refine ⟨_, _, hd, hd', ?_, ?_, ?_, ?_, ?_⟩
    · rw [discharge_reports]
      rfl
    · rw [discharge_reports]
    · rw [discharge_tiers, discharge_tiers]
      exact hoff
    · rw [discharge_stats, discharge_stats]
      rfl
    · rw [discharge_registry, discharge_registry]
      rfl
  · have hin := h.guard_inside ha hs hx
    unfold Raw.Block.user at hin
    unfold Span.Has Raw.Block.span
    simp only
    omega

/-- With `abortOnError` the report is the end. -/
theorem deallocate_aborts (h : Live s.tiers live) (ha : a ∈ live) (hs : a.shape = .guarded)
    (hcfg : s.config.enableGuardBytes = true) (hp : Passes s a.ptr) (hab : s.config.abortOnError = true)
    (ht : Tampered s.tiers.mem a.ptr a.size) (t : Nat) :
    s.deallocate t a.ptr = (.error .HeapCorruption, s.report .HeapCorruption a.ptr) := by
  have hb := h.bounds ha
  have hhead : BlockHeader.load s.tiers.mem (headerOf a.ptr) = a.header := by
    rw [h.headerOf_ptr ha]
    exact (h.ok a ha).header
  unfold AllocatorImpl.deallocate
  rw [if_neg (by omega), hp.check, if_neg (by simp), hhead]
  unfold AllocatorImpl.deallocateBy
  rw [a.header_valid, a.header_state, if_neg (by simp), if_neg (by decide)]
  unfold AllocatorImpl.giveBack
  rw [(h.corrupt_iff ha hs hcfg).mpr ht]
  have hcfg' : (s.report .HeapCorruption a.ptr).config = s.config := rfl
  simp only [if_true, hcfg', hab, Bool.and_self]

end Deallocate

/-! ## Runs -/

inductive GuardEvent where
  | call (c : ClientCall)
  | scribble (addr : Nat) (value : UInt8)
  deriving DecidableEq, Repr

/-- A byte of the raw block of a guarded allocation, in none of its headers. -/
def Entry.Loose (e : Entry) (x : Nat) : Prop :=
  e.align ≤ 16 ∧ e.ptr ≤ x + 32 ∧ x + 32 < e.ptr + e.reserved ∧ ¬ (e.ptr ≤ x + 16 ∧ x < e.ptr)

instance (e : Entry) (x : Nat) : Decidable (e.Loose x) := inferInstanceAs (Decidable (_ ∧ _))

/-- A call, or a write out of bounds that hits no header. -/
def ClientSys.guardStep (s : ClientSys) : GuardEvent → Option ClientSys
  | .call c => s.step c
  | .scribble addr value =>
    if s.impl.aborted = false ∧ s.impl.config.enableGuardBytes = true ∧ ∃ e ∈ s.ledger, e.Loose addr then
      some { s with impl := { s.impl with
        tiers := s.impl.tiers.setMem (Function.update s.mem addr value) } }
    else none

/-- `Sound`, with a debug shim in front of all that is not over-aligned. -/
structure Shaken (s : ClientSys) (live : List Alloc) : Prop extends Sound s live where
  guards : s.impl.config.enableGuardBytes = true
  shims : ∀ e ∈ s.ledger, e.align ≤ 16 →
    (BlockHeader.load s.mem (headerOf e.ptr)).tierValue = some .DebugShim

section Shims
variable {s s' : ClientSys} {live live' : List Alloc} {a : Alloc} {e : Entry}

/-- The shape of an allocation with a debug shim. -/
theorem Shaken.alloc_of_entry (h : Shaken s live) (he : e ∈ s.ledger) (hal : e.align ≤ 16) :
    ∃ a ∈ live, a.ptr = e.ptr ∧ a.size = e.size ∧ a.raw.reserved = e.reserved ∧ a.shape = .guarded := by
  obtain ⟨a, ha, hkey⟩ := h.alloc_of he
  have h1 : a.ptr = e.ptr := congrArg Prod.fst hkey
  refine ⟨a, ha, h1, congrArg (fun k => k.2.1) hkey, congrArg (fun k => k.2.2) hkey, ?_⟩
  refine h.memory.guarded_of_tier ha ?_
  have ht := h.shims e he hal
  rw [← h1, h.memory.headerOf_ptr ha, (h.memory.ok a ha).header] at ht
  exact ht

/-- A request with an alignment up to 16 is served behind a debug shim. -/
theorem Request.run_shim {i i' : AllocatorImpl} (h : Live i.tiers live) (hcfg : i.config.enableGuardBytes = true)
    {r : Request} (hal : r.align ≤ 16) {t p : Nat} (hrun : r.run i t = (.ok p, i')) :
    (BlockHeader.load i'.tiers.mem (headerOf p)).tierValue = some .DebugShim := by
  rw [Request.run_eq] at hrun
  cases hv : r.verdict with
  | some e =>
    rw [hv] at hrun
    cases hrun
  | none =>
    rw [hv] at hrun
    dsimp only at hrun
    have hshape : r.shape i.config = .guarded := by
      unfold Request.shape
      cases r with
      | allocate n => exact if_pos hcfg
      | alignedAllocate A n =>
        dsimp only
        rw [if_pos (show A ≤ kDefaultAlignment from hal), if_pos hcfg]
    have hout := Request.acquire_spec i.config h t hv
    generalize r.acquire i.config i.tiers t = q at hout hrun
    cases hout with
    | refused hl hk href => cases hrun
    | @served T' a hl hs hsize hk hpoison hguard hnew =>
      obtain ⟨hp, hi⟩ := Prod.mk.inj hrun
      obtain rfl : a.ptr = p := Except.ok.inj hp
      rw [← hi, enroll_tiers, hl.headerOf_ptr List.mem_cons_self, (hl.ok a List.mem_cons_self).header,
        a.header_tier, hs, hshape]

/-- The header of an allocation that stays is not changed. -/
theorem Sound.header_kept {call : ClientCall} (h : Sound s live) (hst : Stepped call s s' live live')
    (hs : s.step call = some s') (he : e ∈ s.ledger) (hin : e.ptr ∈ s'.pointers) :
    BlockHeader.load s'.mem (headerOf e.ptr) = BlockHeader.load s.mem (headerOf e.ptr) := by
  obtain ⟨a, ha, hkey⟩ := h.alloc_of he
  have h1 : a.ptr = e.ptr := congrArg Prod.fst hkey
  rw [← h1] at hin ⊢
  have hb := h.memory.bounds ha
  rw [h.memory.headerOf_ptr ha]
  refine BlockHeader.load_congr fun x hx1 hx2 => ?_
  have hx : a.raw.span.Has x := by
    unfold Span.Has Raw.Block.span
    simp only
    omega
  refine hst.bytes a ha (hst.stays a ha hin) x hx ?_
  rintro v rfl
  have hr := h.write_inside hs ha hx
  unfold Span.Has Alloc.range at hr
  simp only at hr
  omega

theorem request_ledger {t : Nat} {r : Request} (he : e ∈ (s.request t r).ledger) :
    e ∈ s.ledger ∨ e.align = r.align ∧ r.run s.impl t = (.ok e.ptr, (s.request t r).impl) := by
  unfold ClientSys.request at he ⊢
  generalize r.run s.impl t = q at he ⊢
  obtain ⟨res, i⟩ := q
  cases res with
  | error err => exact Or.inl he
  | ok ptr =>
    rcases List.mem_cons.mp he with rfl | he
    · exact Or.inr ⟨rfl, rfl⟩
    · exact Or.inl he

theorem deallocate_ledger {t p : Nat} (he : e ∈ (s.deallocate t p).ledger) : e ∈ s.ledger := by
  unfold ClientSys.deallocate at he
  generalize s.impl.deallocate t p = q at he
  obtain ⟨res, i⟩ := q
  cases res with
  | error err => exact he
  | ok u =>
    dsimp only at he
    split at he
    · exact he
    · exact List.mem_of_mem_filter he

/-- What a `reallocate` makes has a debug shim. -/
theorem reallocate_shim (h : Sound s live) (hcfg : s.impl.config.enableGuardBytes = true) {t p n : Nat}
    (hl : Lenient s live p) (hp : s.Allowed p) (he : e ∈ (s.reallocate t p n).ledger) :
    e ∈ s.ledger ∨ (BlockHeader.load (s.reallocate t p n).mem (headerOf e.ptr)).tierValue = some .DebugShim := by
  by_cases h0 : p = 0
  · rw [h0, reallocate_null] at he ⊢
    refine (request_ledger he).imp id fun hnew => ?_
    exact Request.run_shim (r := .allocate n) h.memory hcfg (Nat.le_refl 16) hnew.2
  by_cases hn : n = 0
  · rw [hn, reallocate_zero s t h0] at he
    exact Or.inl (deallocate_ledger he)
  by_cases hin : p ∈ s.pointers
  · obtain ⟨a, ha, rfl⟩ := h.alloc_of_ptr hin
    have hout := reallocate_spec h.memory ha (h.passes ha) (hl a ha rfl) t (Nat.pos_of_ne_zero hn)
    unfold ClientSys.reallocate at he ⊢
    generalize s.impl.reallocate t a.ptr n = q at hout he ⊢
    cases hout with
    | failed heq hreq => exact Or.inl he
    | @moved T' T'' d hv heq hlive hsize hres hk hrel hpoison hguard hnew =>
      dsimp only at he ⊢
      rw [if_neg h0] at he ⊢
      unfold ClientSys.closed ClientSys.opened at he
      dsimp only at he
      rcases List.mem_cons.mp (List.mem_of_mem_filter he) with rfl | he
      · -- the fresh block has kept its shim
        have hshim := Request.run_shim (r := .allocate n) h.memory hcfg (Nat.le_refl 16) heq
        have hd : d ∈ d :: live := List.mem_cons_self
        rw [enroll_tiers, hlive.headerOf_ptr hd, (hlive.ok d hd).header] at hshim
        have hda : d ≠ a := by
          rintro rfl
          exact (List.nodup_cons.mp hlive.ptr_nodup).1 (List.mem_map_of_mem ha)
        have hd' : d ∈ (d :: live).erase a := (List.mem_erase_of_ne hda).mpr hd
        right
        rw [ClientSys.closed, ClientSys.mem, discharge_tiers]
        dsimp only
        rw [hrel.live'.headerOf_ptr hd', (hrel.live'.ok d hd').header]
        exact hshim
      · exact Or.inl he
  · have ht : s.impl.config.enableLeakTracking = true := hp.resolve_left h0 |>.resolve_left hin
    unfold ClientSys.reallocate AllocatorImpl.reallocate at he
    rw [if_neg h0, if_neg hn, allocationSize_rejected h ht hin] at he
    exact Or.inl he

/-- A call that frees nothing tampered, or is told so and goes on. -/
theorem Shaken.call (h : Shaken s live) {call : ClientCall} (hl : ∀ p, ¬ call.Spares p → Lenient s live p)
    (hs : s.step call = some s') : ∃ live', Shaken s' live' ∧ Stepped call s s' live live' := by
  obtain ⟨live', h', hst⟩ := step_sound h.toSound hl hs
  have hcfg' := (config_stable s.impl.config).step rfl hs
  refine ⟨live', ⟨h', by rw [hcfg']; exact h.guards, fun e he hal => ?_⟩, hst⟩
  have hold : e ∈ s.ledger → (BlockHeader.load s'.mem (headerOf e.ptr)).tierValue = some .DebugShim := by
    intro hold
    rw [h.header_kept hst hs hold (List.mem_map_of_mem he)]
    exact h.shims e hold hal
  unfold ClientSys.step at hs
  split at hs
  · cases hs
  cases call with
  | request t r =>
    cases hs
    rcases request_ledger he with hin | ⟨halign, hrun⟩
    · exact hold hin
    · exact Request.run_shim h.memory h.guards (by rw [← halign]; exact hal) hrun
  | reallocate t p n =>
    dsimp only at hs
    split at hs
    · rename_i hp
      cases hs
      have hlen := hl p (by simp [ClientCall.Spares])
      exact (reallocate_shim h.toSound h.guards hlen hp he).elim hold id
    · cases hs
  | deallocate t p =>
    dsimp only at hs
    split at hs
    · cases hs
      exact hold (deallocate_ledger he)
    · cases hs
  | write addr value =>
    dsimp only at hs
    split at hs
    · cases hs
      exact hold he
    · cases hs
  | exit t =>
    cases hs
    exact hold he

/-- A call leaves the guards of what stays as they are, and lays those of what is new. -/
theorem Sound.guard_kept {call : ClientCall} (h : Sound s live) (hst : Stepped call s s' live live')
    (h' : Sound s' live') (hs : s.step call = some s') (ha : a ∈ live') (hsh : a.shape = .guarded) {x : Nat}
    (hx : GuardByte a.ptr a.size x) (hne : s'.mem x ≠ kGuardPattern) : a ∈ live ∧ s.mem x ≠ kGuardPattern := by
  rcases hst.fresh a ha with hin | ⟨hg, -⟩
  · refine ⟨hin, ?_⟩
    have hguard := h.memory.guard_inside hin hsh hx
    have hspan : a.raw.span.Has x := by
      unfold Raw.Block.user at hguard
      unfold Span.Has Raw.Block.span
      simp only
      omega
    rw [← hst.bytes a hin ha x hspan ?_]
    · exact hne
    · -- clients write their own bytes only
      rintro v rfl
      have hr := h.write_inside hs hin hspan
      unfold Span.Has Alloc.range at hr
      unfold GuardByte at hx
      simp only at hr
      omega
  · exact absurd ⟨x, hx, hne⟩ ((h'.memory.guarded_iff ha hsh).mp hg)

/-- A write out of bounds. -/
theorem Shaken.scribble (h : Shaken s live) {x : Nat} (he : e ∈ s.ledger) (hx : e.Loose x) (v : UInt8) :
    Shaken { s with impl := { s.impl with tiers := s.impl.tiers.setMem (Function.update s.mem x v) } } live := by
  obtain ⟨hal, hlo, hhi, hout⟩ := hx
  obtain ⟨a, ha, hptr, hsize, hres, hshape⟩ := h.alloc_of_entry he hal
  obtain ⟨hp, -⟩ := (h.memory.ok a ha).placed.guarded hshape
  have hin : a.raw.user ≤ x ∧ x < a.raw.user + a.raw.reserved ∧ ¬ (a.ptr - 16 ≤ x ∧ x < a.ptr) := by
    unfold Raw.Block.user
    omega
  have hl : Live (s.impl.tiers.setMem (Function.update s.mem x v)) live := by
    refine h.memory.scribble ha fun y hy => ?_
    by_cases hyx : y = x
    · rw [hyx]
      exact hin
    · exact absurd (Function.update_of_ne hyx _ _) hy
  refine ⟨h.toSound.frame hl rfl rfl rfl, h.guards, fun d hd hdal => ?_⟩
  obtain ⟨b, hb, hbptr, -, -, hbshape⟩ := h.alloc_of_entry hd hdal
  have hb' := (hl.ok b hb).header
  rw [← hbptr, h.memory.headerOf_ptr hb]
  exact (congrArg BlockHeader.tierValue hb').trans (by rw [b.header_tier, hbshape])

end Shims

section Abort
variable {s s' : ClientSys} {live : List Alloc} {a : Alloc}

/-- A report ends the process. -/
theorem report_aborts {i : AllocatorImpl} (hab : i.config.abortOnError = true) (err : Error) (p : Nat) :
    (i.report err p).aborted = true := by
  unfold AllocatorImpl.report
  rw [hab]
  exact Bool.or_true _

/-- Freeing what is tampered with ends the process. -/
theorem Live.freed_ends {i : AllocatorImpl} (h : Live i.tiers live) (ha : a ∈ live)
    (hcfg : i.config.enableGuardBytes = true) (hp : Passes i a.ptr) (hab : i.config.abortOnError = true)
    (hg : ¬ a.Guarded i.tiers.mem) (t : Nat) :
    i.deallocate t a.ptr = (.error .HeapCorruption, i.report .HeapCorruption a.ptr) := by
  have hs : a.shape = .guarded := by
    by_contra hne
    exact hg fun hs => absurd hs hne
  have ht : Tampered i.tiers.mem a.ptr a.size := by
    by_contra hno
    exact hg ((h.guarded_iff ha hs).mpr hno)
  exact deallocate_aborts h ha hs hcfg hp hab ht t

theorem Sound.deallocate_ends (h : Sound s live) (ha : a ∈ live) (hcfg : s.impl.config.enableGuardBytes = true)
    (hab : s.impl.config.abortOnError = true) (hg : ¬ a.Guarded s.mem) (t : Nat) :
    (s.deallocate t a.ptr).impl.aborted = true := by
  unfold ClientSys.deallocate
  rw [h.memory.freed_ends ha hcfg (h.passes ha) hab hg]
  exact report_aborts hab _ _

/-- So does resizing it. -/
theorem Sound.reallocate_ends (h : Sound s live) (ha : a ∈ live) (hcfg : s.impl.config.enableGuardBytes = true)
    (hab : s.impl.config.abortOnError = true) (hg : ¬ a.Guarded s.mem) (t n : Nat) :
    (s.reallocate t a.ptr n).impl.aborted = true := by
  have hb := h.memory.bounds ha
  have hpos := (h.memory.ok a ha).pos
  have h0 : a.ptr ≠ 0 := by omega
  by_cases hn : n = 0
  · rw [hn, reallocate_zero s t h0]
    exact h.deallocate_ends ha hcfg hab hg t
  have hout := Request.run_spec h.memory t (.allocate n)
  have hrun : (Request.allocate n).run s.impl t = s.impl.allocate t n := rfl
  have hone : (Request.allocate n).size = n := if_neg hn
  rw [hrun] at hout
  unfold ClientSys.reallocate AllocatorImpl.reallocate
  rw [if_neg h0, if_neg hn, allocationSize_spec h.memory ha (h.passes ha)]
  dsimp only
  rw [if_neg (by omega)]
  generalize s.impl.allocate t n = q at hout ⊢
  cases hout with
  | rejected hv => exact report_aborts hab _ _
  | refused hv hl hk href => exact report_aborts (i := { s.impl with tiers := _ }) hab .OutOfMemory 0
  | @served T' d hv hl hsize halign hres hk hpoison hguard hnew =>
    dsimp only
    have hin := List.mem_cons_of_mem d ha
    have hfit : ∀ x, ¬ d.range.Has x → copy T'.mem d.ptr a.ptr (min a.size n) x = T'.mem x := by
      intro x hx
      refine copy_of_not fun hx' => hx ?_
      unfold Span.Has Alloc.range
      simp only
      omega
    have hlf : Live (filled s.impl T' a d (min a.size n)).tiers (d :: live) := by
      rw [filled_tiers]
      exact hl.write List.mem_cons_self hfit
    -- the guards are still as they were when the old block is freed
    have hgf : ¬ a.Guarded (filled s.impl T' a d (min a.size n)).tiers.mem := by
      refine fun hgf => hg (hgf.congr (hl.ok a hin).placed (hl.fits hin) fun x hx _ => ?_)
      rw [filled_tiers, Tiers.setMem_mem, hfit x fun hxd => ?_]
      · exact (hk.bytes a.raw.span (mem_spans ha) x hx.1 hx.2).symm
      · rcases hl.eq_or_apart List.mem_cons_self hin with rfl | hap
        · exact (List.nodup_cons.mp hl.ptr_nodup).1 (List.mem_map_of_mem ha)
        · exact hap.not_has ((Alloc.range_inside hl List.mem_cons_self).has hxd) hx
    have hpass : Passes (filled s.impl T' a d (min a.size n)) a.ptr :=
      Passes.enroll (s := { s.impl with tiers := T' }) (h.passes ha) d.ptr d.size d.raw.reserved
    have hend := hlf.freed_ends hin (by rw [filled_config]; exact hcfg) hpass
      (by rw [filled_config]; exact hab) hgf t
    have hmove : AllocatorImpl.moveInto ({ s.impl with tiers := T' }.enroll d.ptr d.size d.raw.reserved) t
        a.ptr d.ptr (min a.size n) = (.error .HeapCorruption,
          (filled s.impl T' a d (min a.size n)).report .HeapCorruption a.ptr) := by
      unfold AllocatorImpl.moveInto
      have hf : AllocatorImpl.copied ({ s.impl with tiers := T' }.enroll d.ptr d.size d.raw.reserved) d.ptr
          a.ptr (min a.size n) = filled s.impl T' a d (min a.size n) := rfl
      rw [hf, hend]
    rw [hmove]
    exact report_aborts (by rw [filled_config]; exact hab) _ _

end Abort

section Runs
variable {s s' : ClientSys} {live live' : List Alloc}

/-- The event writes something else than the pattern at `x`. -/
def GuardEvent.Spoils (event : GuardEvent) (x : Nat) : Prop :=
  ∃ v, v ≠ kGuardPattern ∧ event = .scribble x v

/-- A guard byte that is off the pattern after the event was so before, or the event wrote it. -/
def Spoilt (event : GuardEvent) (s s' : ClientSys) (live live' : List Alloc) : Prop :=
  ∀ a ∈ live', a.shape = .guarded → ∀ x, GuardByte a.ptr a.size x → s'.mem x ≠ kGuardPattern →
    a ∈ live ∧ s.mem x ≠ kGuardPattern ∨ event.Spoils x

/-- **A step keeps the invariant, or ends the process.** -/
theorem guardStep_shaken (h : Shaken s live) {event : GuardEvent} (hs : s.guardStep event = some s') :
    s'.impl.aborted = true ∨ ∃ live', Shaken s' live' ∧ Spoilt event s s' live live' := by
  cases event with
  | scribble x v =>
    unfold ClientSys.guardStep at hs
    dsimp only at hs
    split at hs
    · rename_i hin
      obtain ⟨-, -, e, he, hx⟩ := hin
      cases hs
      refine Or.inr ⟨live, h.scribble he hx v, fun a ha _ y _ hne => ?_⟩
      change Function.update s.mem x v y ≠ kGuardPattern at hne
      by_cases hyx : y = x
      · rw [hyx, Function.update_self] at hne
        exact Or.inr ⟨v, hne, by rw [hyx]⟩
      · rw [Function.update_of_ne hyx] at hne
        exact Or.inl ⟨ha, hne⟩
    · cases hs
  | call c =>
    change s.step c = some s' at hs
    by_cases hl : ∀ p, ¬ c.Spares p → Lenient s live p
    · obtain ⟨live', h', hst⟩ := h.call hl hs
      exact Or.inr ⟨live', h', fun a ha hsh x hx hne =>
        Or.inl (h.toSound.guard_kept hst h'.toSound hs ha hsh hx hne)⟩
    · -- something tampered with is freed, and a report is the end
      left
      simp only [Classical.not_forall] at hl
      obtain ⟨p, hsp, hlen⟩ := hl
      unfold Lenient at hlen
      simp only [Classical.not_forall, not_or, Bool.not_eq_false] at hlen
      obtain ⟨a, ha, rfl, hab, hg⟩ := hlen
      unfold ClientSys.step at hs
      split at hs
      · cases hs
      cases c with
      | deallocate t q =>
        have hq : q = a.ptr := by simpa [ClientCall.Spares] using hsp
        dsimp only at hs
        split at hs
        · cases hs
          rw [hq]
          exact h.deallocate_ends ha h.guards hab hg t
        · cases hs
      | reallocate t q n =>
        have hq : q = a.ptr := by simpa [ClientCall.Spares] using hsp
        dsimp only at hs
        split at hs
        · cases hs
          rw [hq]
          exact h.reallocate_ends ha h.guards hab hg t n
        · cases hs
      | request t r => exact absurd trivial hsp
      | write x v => exact absurd trivial hsp
      | exit t => exact absurd trivial hsp

/-- No step follows the end. -/
theorem guardStep_running {event : GuardEvent} (hs : s.guardStep event = some s') : s.impl.aborted = false := by
  cases event with
  | scribble x v =>
    unfold ClientSys.guardStep at hs
    dsimp only at hs
    split at hs
    · rename_i hin
      exact hin.1
    · cases hs
  | call c =>
    change s.step c = some s' at hs
    unfold ClientSys.step at hs
    split at hs
    · cases hs
    · rename_i hgo
      exact Bool.eq_false_iff.mpr hgo

theorem guardStep_config {event : GuardEvent} (hs : s.guardStep event = some s') :
    s'.impl.config = s.impl.config := by
  cases event with
  | scribble x v =>
    unfold ClientSys.guardStep at hs
    dsimp only at hs
    split at hs
    · cases hs
      rfl
    · cases hs
  | call c => exact (config_stable s.impl.config).step rfl hs

/-- What the guards say of a run that has not ended: a byte off the pattern in front of or behind `p` was
    written by an event since `p` was not live. -/
def Blamed (cfg : AllocatorConfig) (p : Nat) (events : List GuardEvent) (s : ClientSys) : Prop :=
  s.impl.config = cfg ∧ (s.impl.aborted = true ∨ ∃ live, Shaken s live ∧
    ∀ a ∈ live, a.ptr = p → a.shape = .guarded → ∀ x, GuardByte a.ptr a.size x → s.mem x ≠ kGuardPattern →
      ∃ event ∈ events, event.Spoils x)

theorem blamed_step {cfg : AllocatorConfig} {p : Nat} {events : List GuardEvent} {event : GuardEvent}
    (hin : event ∈ events) (h : Blamed cfg p events s) (hs : s.guardStep event = some s') :
    Blamed cfg p events s' := by
  obtain ⟨hc, hend | ⟨live, h, hspoilt⟩⟩ := h
  · rw [guardStep_running hs] at hend
    cases hend
  · refine ⟨(guardStep_config hs).trans hc, (guardStep_shaken h hs).imp id ?_⟩
    rintro ⟨live', h', hstep⟩
    refine ⟨live', h', fun a ha hp hsh x hx hne => ?_⟩
    rcases hstep a ha hsh x hx hne with ⟨hold, hne'⟩ | hev
    · exact hspoilt a hold hp hsh x hx hne'
    · exact ⟨event, hin, hev⟩

/-- Nothing is blamed for a pointer that is not live yet. -/
theorem Blamed.restart {cfg : AllocatorConfig} {q p : Nat} {before : List GuardEvent} (h : Blamed cfg q before s)
    (hp : p ∉ s.pointers) (later : List GuardEvent) : Blamed cfg p later s := by
  refine ⟨h.1, h.2.imp id ?_⟩
  rintro ⟨live, hsh, -⟩
  refine ⟨live, hsh, fun a ha hap => absurd ?_ hp⟩
  rw [← hap]
  exact hsh.ptrs.mem_iff.mp (List.mem_map_of_mem ha)

theorem blamed_of_run {cfg : AllocatorConfig} (hcfg : cfg.enableGuardBytes = true) {m : Mem} {page : PageSize}
    {answers : List (Option Nat)} {faults : List Bool} {events : List GuardEvent} (p : Nat)
    (hrun : runFrom ClientSys.guardStep (ClientSys.start cfg (World.boot m page answers) faults) events = some s) :
    Blamed cfg p events s := by
  have hstart : Shaken (ClientSys.start cfg (World.boot m page answers) faults) [] :=
    ⟨(start_good cfg m page answers faults).toSound, hcfg, nofun⟩
  exact run_invariant_of (E := fun e => e ∈ events) (fun _ _ _ hin => blamed_step hin) (fun _ he => he)
    ⟨rfl, Or.inr ⟨[], hstart, nofun⟩⟩ hrun

end Runs

/-- **Guard bytes detect exactly the changes**, and only writes out of bounds change them: from any state in
    which `p` was not live yet. -/
theorem guards_of_run {cfg : AllocatorConfig} (hcfg : cfg.enableGuardBytes = true) {m : Mem} {page : PageSize}
    {answers : List (Option Nat)} {faults : List Bool} {events : List GuardEvent} {s : ClientSys}
    (hrun : runFrom ClientSys.guardStep (ClientSys.start cfg (World.boot m page answers) faults) events = some s)
    (hgo : s.impl.aborted = false) {e : Entry} (he : e ∈ s.ledger) (hal : e.align ≤ 16) (t : Nat) :
    (¬ Tampered s.mem e.ptr e.size → ∃ i, s.impl.deallocate t e.ptr = (.ok (), i) ∧
      i.reports = s.impl.reports) ∧
    (Tampered s.mem e.ptr e.size → cfg.abortOnError = false →
      ∃ i i', s.impl.deallocate t e.ptr = (.ok (), i) ∧
        AllocatorImpl.deallocate { s.impl with tiers := s.impl.tiers.setMem (mended s.mem e.ptr e.size) } t
          e.ptr = (.ok (), i') ∧
        i.reports = s.impl.reports ++ [(.HeapCorruption, e.ptr)] ∧ i'.reports = s.impl.reports ∧
        AsIf e.ptr e.size i i') ∧
    (Tampered s.mem e.ptr e.size → cfg.abortOnError = true →
      s.impl.deallocate t e.ptr = (.error .HeapCorruption, s.impl.report .HeapCorruption e.ptr)) ∧
    ∀ before later s₀, events = before ++ later →
      runFrom ClientSys.guardStep (ClientSys.start cfg (World.boot m page answers) faults) before = some s₀ →
      e.ptr ∉ s₀.pointers → ∀ x, GuardByte e.ptr e.size x → s.mem x ≠ kGuardPattern →
        ∃ v, v ≠ kGuardPattern ∧ GuardEvent.scribble x v ∈ later := by
  obtain ⟨hc, hend | ⟨live, h, -⟩⟩ := blamed_of_run hcfg e.ptr hrun
  · rw [hgo] at hend
    cases hend
  obtain ⟨a, ha, hptr, hsize, -, hshape⟩ := h.alloc_of_entry he hal
  have hp := h.passes ha
  rw [← hptr, ← hsize]
  refine ⟨fun hno => ?_, fun ht hab => ?_, fun ht hab => ?_, ?_⟩
  · have hg := (h.memory.guarded_iff ha hshape).mpr hno
    obtain ⟨T', hd, -⟩ := deallocate_spec h.memory ha hp hg t
    exact ⟨_, hd, discharge_reports _ _ _ _⟩
  · rw [← hc] at hcfg hab
    exact deallocate_tampered h.memory ha hshape hcfg hp hab ht t
  · rw [← hc] at hcfg hab
    exact deallocate_aborts h.memory ha hshape hcfg hp hab ht t
  · rintro before later s₀ rfl hbefore hout x hx hne
    obtain ⟨u, hu, hlater⟩ := run_append.mp hrun
    obtain rfl := Option.some.inj (hu.symm.trans hbefore)
    have hblamed := run_invariant_of (E := fun e => e ∈ later) (fun _ _ _ hin => blamed_step hin)
      (fun _ hin => hin) ((blamed_of_run hcfg a.ptr hbefore).restart hout later) hlater
    obtain ⟨-, hend | ⟨live', h', hspoilt⟩⟩ := hblamed
    · rw [hgo] at hend
      cases hend
    obtain ⟨b, hb, hbptr, hbsize, -, hbshape⟩ := h'.alloc_of_entry he hal
    rw [hptr, hsize, ← hbptr, ← hbsize] at hx
    obtain ⟨event, hin, v, hv, rfl⟩ := hspoilt b hb (hbptr.trans hptr.symm) hbshape x hx hne
    exact ⟨v, hv, hin⟩

/-- Two threads get memory, the byte behind one of the blocks is overwritten, and a thread exits. -/
def overrun : List GuardEvent :=
  [.call (.request 0 (.allocate 100)), .call (.request 1 (.alignedAllocate 64 100)), .scribble 68804 0,
    .call (.exit 1)]

theorem guards_of_run_overrun : ∃ s i i',
    runFrom ClientSys.guardStep (ClientSys.start { enableGuardBytes := true } smallWorld []) overrun = some s ∧
    s.impl.deallocate 1 68704 = (.ok (), i) ∧
    AllocatorImpl.deallocate { s.impl with tiers := s.impl.tiers.setMem (mended s.mem 68704 100) } 1 68704 =
      (.ok (), i') ∧
    i.reports = s.impl.reports ++ [(.HeapCorruption, 68704)] ∧ AsIf 68704 100 i i' := by
  have hrun : (runFrom ClientSys.guardStep (ClientSys.start { enableGuardBytes := true } smallWorld [])
      overrun).map (fun s => (s.impl.aborted, decide ((⟨68704, 100, 16, 192⟩ : Entry) ∈ s.ledger),
        s.mem 68804)) = some (false, true, 0) := by
    decide +kernel
  obtain ⟨s, hs, hv⟩ := Option.map_eq_some_iff.mp hrun
  obtain ⟨hgo, hv⟩ := Prod.mk.inj hv
  obtain ⟨he, hbyte⟩ := Prod.mk.inj hv
  have ht : Tampered s.mem 68704 100 := by
    refine ⟨68804, Or.inr (by decide), ?_⟩
    rw [hbyte]
    decide
  obtain ⟨i, i', hd, hd', hrep, -, has⟩ :=
    (guards_of_run rfl hs hgo (of_decide_eq_true he) (by decide) 1).2.1 ht rfl
  exact ⟨s, i, i', hs, hd, hd', hrep, has⟩

/-- With `abortOnError` the free is not a success: the process has ended. -/
theorem overrun_aborts : ∃ s,
    runFrom ClientSys.guardStep (ClientSys.start { enableGuardBytes := true, abortOnError := true } smallWorld [])
      overrun = some s ∧
    (⟨68704, 100, 16, 192⟩ : Entry) ∈ s.ledger ∧ s.mem 68804 ≠ kGuardPattern ∧
    (s.impl.deallocate 1 68704).1 = .error .HeapCorruption ∧ (s.impl.deallocate 1 68704).2.aborted = true := by
  have hrun : (runFrom ClientSys.guardStep
      (ClientSys.start { enableGuardBytes := true, abortOnError := true } smallWorld []) overrun).map
      (fun s => (decide ((⟨68704, 100, 16, 192⟩ : Entry) ∈ s.ledger ∧ s.mem 68804 ≠ kGuardPattern),
        (s.impl.deallocate 1 68704).1, (s.impl.deallocate 1 68704).2.aborted)) =
      some (true, .error .HeapCorruption, true) := by
    decide +kernel
  obtain ⟨s, hs, hv⟩ := Option.map_eq_some_iff.mp hrun
  obtain ⟨hin, hv⟩ := Prod.mk.inj hv
  obtain ⟨herr, hend⟩ := Prod.mk.inj hv
  obtain ⟨he, hbyte⟩ := of_decide_eq_true hin
  exact ⟨s, hs, he, hbyte, herr, hend⟩

end MAlloc.Client
