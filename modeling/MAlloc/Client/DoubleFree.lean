/-
  A second free right after the first.

  The bytes in front of a freed pointer say `kStateFreed`, unless something is written over them. In
  the small tier a link covers the first word of a block only. In the medium tier the `FreeNode`
  of the merged block covers the 16 bytes behind the raw header of its first block
  (`Heap.deallocate_remains`), and there an aligned shim stands whose pointer is 16 bytes behind the raw
  one: `Overlaid`. `double_free_iff`: the second free is told apart exactly when the pointer is not
  overlaid.
-/
import MAlloc.Client.Stale
import MAlloc.Heap.Remains

namespace MAlloc.Client

open Lib AllocatorImpl SizeClassTable

/-- The second `deallocate(p)` reports `DoubleFree`, once, and nothing else changes. Without `abortOnError` the
    call returns that error; with it the process ends right after the report, as it does on tampered guard
    bytes. -/
structure SaysDoubleFree (i : AllocatorImpl) (t p : Nat) : Prop where
  error : (i.deallocate t p).1 = .error .DoubleFree
  reports : (i.deallocate t p).2.reports = i.reports ++ [(.DoubleFree, p)]
  ends : (i.deallocate t p).2.aborted = (i.aborted || i.config.abortOnError)
  tiers : (i.deallocate t p).2.tiers = i.tiers
  stats : (i.deallocate t p).2.stats = i.stats
  registry : (i.deallocate t p).2.debug = i.debug

/-- The aligned shim in front of `p` stands where the node of its block will be, once the block is free:
    the pointer is 16 bytes behind the raw one, and the block has no free left neighbour. -/
structure Overlaid (m : Mem) (p : Nat) : Prop where
  shim : (BlockHeader.load m (p - 16)).tierValue = some .AlignedShim
  offset : (BlockHeader.load m (p - 16)).offset = 16
  medium : tierBehind m p = some .Medium
  first : Heap.leftFree m (SegmentHeap.blockOf (payloadBehind m p)) = false

section Header
variable {T : Tiers} {live : List Alloc} {a : Alloc} {cfg : AllocatorConfig} {m m' : Mem} {i : AllocatorImpl} {p : Nat}

/-- The header in front of the user pointer when the tier gets the block. -/
theorem given_header (cfg : AllocatorConfig) (h : a.Ok m) (hfit : a.raw.size ≤ a.raw.reserved) :
    (BlockHeader.load (given cfg m a) (a.ptr - 16)).hasValidTier = true ∧
      (BlockHeader.load (given cfg m a) (a.ptr - 16)).state = kStateFreed := by
  have hb := h.placed.bounds hfit
  have hlt : kStateFreed < 256 ^ 2 := by
    change 0xF4EE < 65536
    decide
  have htier : (BlockHeader.load (given cfg m a) (a.ptr - 16)).tier = (BlockHeader.load m (a.ptr - 16)).tier := by
    refine readLE_congr fun x h1 h2 => ?_
    unfold given unshimmed
    cases hsh : a.shape with
    | plain =>
      have hp := h.placed
      unfold Alloc.Placed Raw.Block.user at hp
      rw [hsh] at hp
      rw [BlockHeader.setState_of_not (by omega)]
      exact poisonedOld_of_not (by omega)
    | _ =>
      have hs := h.placed.shim (by rw [hsh]; simp)
      dsimp only
      rw [BlockHeader.setState_of_not (by omega), BlockHeader.setState_of_not (by omega)]
      exact poisonedOld_of_not (by omega)
  have hstate : readLE (given cfg m a) (a.ptr - 16 + 10) 2 = kStateFreed := by
    unfold given unshimmed
    cases hsh : a.shape with
    | plain =>
      have hp := h.placed
      unfold Alloc.Placed Raw.Block.user at hp
      rw [hsh] at hp
      rw [show a.ptr - 16 = a.raw.start by omega]
      exact readLE_writeLE_of_lt hlt
    | _ =>
      have hs := h.placed.shim (by rw [hsh]; simp)
      refine (readLE_writeLE_of_disjoint (by omega)).trans ?_
      exact readLE_writeLE_of_lt hlt
  refine ⟨?_, hstate⟩
  have hv := a.header_valid
  rw [← h.header] at hv
  unfold BlockHeader.hasValidTier at hv ⊢
  rw [htier]
  exact hv

/-- The answer to a header that says it is freed. -/
theorem saysDoubleFree_of_freed (t : Nat) (hoff : i.config.enableLeakTracking = false) (hp : 16 ≤ p)
    (hb : p < 2 ^ 64) (hv : (BlockHeader.load i.tiers.mem (p - 16)).hasValidTier = true)
    (hs : (BlockHeader.load i.tiers.mem (p - 16)).state = kStateFreed) : SaysDoubleFree i t p := by
  have he : i.deallocate t p = i.fail .DoubleFree p := by
    unfold AllocatorImpl.deallocate
    rw [if_neg (by omega), hoff, Bool.false_and, if_neg (by simp), headerOf_eq hp hb]
    unfold AllocatorImpl.deallocateBy
    rw [hv, hs, if_neg (by simp), if_pos rfl]
  rw [AllocatorImpl.fail] at he
  constructor <;> rw [he] <;> rfl

/-- The answer to bytes that are no header. -/
theorem not_saysDoubleFree (t : Nat) (hoff : i.config.enableLeakTracking = false) (hp : 16 ≤ p)
    (hb : p < 2 ^ 64) (hv : (BlockHeader.load i.tiers.mem (p - 16)).hasValidTier = false) :
    ¬ SaysDoubleFree i t p := by
  have he : i.deallocate t p = i.fail .InvalidPointer p := by
    unfold AllocatorImpl.deallocate
    rw [if_neg (by omega), hoff, Bool.false_and, if_neg (by simp), headerOf_eq hp hb]
    unfold AllocatorImpl.deallocateBy
    rw [if_pos (Or.inl hv)]
  intro h
  have herr := h.error
  rw [he] at herr
  cases herr

end Header

section Remains
variable {T : Tiers} {live : List Alloc} {a : Alloc} {cfg : AllocatorConfig}

/-- A small block keeps all but its first word. -/
theorem small_remains (cfg : AllocatorConfig) (h : Live T live) (ha : a ∈ live)
    (ht : a.raw.tier = .Small) (t : Nat) {x : Nat}
    (hlo : a.raw.start + 8 ≤ x) (hx : a.raw.span.Has x) :
    (release cfg T t a.ptr a.header).2.mem x = given cfg T.mem a x := by
  obtain ⟨parts, segs, hr⟩ := h.raw.tiers
  have hg := h.given_tiers ha cfg hr
  obtain ⟨hc, hcl⟩ := hg.client (Live.raw_mem ha) ht
  have hs := Small.blockStride_bounds _ hc
  have hres := ((hr.ok _ (Live.raw_mem ha)).small ht).2
  obtain ⟨T', parts', he, -, -, hfree⟩ := Raw.giveSmall_spec hg hc hcl cfg.enableThreadCache t
  rw [release_small h ha ht, he]
  refine hfree.links x fun p b hb hbx => ?_
  by_cases hbe : b = a.raw.start
  · omega
  · -- the other carved blocks do not meet this one
    have hcov := hg.small.pools.parts _ hc
    have hap := hg.small.pools.apart hc hc ((hcov.cover _).mpr ⟨_, hb⟩) ((hcov.cover _).mpr ⟨_, hcl⟩)
      fun e => hbe (congrArg Prod.snd e)
    unfold Span.Has Raw.Block.span at hx
    unfold Span.Disjoint at hap
    simp only at hx hap
    omega

/-- What stays of a medium block. -/
theorem medium_remains (h : Live T live) (ha : a ∈ live) (ht : a.raw.tier = .Medium) (t : Nat) {T' : Tiers}
    {res : Except Error Nat} (he : release cfg T t a.ptr a.header = (res, T')) {r : Span}
    (hr : r ∈ T'.segments.segments) (hp : r.Has a.ptr) :
    (∀ x, a.raw.span.Has x → Heap.leftFree T.mem (SegmentHeap.blockOf a.raw.start) = true ∨
        ¬ (a.raw.start + 16 ≤ x ∧ x < a.raw.start + 32) → T'.mem x = given cfg T.mem a x) ∧
    (Heap.leftFree T.mem (SegmentHeap.blockOf a.raw.start) = false →
      FreeNode.prev T'.mem (a.raw.start + 16) = 0 ∧ (T'.mem (a.raw.start + 24)).toNat % 16 = 0) := by
  obtain ⟨parts, segs, hraw⟩ := h.raw.tiers
  have hg := h.given_tiers ha cfg hraw
  have hused := hraw.used_span (Live.raw_mem ha) ht
  have hleft := Heap.leftFree_congr hg.heap hraw.heap hused
  have hin : a.raw.span.Has a.ptr := by
    have hb := h.bounds ha
    have hpos := (h.ok a ha).pos
    unfold Span.Has Raw.Block.span
    simp only
    omega
  cases hd : SegmentHeap.deallocate { T.world with mem := given cfg T.mem a } T.segments a.raw.start with
  | mk w' h' =>
    rw [release_medium h ha ht hd] at he
    obtain rfl : { T with world := w', segments := h' } = T' := (Prod.mk.inj he).2
    have hrem := Heap.deallocate_remains hg.heap hused hd hr hp hin
    rw [hleft] at hrem
    exact hrem

/-- Where an overlaid pointer stands in its block. -/
theorem Live.overlaid_iff (h : Live T live) (ha : a ∈ live) : Overlaid T.mem a.ptr ↔
    a.raw.tier = .Medium ∧ a.ptr = a.raw.start + 32 ∧
      Heap.leftFree T.mem (SegmentHeap.blockOf a.raw.start) = false := by
  obtain ⟨-, hpay, htier⟩ := h.behind ha
  have hok := h.ok a ha
  have hp := hok.placed
  constructor
  · rintro ⟨hshim, hoff, hmed, hfirst⟩
    rw [htier, Option.some.injEq] at hmed
    rw [hpay] at hfirst
    refine ⟨hmed, ?_, hfirst⟩
    rw [hok.header] at hshim hoff
    rw [a.header_tier] at hshim
    unfold Alloc.header at hoff
    unfold Alloc.Placed Raw.Block.user at hp
    cases hsh : a.shape with
    | plain =>
      rw [hsh] at hshim
      dsimp only at hshim
      rw [hmed] at hshim
      cases hshim
    | guarded =>
      rw [hsh] at hshim
      cases hshim
    | aligned A =>
      rw [hsh] at hoff hp
      change (a.ptr - (a.raw.start + 16)) % 2 ^ 32 = 16 at hoff
      dsimp only at hp
      omega
  · rintro ⟨hmed, hptr, hfirst⟩
    have hsh : ∃ A, a.shape = .aligned A := by
      unfold Alloc.Placed Raw.Block.user at hp
      cases hsh : a.shape with
      | plain =>
        rw [hsh] at hp
        dsimp only at hp
        omega
      | guarded =>
        rw [hsh] at hp
        dsimp only at hp
        omega
      | aligned A => exact ⟨A, rfl⟩
    obtain ⟨A, hsh⟩ := hsh
    refine ⟨?_, ?_, by rw [htier, hmed], by rw [hpay]; exact hfirst⟩
    · rw [hok.header, a.header_tier, hsh]
    · rw [hok.header]
      unfold Alloc.header
      rw [hsh, hptr]
      change (a.raw.start + 32 - (a.raw.start + 16)) % 2 ^ 32 = 16
      omega

end Remains

section Second
variable {s : ClientSys} {live : List Alloc} {a : Alloc} {i : AllocatorImpl} {t : Nat}

/-- The bytes behind the first word of the header decide. -/
theorem saysDoubleFree_of_same (h : Live s.impl.tiers live) (ha : a ∈ live)
    (hoff : i.config.enableLeakTracking = false)
    (hsame : SameOn (given s.impl.config s.mem a) i.tiers.mem (a.ptr - 8) 8) (t' : Nat) :
    SaysDoubleFree i t' a.ptr := by
  have hb := h.bounds ha
  obtain ⟨hv, hs⟩ := given_header s.impl.config (h.ok a ha) (h.fits ha)
  have htier : (BlockHeader.load i.tiers.mem (a.ptr - 16)).tier =
      (BlockHeader.load (given s.impl.config s.mem a) (a.ptr - 16)).tier :=
    readLE_congr (hsame.mono (by omega) (by omega))
  have hstate : (BlockHeader.load i.tiers.mem (a.ptr - 16)).state =
      (BlockHeader.load (given s.impl.config s.mem a) (a.ptr - 16)).state :=
    readLE_congr (hsame.mono (by omega) (by omega))
  refine saysDoubleFree_of_freed t' hoff (by omega) (by omega) ?_ (hstate.trans hs)
  unfold BlockHeader.hasValidTier at hv ⊢
  rw [htier]
  exact hv

/-- **The second free** of a small pointer, or of a medium one whose segment stays. -/
theorem Good.double_free (h : Good s live) (ha : a ∈ live)
    (hoff : s.impl.config.enableLeakTracking = false) (hfree : s.impl.deallocate t a.ptr = (.ok (), i))
    (hkept : a.raw.tier = .Small ∨ a.raw.tier = .Medium ∧ ∃ r ∈ i.tiers.segments.segments, r.Has a.ptr)
    (t' : Nat) : SaysDoubleFree i t' a.ptr ↔ ¬ Overlaid s.mem a.ptr := by
  have hb := h.memory.bounds ha
  have hpos := (h.memory.ok a ha).pos
  have hp16 := h.memory.ptr_mod_16 ha
  obtain ⟨parts, segs, hr⟩ := h.memory.raw.tiers
  have hs16 := hr.aligned (Live.raw_mem ha)
  have hin : ∀ x, a.ptr - 8 ≤ x → x < a.ptr - 8 + 8 → a.raw.span.Has x := by
    intro x h1 h2
    unfold Span.Has Raw.Block.span
    simp only
    omega
  obtain ⟨T', hrel, he, -⟩ := deallocate_checked h.memory ha (h.passes ha) (Or.inr (h.guards a ha)) t
  rw [hfree] at he
  have hi := (Prod.mk.inj he).2
  have htiers : i.tiers = T' := by
    rw [hi, discharge_tiers]
  have hcfg : i.config.enableLeakTracking = false := by
    rw [hi, discharge_config]
    exact (congrArg AllocatorConfig.enableLeakTracking (checked_frame s.impl a).1).trans hoff
  have hmem : i.tiers.mem = (release s.impl.config s.impl.tiers t a.ptr a.header).2.mem := by
    rw [htiers, hrel]
  rw [h.memory.overlaid_iff ha]
  rcases hkept with ht | ⟨ht, r, hr', hp⟩
  · -- a link covers the first word of the block only
    have hsays := saysDoubleFree_of_same h.memory ha hcfg (fun x h1 h2 => by
      rw [hmem]
      exact small_remains _ h.memory ha ht t (by omega) (hin x h1 h2)) t'
    refine iff_of_true hsays fun hov => ?_
    rw [ht] at hov
    cases hov.1
  · rw [htiers] at hr'
    obtain ⟨hkeep, hnode⟩ := medium_remains h.memory ha ht t hrel hr' hp
    constructor
    · rintro hsays ⟨-, hptr, hfirst⟩
      have hlow := (hnode hfirst).2
      refine not_saysDoubleFree t' hcfg (by omega) (by omega) ?_ hsays
      refine BlockHeader.hasValidTier_eq_false ?_
      rw [htiers, show a.ptr - 16 + 8 = a.raw.start + 24 by omega]
      exact hlow
    · intro hov
      refine saysDoubleFree_of_same h.memory ha hcfg (fun x h1 h2 => ?_) t'
      rw [htiers]
      refine hkeep x (hin x h1 h2) ?_
      by_cases hfirst : Heap.leftFree s.mem (SegmentHeap.blockOf a.raw.start) = true
      · exact Or.inl hfirst
      · right
        intro hx
        exact hov ⟨ht, by omega, by simpa using hfirst⟩

end Second

/-- **Double frees without leak tracking.** A live pointer is freed, its block small, or medium in a
    segment that stays; freed again right away it is a double free exactly when its header was not
    overlaid. -/
theorem double_free_iff {cfg : AllocatorConfig} {m : Mem} {page : PageSize} {answers : List (Option Nat)}
    {faults : List Bool} {calls : List ClientCall} {s : ClientSys} (hoff : cfg.enableLeakTracking = false)
    (hrun : runFrom ClientSys.step (ClientSys.start cfg (World.boot m page answers) faults) calls = some s)
    {p t : Nat} (hp : p ∈ s.pointers) {i : AllocatorImpl} (hfree : s.impl.deallocate t p = (.ok (), i))
    (hkept : tierBehind s.mem p = some .Small ∨
      tierBehind s.mem p = some .Medium ∧ ∃ r ∈ i.tiers.segments.segments, r.Has p) (t' : Nat) :
    SaysDoubleFree i t' p ↔ ¬ Overlaid s.mem p := by
  obtain ⟨live, h⟩ := good_of_run hrun
  obtain ⟨a, ha, rfl⟩ := h.alloc_of_ptr hp
  obtain ⟨-, -, htier⟩ := h.memory.behind ha
  refine h.double_free ha (by rw [config_of_run hrun]; exact hoff) hfree ?_ t'
  rw [htier, Option.some.injEq, Option.some.injEq] at hkept
  exact hkept

/-- An aligned pointer 16 bytes behind the raw one whose left neighbour has been freed: the blocks merge, and
    the shim stays readable. -/
theorem double_free_iff_merged : ∃ s i,
    runFrom ClientSys.step (ClientSys.start { enablePoisoning := true } roomyWorld [])
      [.request 0 (.allocate 100), .request 0 (.allocate 5000), .request 1 (.alignedAllocate 32 5000),
        .request 1 (.allocate 6000), .deallocate 1 16777248] = some s ∧
    (BlockHeader.load s.mem (16782304 - 16)).offset = 16 ∧ s.impl.deallocate 0 16782304 = (.ok (), i) ∧
    SaysDoubleFree i 1 16782304 := by
  have hrun : (runFrom ClientSys.step (ClientSys.start { enablePoisoning := true } roomyWorld [])
      [.request 0 (.allocate 100), .request 0 (.allocate 5000), .request 1 (.alignedAllocate 32 5000),
        .request 1 (.allocate 6000), .deallocate 1 16777248]).map
      (fun s => (decide (16782304 ∈ s.pointers ∧ tierBehind s.mem 16782304 = some .Medium ∧
          ∃ r ∈ (s.impl.deallocate 0 16782304).2.tiers.segments.segments, r.Has 16782304),
        (BlockHeader.load s.mem (16782304 - 16)).offset,
        Heap.leftFree s.mem (SegmentHeap.blockOf (payloadBehind s.mem 16782304)),
        (s.impl.deallocate 0 16782304).1)) = some (true, 16, true, .ok ()) := by
    decide +kernel
  obtain ⟨s, hs, hv⟩ := Option.map_eq_some_iff.mp hrun
  obtain ⟨hp, hv⟩ := Prod.mk.inj hv
  obtain ⟨hoffset, hv⟩ := Prod.mk.inj hv
  obtain ⟨hleft, hok⟩ := Prod.mk.inj hv
  obtain ⟨hin, htier, hseg⟩ := of_decide_eq_true hp
  have hfree : s.impl.deallocate 0 16782304 = (.ok (), (s.impl.deallocate 0 16782304).2) := Prod.ext hok rfl
  refine ⟨s, _, hs, hoffset, hfree, (double_free_iff rfl hs hin hfree (Or.inr ⟨htier, hseg⟩) 1).mpr ?_⟩
  intro hov
  have hfirst := hov.first
  rw [hleft] at hfirst
  cases hfirst

/-- An aligned pointer 16 bytes behind the raw one, behind a block in use: freed twice, it is called
    invalid. -/
theorem overlaid_freed_twice : ∃ s i, runFrom ClientSys.step (ClientSys.start {} smallWorld [])
      [.request 0 (.allocate 5000), .request 0 (.alignedAllocate 32 5000)] = some s ∧
    70624 ∈ s.pointers ∧ s.impl.deallocate 0 70624 = (.ok (), i) ∧
    tierBehind s.mem 70624 = some .Medium ∧ (∃ r ∈ i.tiers.segments.segments, r.Has 70624) ∧
    (i.deallocate 0 70624).1 = .error .InvalidPointer ∧ ¬ SaysDoubleFree i 0 70624 := by
  have hrun : (runFrom ClientSys.step (ClientSys.start {} smallWorld [])
      [.request 0 (.allocate 5000), .request 0 (.alignedAllocate 32 5000)]).map
      (fun s => (decide (70624 ∈ s.pointers ∧ tierBehind s.mem 70624 = some .Medium ∧
          ∃ r ∈ (s.impl.deallocate 0 70624).2.tiers.segments.segments, r.Has 70624),
        (s.impl.deallocate 0 70624).1, ((s.impl.deallocate 0 70624).2.deallocate 0 70624).1)) =
      some (true, .ok (), .error .InvalidPointer) := by
    decide +kernel
  obtain ⟨s, hs, hv⟩ := Option.map_eq_some_iff.mp hrun
  obtain ⟨hp, hv⟩ := Prod.mk.inj hv
  obtain ⟨hok, herr⟩ := Prod.mk.inj hv
  obtain ⟨hin, htier, hseg⟩ := of_decide_eq_true hp
  refine ⟨s, (s.impl.deallocate 0 70624).2, hs, hin, Prod.ext hok rfl, htier, hseg, herr, fun h => ?_⟩
  have hdf := h.error
  rw [herr] at hdf
  cases hdf

end MAlloc.Client
