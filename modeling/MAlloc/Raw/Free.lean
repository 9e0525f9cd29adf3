/-
  `rawDeallocate`, tier by tier, and the exit of a thread.

  The tier is read from the header. `rawDeallocate_spec`: a block that is out goes back to the tier
  that served it; the call answers with the `reserved` of the allocation, and every other block
  that is out keeps its bytes.
-/
import MAlloc.Raw.Alloc

namespace MAlloc.Raw

open Lib SystemMemory SizeClassTable PoolAllocator

section Erase
variable {T : Tiers} {raws : List Block} {parts : Small.Places} {segs : List Heap.Seg} {b : Block}

theorem ofTier_erase_self {tier : Tier} (hb : b ∈ raws) (ht : b.tier = tier) :
    (ofTier raws tier).Perm (b :: ofTier (raws.erase b) tier) := by
  refine ((List.perm_cons_erase hb).filter _).trans ?_
  rw [List.filter_cons_of_pos (by simpa using ht)]
  exact List.Perm.refl _

theorem ofTier_erase_other {tier : Tier} (hb : b ∈ raws) (ht : b.tier ≠ tier) :
    (ofTier raws tier).Perm (ofTier (raws.erase b) tier) := by
  refine ((List.perm_cons_erase hb).filter _).trans ?_
  rw [List.filter_cons_of_neg (by simpa using ht)]
  exact List.Perm.refl _

theorem ofClass_erase_self (hb : b ∈ raws) (ht : b.tier = .Small) :
    (ofClass raws (classIndex b.size)).Perm (b.start :: ofClass (raws.erase b) (classIndex b.size)) := by
  refine (((List.perm_cons_erase hb).filter _).map _).trans ?_
  rw [List.filter_cons_of_pos (by simpa using ht)]
  exact List.Perm.refl _

theorem ofClass_erase_other {c : Nat} (hb : b ∈ raws) (ht : ¬ (b.tier = .Small ∧ classIndex b.size = c)) :
    (ofClass raws c).Perm (ofClass (raws.erase b) c) := by
  refine (((List.perm_cons_erase hb).filter _).map _).trans ?_
  rw [List.filter_cons_of_neg (by simpa using ht)]
  exact List.Perm.refl _

/-- The other blocks do not meet the one that goes. -/
theorem RawTiers.erase_apart (h : RawTiers T raws parts segs) (hb : b ∈ raws) :
    ((raws.erase b).map Block.span).Pairwise Span.Disjoint ∧
      ∀ d ∈ raws.erase b, b.span.Disjoint d.span := by
  have hp := Span.pairwise_disjoint_perm ((List.perm_cons_erase hb).map Block.span) h.apart
  rw [List.map_cons, List.pairwise_cons] at hp
  exact ⟨hp.2, fun d hd => hp.1 _ (List.mem_map_of_mem hd)⟩

/-- A write inside a block keeps the others. -/
theorem RawTiers.keeps_write (h : RawTiers T raws parts segs) (hb : b ∈ raws) {m : Mem}
    (hm : ∀ x, ¬ b.span.Has x → m x = T.mem x) :
    T.world.Keeps (T.setMem m).world ((raws.erase b).map Block.span) [b.span] := by
  refine World.Keeps.of_write hm fun u hu => ?_
  obtain ⟨d, hd, rfl⟩ := List.mem_map.mp hu
  exact (h.erase_apart hb).2 d hd

/-- Marking a block freed stays inside its header. -/
theorem setState_outside (m : Mem) (b : Block) (v : Nat) :
    ∀ x, ¬ b.span.Has x → BlockHeader.setState m b.start v x = m x := fun x hx =>
  BlockHeader.setState_of_not fun hx' => hx (by unfold Span.Has Block.span; simp only; omega)

end Erase

/-- What giving back `b` does. -/
structure RawFreed (T : Tiers) (raws : List Block) (b : Block) (T' : Tiers) : Prop where
  ok : RawOk T' (raws.erase b)
  keeps : T.world.Keeps T'.world ((raws.erase b).map Block.span) [b.span]
  refusals : T'.world.refusals = T.world.refusals
  marked : b.tier ≠ .Large → Tame (BlockHeader.setState T.mem b.start kStateFreed) T'.mem
  gone : b.tier = .Large → ∀ r ∈ T'.world.mapped, r.Disjoint b.region

section Small
variable {T : Tiers} {raws : List Block} {parts : Small.Places} {segs : List Heap.Seg} {b : Block}

/-- A block of a class goes to the thread's cache or to the pools. -/
theorem giveSmall_spec (h : RawTiers T raws parts segs) {c a : Nat} (hc : c < 30)
    (ha : a ∈ parts c .client) (enabled : Bool) (t : Nat) :
    ∃ T' parts', T.giveSmall enabled t c a = T' ∧ T'.segments = T.segments ∧ T'.large = T.large ∧
      Small.SmallFree T.world parts (T.segments.segments ++ T.large.held) c a T'.world T'.pools
        (caches T') parts' := by
  obtain ⟨o, T1, he, hw, hp, hseg, hlarge, hcaches, hslot⟩ := threadCache_spec T enabled t
  unfold Tiers.giveSmall
  rw [he]
  cases o with
  | some cache =>
    obtain ⟨k, w', pools', parts', hf, hout⟩ := Small.freeBlock_spec h.small hc t ha
    dsimp only
    rw [hslot cache rfl, hw, hp, hf]
    refine ⟨_, parts', rfl, hseg, hlarge, ?_⟩
    have := caches_update T1 t (Function.update (caches T t) c k) w' pools'
    rw [hcaches] at this
    dsimp only
    rw [this]
    exact hout
  | none =>
    obtain ⟨w', pools', parts', hf, hout⟩ := Small.poolFreeBlock_spec h.small hc ha
    dsimp only
    rw [hw, hp, hf]
    refine ⟨_, parts', rfl, hseg, hlarge, ?_⟩
    change Small.SmallFree _ _ _ _ _ _ _ (caches T1) _
    rw [hcaches]
    exact hout

theorem rawDeallocateSmall_spec (h : RawOk T raws) (hb : b ∈ raws) (ht : b.tier = .Small)
    (enabled : Bool) (t : Nat) :
    ∃ T', T.rawDeallocateSmall enabled t b.start (classIndex b.size) = (.ok b.reserved, T') ∧
      RawFreed T raws b T' := by
  obtain ⟨parts, segs, hr⟩ := h.tiers
  have hm := setState_outside T.mem b kStateFreed
  have h1 := hr.write hb hm
  have hk1 := hr.keeps_write hb hm
  obtain ⟨hc, hcl⟩ := hr.client hb ht
  obtain ⟨T', parts', he, hseg, hlarge, hfree⟩ := giveSmall_spec h1 hc hcl enabled t
  have hnow : ∀ d ∈ raws.erase b, d.tier = .Small → d.start ∈ parts' (classIndex d.size) .client := by
    intro d hd hdt
    by_cases hdc : classIndex d.size = classIndex b.size
    · have hmem : d.start ∈ ofClass (raws.erase b) (classIndex b.size) := mem_ofClass hd hdt hdc
      have hperm := ((hr.smalls _ hc).trans (ofClass_erase_self hb ht)).erase b.start
      rw [List.erase_cons_head] at hperm
      rw [hdc]
      exact hfree.clients.here.mem_iff.mpr (hperm.mem_iff.mpr hmem)
    · rw [hfree.clients.other _ hdc]
      exact (hr.client (List.mem_of_mem_erase hd) hdt).2
  have hk2 := h1.keeps_small (fun _ => List.mem_of_mem_erase) hnow hfree.keeps
  have hk : T.world.Keeps T'.world ((raws.erase b).map Block.span) [b.span] := hk1.trans hk2.calm
  refine ⟨T', ?_, ⟨⟨parts', segs, ?_⟩, ?_⟩, hk, ?_, fun _ => hfree.keeps.tame, fun e => ?_⟩
  · unfold Tiers.rawDeallocateSmall
    dsimp only
    rw [he, ((hr.ok b hb).small ht).2]
  · refine ⟨by rw [hseg, hlarge]; exact hfree.ok, by rw [hseg, hlarge]; exact h1.heap_small hfree.ok hfree.keeps,
      hr.retained, by rw [hlarge]; exact hr.keys, fun d hd => ?_, ?_, ?_,
      fun d hd => hr.ok d (List.mem_of_mem_erase hd), (hr.erase_apart hb).1⟩
    · by_cases hdc : d = classIndex b.size
      · subst hdc
        have hperm := ((hr.smalls _ hc).trans (ofClass_erase_self hb ht)).erase b.start
        rw [List.erase_cons_head] at hperm
        exact hfree.clients.here.trans hperm
      · rw [hfree.clients.other d hdc]
        exact (hr.smalls d hd).trans (ofClass_erase_other hb fun e => hdc e.2.symm)
    · exact hr.mediums.trans ((ofTier_erase_other hb (by rw [ht]; simp)).map _)
    · rw [hlarge]
      exact hr.larges.trans ((ofTier_erase_other hb (by rw [ht]; simp)).map _)
  · refine headers_kept (T := T) hk fun d hd => h.header d (List.mem_of_mem_erase hd)
  · exact hfree.refusals
  · rw [ht] at e
    cases e

end Small

section Medium
variable {T : Tiers} {raws : List Block} {b : Block}

theorem rawDeallocateMedium_spec (h : RawOk T raws) (hb : b ∈ raws) (ht : b.tier = .Medium) :
    ∃ T', T.rawDeallocateMedium b.start = (.ok b.reserved, T') ∧ RawFreed T raws b T' := by
  obtain ⟨parts, segs, hr⟩ := h.tiers
  have hm := setState_outside T.mem b kStateFreed
  have h1 := hr.write hb hm
  have hk1 := hr.keeps_write hb hm
  obtain ⟨w', h', segs', he, hok, hused, hkeep, hret, -, hrf⟩ :=
    Heap.deallocate_spec h1.heap h1.retained (h1.used_span hb ht)
  have hperm : (Heap.used segs').Perm ((ofTier (raws.erase b) .Medium).map Block.span) :=
    (hused.symm.trans (hr.mediums.trans ((ofTier_erase_self hb ht).map _))).cons_inv
  have hk2 := h1.keeps_heap (fun _ => List.mem_of_mem_erase)
    (fun d hd hdt => hperm.mem_iff.mpr (List.mem_map_of_mem (mem_ofTier.mpr ⟨hd, hdt⟩))) hkeep
  have hk := hk1.trans hk2.calm
  refine ⟨{ T with world := w', segments := h' }, ?_, ⟨⟨parts, segs', ?_⟩, ?_⟩, hk, hrf,
    fun _ x hx => hkeep.tame x hx (by simp), fun e => ?_⟩
  · unfold Tiers.rawDeallocateMedium
    dsimp only
    rw [h1.reservedMedium hb ht]
    rw [show SegmentHeap.deallocate (T.setMem (BlockHeader.setState T.mem b.start kStateFreed)).world
      (T.setMem (BlockHeader.setState T.mem b.start kStateFreed)).segments b.start = (w', h') from he]
    rfl
  · refine ⟨h1.small_heap hok fun r hr => hkeep.bytes r (List.mem_append_right _
        (List.mem_append_left _ hr)), hok, hret, hr.keys, fun c hc => ?_, hperm, ?_,
      fun d hd => hr.ok d (List.mem_of_mem_erase hd), (hr.erase_apart hb).1⟩
    · exact (hr.smalls c hc).trans (ofClass_erase_other hb fun e => by rw [ht] at e; cases e.1)
    · exact hr.larges.trans ((ofTier_erase_other hb (by rw [ht]; simp)).map _)
  · exact headers_kept (T := T) hk fun d hd => h.header d (List.mem_of_mem_erase hd)
  · rw [ht] at e
    cases e

end Medium

section Large
variable {T : Tiers} {raws : List Block} {parts : Small.Places} {segs : List Heap.Seg} {b : Block}

/-- `regions_.erase` takes out the one entry of the key. -/
theorem RawTiers.filter_key (h : RawTiers T raws parts segs) (hb : b ∈ raws) (ht : b.tier = .Large) :
    T.large.Perm ((b.start, b.region) :: T.large.filter fun e => decide (e.1 ≠ b.start)) := by
  have hheld : T.large.held.Nodup := by
    have hp := Span.pairwise_disjoint_perm h.mapped h.world.apart
    have hpl := (List.pairwise_append.mp (List.pairwise_append.mp hp).2.1).2.1
    exact Span.nodup_of_pairwise hpl fun r hr => (h.world.pos r (h.zone_mapped (t := .Large) hr)).2
  have hnd : T.large.Nodup := List.Nodup.of_map _ hheld
  have hlook := h.lookup_region hb ht
  obtain ⟨l₁, l₂, hsplit, hl₁⟩ := List.lookup_eq_some_iff.mp hlook
  have hmem : (b.start, b.region) ∈ T.large := by
    rw [hsplit]
    simp
  have hone : ∀ e ∈ T.large, e.1 = b.start → e = (b.start, b.region) := by
    intro e he hkey
    have hk1 := h.keys e he
    have hk2 : b.start = b.region.data + 16 := h.keys _ hmem
    have hm1 := h.zone_mapped (t := .Large) (List.mem_map.mpr ⟨e, he, rfl⟩)
    have hm2 := h.zone_mapped (t := .Large) (List.mem_map.mpr ⟨_, hmem, rfl⟩)
    have hp1 := h.world.pos _ hm1
    have hp2 := h.world.pos _ hm2
    refine Prod.ext hkey (Span.eq_of_has h.world.apart hm1 hm2 (x := e.2.data) ⟨Nat.le_refl _, by omega⟩
      ⟨?_, ?_⟩)
    · simp only
      omega
    · simp only at hp2 ⊢
      omega
  refine (List.perm_cons_erase hmem).trans (List.Perm.cons _ (List.Perm.of_eq ?_))
  rw [hnd.erase_eq_filter]
  refine List.filter_congr fun e he => ?_
  by_cases hkey : e.1 = b.start
  · rw [hone e he hkey]
    simp
  · have hne : e ≠ (b.start, b.region) := fun h0 => hkey (by rw [h0])
    simp [hkey, hne]

theorem rawDeallocateLarge_spec (h : RawOk T raws) (hb : b ∈ raws) (ht : b.tier = .Large) :
    ∃ T', T.rawDeallocateLarge b.start = (.ok b.reserved, T') ∧ RawFreed T raws b T' := by
  obtain ⟨parts, segs, hr⟩ := h.tiers
  have hkey := hr.filter_key hb ht
  have hheld := hkey.map Prod.snd
  rw [List.map_cons] at hheld
  have hin : b.region ∈ T.world.mapped :=
    hr.zone_mapped (t := .Large) (hheld.mem_iff.mpr (List.mem_cons_self ..))
  have hmap : (SystemMemory.unmap T.world b.region).mapped.Perm (Small.allRuns T.pools ++
      (T.segments.segments ++ (T.large.filter fun e => decide (e.1 ≠ b.start)).map Prod.snd)) := by
    have hp := hr.mapped.trans (((hheld.append_left T.segments.segments).append_left
      (Small.allRuns T.pools)))
    have hp' : T.world.mapped.Perm (b.region :: (Small.allRuns T.pools ++
        (T.segments.segments ++ (T.large.filter fun e => decide (e.1 ≠ b.start)).map Prod.snd))) := by
      refine hp.trans ?_
      rw [← List.append_assoc, ← List.append_assoc]
      exact List.perm_middle
    have := hp'.erase b.region
    rwa [List.erase_cons_head] at this
  have hmap' : (SystemMemory.unmap T.world b.region).mapped.Perm (T.segments.segments ++
      (Small.allRuns T.pools ++ (T.large.filter fun e => decide (e.1 ≠ b.start)).map Prod.snd)) := by
    refine hmap.trans ?_
    rw [← List.append_assoc, ← List.append_assoc]
    exact List.perm_append_comm.append_right _
  have hw : (SystemMemory.unmap T.world b.region).Ok := unmap_ok hr.world hin
  refine ⟨{ T with
      world := SystemMemory.unmap T.world b.region
      large := T.large.filter fun e => decide (e.1 ≠ b.start) }, ?_, ⟨⟨parts, segs, ?_⟩, ?_⟩, ?_, rfl,
    fun hne => absurd ht hne, fun _ r hr' => ?_⟩
  · unfold Tiers.rawDeallocateLarge LargeAllocator.deallocate
    rw [hr.lookup_region hb ht, hr.reservedLarge hb ht]
    rfl
  · refine ⟨SmallOk.frame hr.small hw hmap fun _ _ => SameOn.refl _ _ _,
      HeapOk.frame hr.heap hw hmap' rfl fun _ _ => SameOn.refl _ _ _, hr.retained,
      fun e he => hr.keys e (List.mem_of_mem_filter he), fun c hc => ?_, ?_, ?_,
      fun d hd => hr.ok d (List.mem_of_mem_erase hd), (hr.erase_apart hb).1⟩
    · exact (hr.smalls c hc).trans (ofClass_erase_other hb fun e => by rw [ht] at e; cases e.1)
    · exact hr.mediums.trans ((ofTier_erase_other hb (by rw [ht]; simp)).map _)
    · exact (hheld.symm.trans (hr.larges.trans ((ofTier_erase_self hb ht).map _))).cons_inv
  · exact fun d hd => h.header d (List.mem_of_mem_erase hd)
  · exact ⟨rfl, Nat.le_refl _, fun _ _ => SameOn.refl _ _ _, fun x hx _ => Tame.refl _ x hx⟩
  · have hp := Span.pairwise_disjoint_perm (List.perm_cons_erase hin) hr.world.apart
    exact ((List.pairwise_cons.mp hp).1 r hr').symm

end Large

/-- **`rawDeallocate`** of a block that is out. -/
theorem rawDeallocate_spec {T : Tiers} {raws : List Block} (h : RawOk T raws) {b : Block}
    (hb : b ∈ raws) (enabled : Bool) (t : Nat) :
    ∃ T', T.rawDeallocate enabled t b.user = (.ok b.reserved, T') ∧ RawFreed T raws b T' := by
  obtain ⟨parts, segs, hr⟩ := h.tiers
  have hbd := hr.span_bound hb
  have hstart : headerOf b.user = b.start :=
    (headerOf_eq (show 16 ≤ b.start + 16 by omega) (show b.start + 16 < 2 ^ 64 by omega)).trans
      (Nat.add_sub_cancel _ _)
  have htv : (rawHeader b.size b.tier).tierValue = some b.tier := BlockHeader.tierValue_of_code rfl
  unfold Tiers.rawDeallocate
  rw [hstart, h.header b hb]
  unfold Tiers.rawDeallocateBy
  rw [htv, hstart]
  rcases (hr.ok b hb).tiers with ht | ht | ht
  · rw [ht]
    exact rawDeallocateSmall_spec h hb ht enabled t
  · rw [ht]
    exact rawDeallocateMedium_spec h hb ht
  · rw [ht]
    exact rawDeallocateLarge_spec h hb ht

/-- **A thread exits**: its cached blocks are free again, what is out stays. -/
theorem exit_spec {T : Tiers} {raws : List Block} (h : RawOk T raws) (t : Nat) :
    RawOk (T.exit t) raws ∧ T.world.Keeps (T.exit t).world (raws.map Block.span) ∧
      (T.exit t).world.refusals = T.world.refusals := by
  obtain ⟨parts, segs, hr⟩ := h.tiers
  unfold Tiers.exit
  cases hs : T.tlsCaches t with
  | none => exact ⟨h, World.Keeps.refl _ _, rfl⟩
  | some cache =>
    have hslot : caches T t = cache := by
      unfold caches
      rw [hs]
      rfl
    obtain ⟨w', pools', parts', he, hok, hpl, hk, hrf, -⟩ := Small.flush_spec hr.small t
    rw [hslot] at he
    dsimp only
    rw [he]
    have hcl : ∀ c, parts' c .client = parts c .client := fun c => hpl c .client (by simp) (by simp)
    have hcache : caches { T with
        world := w', pools := pools', tlsCaches := Function.update T.tlsCaches t none } =
        Function.update (caches T) t ThreadCache.empty := by
      funext u
      unfold caches
      by_cases hu : u = t
      · subst hu
        simp
      · simp [Function.update_of_ne hu]
    have hkeep := hr.keeps_small (fun _ hb => hb) (fun b hb hbt => (hr.client hb hbt).2) hk
    refine ⟨⟨⟨parts', segs, ?_⟩, headers_kept hkeep h.header⟩, hkeep, hrf⟩
    refine ⟨by rw [hcache]; exact hok, hr.heap_small hok hk, hr.retained, hr.keys, fun c hc => ?_,
      hr.mediums, hr.larges, hr.ok, hr.apart⟩
    rw [hcl]
    exact hr.smalls c hc

end MAlloc.Raw
