/-
  `rawAllocate`, tier by tier.

  Each tier adds one block to those that are out: a carved block of a class, the payload of a
  medium block, or a region. The other tiers see it as a change of the world around them
  (`SmallOk.frame`, `HeapOk.frame`). `finishRaw_spec` then writes the header. The result is
  `rawAllocate_spec`: a block more, or out of memory after a refusal of the OS; either way every
  block that was out keeps its bytes.
-/
import MAlloc.Raw.State

namespace MAlloc.Raw

open Lib SystemMemory SizeClassTable PoolAllocator

/-- What a request for `size` bytes may end in. -/
inductive RawOutcome (T : Tiers) (raws : List Block) (size : Nat) :
    Except Error RawAllocation × Tiers → Prop
  | served {T' b} : RawOk T' (b :: raws) → b.size = size →
      T.world.Keeps T'.world (raws.map Block.span) [b.span] → b.New T →
      RawOutcome T raws size (.ok ⟨b.user, b.reserved⟩, T')
  | refused {T'} : RawOk T' raws → T.world.Keeps T'.world (raws.map Block.span) →
      T.world.refusals < T'.world.refusals → RawOutcome T raws size (.error .OutOfMemory, T')

section Header
variable {T : Tiers} {raws : List Block} {parts : Small.Places} {segs : List Heap.Seg}

theorem Tier.code_lt (tier : Tier) : tier.code < 2 ^ 16 := by
  cases tier <;> decide

/-- The header of the block that has just come. -/
theorem finishRaw_spec {b : Block} (h : RawTiers T (b :: raws) parts segs)
    (hhead : ∀ d ∈ raws, BlockHeader.load T.mem d.start = rawHeader d.size d.tier)
    {f : Tiers → Nat → Nat}
    (hres : ∀ m', RawTiers (T.setMem m') (b :: raws) parts segs →
      f (T.setMem m') b.start = b.reserved) :
    ∃ T', T.finishRaw b.size b.tier f (some b.start) = (.ok ⟨b.user, b.reserved⟩, T') ∧
      RawOk T' (b :: raws) ∧ T.world.Keeps T'.world (raws.map Block.span) [b.span] := by
  have hb := h.span_bound List.mem_cons_self
  have hfit := (h.ok b List.mem_cons_self).fits
  have hstart : headerOf (userPointerOf b.start) = b.start :=
    (headerOf_eq (show 16 ≤ b.start + 16 by omega) (show b.start + 16 < 2 ^ 64 by omega)).trans
      (Nat.add_sub_cancel _ _)
  have hap : ∀ d ∈ raws, b.span.Disjoint d.span := fun d hd =>
    (List.pairwise_cons.mp (List.map_cons .. ▸ h.apart)).1 _ (List.mem_map_of_mem hd)
  have hm : ∀ x, ¬ (b.start ≤ x ∧ x < b.start + 16) →
      BlockHeader.store T.mem b.start (rawHeader b.size b.tier) x = T.mem x := fun x hx =>
    BlockHeader.store_of_not hx
  have hm' : ∀ x, ¬ b.span.Has x →
      BlockHeader.store T.mem b.start (rawHeader b.size b.tier) x = T.mem x := fun x hx =>
    hm x fun hx' => hx (by unfold Span.Has Block.span; simp only; omega)
  have hw := h.write List.mem_cons_self hm'
  have hkeep : ∀ d ∈ raws, SameOn T.mem
      (BlockHeader.store T.mem b.start (rawHeader b.size b.tier)) d.span.data d.span.size := by
    intro d hd x h1 h2
    refine hm x fun hx => (hap d hd).not_has (x := x) ?_ ⟨h1, h2⟩
    unfold Span.Has Block.span
    simp only
    omega
  refine ⟨T.setMem (BlockHeader.store T.mem b.start (rawHeader b.size b.tier)), ?_,
    ⟨⟨parts, segs, hw⟩, fun d hd => ?_⟩, World.Keeps.of_write hm' fun u hu => ?_⟩
  · unfold Tiers.finishRaw
    dsimp only
    rw [hstart, hres _ hw]
    rfl
  · rcases List.mem_cons.mp hd with rfl | hd
    · exact BlockHeader.load_store ⟨show d.size < 2 ^ 64 by omega, Tier.code_lt d.tier,
        (by decide : 0xA11C < 2 ^ 16), (by decide : 0 < 2 ^ 32)⟩
    · exact (BlockHeader.load_congr ((hkeep d hd).mono (Nat.le_refl _)
        (by unfold Block.span; simp only; omega))).trans (hhead d hd)
  · obtain ⟨d, hd, rfl⟩ := List.mem_map.mp hu
    exact hap d hd

/-- Headers lie inside the extents. -/
theorem headers_kept {w : World} {busy : List Span} (hk : T.world.Keeps w (raws.map Block.span) busy)
    (hhead : ∀ d ∈ raws, BlockHeader.load T.mem d.start = rawHeader d.size d.tier) :
    ∀ d ∈ raws, BlockHeader.load w.mem d.start = rawHeader d.size d.tier := fun d hd =>
  (BlockHeader.load_congr ((hk.bytes d.span (List.mem_map_of_mem hd)).mono (Nat.le_refl _)
    (by unfold Block.span; simp only; omega))).trans (hhead d hd)

end Header

/-! ## Small -/

section Small
variable {T : Tiers} {raws : List Block} {parts : Small.Places} {segs : List Heap.Seg}

theorem caches_update (T : Tiers) (t : Nat) (k : ThreadCache) (w : World) (pools : PoolAllocator) :
    caches { T with
      world := w, pools := pools, tlsCaches := Function.update T.tlsCaches t (some k) } =
      Function.update (caches T) t k := by
  funext u
  unfold caches
  by_cases hu : u = t
  · subst hu
    simp
  · simp [Function.update_of_ne hu]

/-- `threadCache()` changes no cache: a slot made new is empty. -/
theorem threadCache_spec (T : Tiers) (enabled : Bool) (t : Nat) :
    ∃ o T', T.threadCache enabled t = (o, T') ∧ T'.world = T.world ∧ T'.pools = T.pools ∧
      T'.segments = T.segments ∧ T'.large = T.large ∧ caches T' = caches T ∧
      ∀ cache ∈ o, cache = caches T t := by
  unfold Tiers.threadCache
  by_cases he : enabled = true
  · rw [if_pos he]
    cases hs : T.tlsCaches t with
    | some cache =>
      refine ⟨_, _, rfl, rfl, rfl, rfl, rfl, rfl, fun k hk => ?_⟩
      unfold caches
      rw [hs]
      exact (Option.mem_some.mp hk).symm
    | none =>
      dsimp only
      by_cases hf : T.cacheFaults.headD false = true
      · rw [if_pos hf]
        exact ⟨_, _, rfl, rfl, rfl, rfl, rfl, rfl, fun k hk => by cases hk⟩
      · rw [if_neg hf]
        refine ⟨_, _, rfl, rfl, rfl, rfl, rfl, ?_, fun k hk => ?_⟩
        · funext u
          unfold caches
          by_cases hu : u = t
          · subst hu
            simp [hs]
          · simp [Function.update_of_ne hu]
        · unfold caches
          rw [hs]
          exact (Option.mem_some.mp hk).symm
  · rw [if_neg he]
    exact ⟨_, _, rfl, rfl, rfl, rfl, rfl, rfl, fun k hk => by cases hk⟩

/-- A block of a class comes from the thread's cache or from the pools. -/
theorem takeSmall_spec (h : RawTiers T raws parts segs) {c : Nat} (hc : c < 30) (enabled : Bool)
    (t : Nat) : ∃ o T', T.takeSmall enabled t c = (o, T') ∧ T'.segments = T.segments ∧
      T'.large = T.large ∧ Small.SmallAlloc T.world parts (T.segments.segments ++ T.large.held) c
        T'.world T'.pools (caches T') o := by
  obtain ⟨o, T1, he, hw, hp, hseg, hlarge, hcaches, hslot⟩ := threadCache_spec T enabled t
  unfold Tiers.takeSmall
  rw [he]
  cases o with
  | some cache =>
    obtain ⟨o, k, w', pools', ha, hout⟩ := Small.allocateBlock_spec h.small hc t
    dsimp only
    rw [hslot cache rfl, hw, hp, ha]
    refine ⟨o, _, rfl, hseg, hlarge, ?_⟩
    have := caches_update T1 t (Function.update (caches T t) c k) w' pools'
    rw [hcaches] at this
    dsimp only
    rw [this]
    exact hout
  | none =>
    obtain ⟨o, w', pools', ha, hout⟩ := Small.poolAllocateBlock_spec h.small hc
    dsimp only
    rw [hw, hp, ha]
    refine ⟨o, _, rfl, hseg, hlarge, ?_⟩
    change Small.SmallAlloc _ _ _ _ _ _ (caches T1) _
    rw [hcaches]
    exact hout

/-- What a change of the small tier keeps, the blocks of all tiers keep. -/
theorem RawTiers.keeps_small (h : RawTiers T raws parts segs) {w' : World} {raws' : List Block}
    {parts' : Small.Places} (hsub : ∀ b ∈ raws', b ∈ raws)
    (hcl : ∀ b ∈ raws', b.tier = .Small → b.start ∈ parts' (classIndex b.size) .client)
    (hk : Small.SmallKeeps T.world w' parts' (T.segments.segments ++ T.large.held)) :
    T.world.Keeps w' (raws'.map Block.span) := by
  refine ⟨hk.page, hk.refusals, fun u hu => ?_, fun x hx _ => hk.tame x hx⟩
  obtain ⟨b, hb, rfl⟩ := List.mem_map.mp hu
  have hok := h.ok b (hsub b hb)
  obtain ⟨r, hr, hi⟩ := h.home (hsub b hb)
  rcases hok.tiers with ht | ht | ht
  · have hc := (h.client (hsub b hb) ht).1
    have hs := Small.blockStride_bounds _ hc
    have := (hok.small ht).2
    refine (hk.blocks _ hc b.start (hcl b hb ht)).mono (Nat.le_refl _) ?_
    unfold Block.span
    simp only
    omega
  · rw [ht] at hr
    exact (hk.outside r (List.mem_append_left _ hr)).mono hi.1 hi.2
  · rw [ht] at hr
    exact (hk.outside r (List.mem_append_right _ hr)).mono hi.1 hi.2

/-- A block outside the small tier lies in the other tiers' regions. -/
theorem RawTiers.home_others (h : RawTiers T raws parts segs) {b : Block} (hb : b ∈ raws)
    (ht : b.tier ≠ .Small) : ∃ r ∈ T.segments.segments ++ T.large.held, b.span.Inside r := by
  obtain ⟨r, hr, hi⟩ := h.home hb
  refine ⟨r, ?_, hi⟩
  rcases (h.ok b hb).tiers with h' | h' | h'
  · exact absurd h' ht
  · rw [h'] at hr
    exact List.mem_append_left _ hr
  · rw [h'] at hr
    exact List.mem_append_right _ hr

/-- The other tiers around a small tier that has changed. -/
theorem RawTiers.heap_small (h : RawTiers T raws parts segs) {w' : World} {pools' : PoolAllocator}
    {k : Small.Caches} {parts' : Small.Places}
    (hok : Small.SmallOk w' pools' k parts' (T.segments.segments ++ T.large.held)) {parts₁ : Small.Places}
    (hk : Small.SmallKeeps T.world w' parts₁ (T.segments.segments ++ T.large.held)) :
    Heap.HeapOk w' T.segments segs (Small.allRuns pools' ++ T.large.held) := by
  refine HeapOk.frame h.heap hok.pools.world (hok.pools.mapped.trans ?_) hk.page fun r hr =>
    hk.outside r (List.mem_append_left _ hr)
  rw [← List.append_assoc, ← List.append_assoc]
  exact List.perm_append_comm.append_right _

/-- A small block has come. -/
theorem RawTiers.addSmall (h : RawTiers T raws parts segs) {T' : Tiers} (hseg : T'.segments = T.segments)
    (hlarge : T'.large = T.large) {parts' : Small.Places} {size a : Nat} (hsz : size ≤ kSmallMax)
    (hok : Small.SmallOk T'.world T'.pools (caches T') parts' (T.segments.segments ++ T.large.held))
    (hk : Small.SmallKeeps T.world T'.world parts (T.segments.segments ++ T.large.held))
    (hcl : Small.ClientsNow parts parts' (classIndex size) (a :: parts (classIndex size) .client)) :
    RawTiers T' (⟨a, size, .Small, classSize (classIndex size)⟩ :: raws) parts' segs := by
  have hc : classIndex size < 30 := classIndex_lt hsz
  have hs := Small.blockStride_bounds _ hc
  have hmem : a ∈ parts' (classIndex size) .client := hcl.here.mem_iff.mpr List.mem_cons_self
  have hcv : a ∈ Small.carved (blockStride (classIndex size)) (T'.pools (classIndex size)) :=
    ((hok.pools.parts _ hc).cover a).mpr ⟨_, hmem⟩
  have hnd : (a :: parts (classIndex size) .client).Nodup :=
    hcl.here.nodup_iff.mp ((hok.pools.parts _ hc).once .client)
  refine ⟨by rw [hseg, hlarge]; exact hok, by rw [hseg, hlarge]; exact h.heap_small hok hk, h.retained,
    by rw [hlarge]; exact h.keys, fun d hd => ?_, ?_, ?_, ?_, ?_⟩
  · by_cases hdc : d = classIndex size
    · subst hdc
      refine hcl.here.trans (((h.smalls _ hd).cons a).trans ?_)
      unfold ofClass
      rw [List.filter_cons_of_pos (by simp)]
      exact List.Perm.refl _
    · rw [hcl.other d hdc]
      refine (h.smalls d hd).trans ?_
      unfold ofClass
      rw [List.filter_cons_of_neg (by simpa using Ne.symm hdc)]
  · unfold ofTier
    rw [List.filter_cons_of_neg (by simp)]
    exact h.mediums
  · rw [hlarge]
    unfold ofTier
    rw [List.filter_cons_of_neg (by simp)]
    exact h.larges
  · refine List.forall_mem_cons.mpr ⟨⟨?_, fun _ => ⟨hsz, rfl⟩, ?_, ?_, Or.inl rfl⟩, h.ok⟩
    · exact le_classSize hsz
    · exact fun e => by cases e
    · exact fun e => by cases e
  · rw [List.map_cons]
    refine List.pairwise_cons.mpr ⟨fun u hu => ?_, h.apart⟩
    obtain ⟨d, hd, rfl⟩ := List.mem_map.mp hu
    have hin : (Block.span ⟨a, size, .Small, classSize (classIndex size)⟩).Inside
        ⟨a, blockStride (classIndex size)⟩ := by
      unfold Span.Inside Block.span
      simp only
      omega
    by_cases ht : d.tier = .Small
    · -- another block of the tier: another class, or another block of the class
      obtain ⟨hdc, hdcl⟩ := h.client hd ht
      have hsd := Small.blockStride_bounds _ hdc
      have hdm : d.start ∈ parts' (classIndex d.size) .client := by
        by_cases he : classIndex d.size = classIndex size
        · rw [he] at hdcl ⊢
          exact hcl.here.mem_iff.mpr (List.mem_cons_of_mem _ hdcl)
        · rw [hcl.other _ he]
          exact hdcl
      have hap := hok.pools.apart hc hdc hcv (((hok.pools.parts _ hdc).cover _).mpr ⟨_, hdm⟩) fun e => by
        obtain ⟨e1, e2⟩ := Prod.mk.injEq .. ▸ e
        rw [← e1, ← e2] at hdcl
        exact (List.nodup_cons.mp hnd).1 hdcl
      refine hin.disjoint (show Span.Inside _ ⟨d.start, blockStride (classIndex d.size)⟩ from ?_) hap
      have := ((h.ok d hd).small ht).2
      unfold Span.Inside Block.span
      simp only
      omega
    · obtain ⟨r, hr, hi⟩ := h.home_others hd ht
      obtain ⟨q, hq, hiq⟩ := hok.pools.inside hc hcv
      have hap := (List.pairwise_append.mp (Span.pairwise_disjoint_perm hok.pools.mapped
        hok.pools.world.apart)).2.2 q (Small.mem_allRuns hc hq) r hr
      exact (hin.trans hiq).disjoint hi hap

/-- The small branch of `rawAllocate`. -/
theorem rawAllocateSmall_spec (h : RawOk T raws) {size : Nat} (hsz : size ≤ kSmallMax) (enabled : Bool)
    (t : Nat) : RawOutcome T raws size (T.rawAllocateSmall enabled t size (classIndex size)) := by
  obtain ⟨parts, segs, ht⟩ := h.tiers
  obtain ⟨o, T1, he, hseg, hlarge, hout⟩ := takeSmall_spec ht (classIndex_lt hsz) enabled t
  unfold Tiers.rawAllocateSmall
  rw [he]
  dsimp only
  cases hout with
  | @took parts' a hok hk hcl =>
    have hadd := ht.addSmall hseg hlarge hsz hok hk hcl
    have hk1 := ht.keeps_small (fun _ hb => hb) (fun b hb hbt => (ht.client hb hbt).2) hk
    obtain ⟨T2, he2, hok2, hk2⟩ := finishRaw_spec (b := ⟨a, size, .Small, classSize (classIndex size)⟩)
      hadd (headers_kept hk1 h.header) (f := fun _ _ => classSize (classIndex size))
      fun _ _ => rfl
    rw [he2]
    exact RawOutcome.served hok2 rfl (hk1.calm.trans hk2) fun e => by cases e
  | @refused parts' hok hk hcl href =>
    have hk1 := ht.keeps_small (fun _ hb => hb) (fun b hb hbt => (ht.client hb hbt).2) hk
    refine RawOutcome.refused ⟨⟨parts', segs, ?_⟩, headers_kept hk1 h.header⟩ hk1 href
    refine ⟨by rw [hseg, hlarge]; exact hok, by rw [hseg, hlarge]; exact ht.heap_small hok hk,
      ht.retained, by rw [hlarge]; exact ht.keys, fun d hd => ?_, ht.mediums,
      by rw [hlarge]; exact ht.larges, ht.ok, ht.apart⟩
    by_cases hdc : d = classIndex size
    · subst hdc
      exact hcl.here.trans (ht.smalls _ hd)
    · rw [hcl.other d hdc]
      exact ht.smalls d hd

end Small

/-! ## Medium -/

section Medium
variable {T : Tiers} {raws : List Block} {parts : Small.Places} {segs : List Heap.Seg}

theorem totalFor_le {n : Nat} (h : n + 31 < 2 ^ 64) :
    SegmentHeap.totalFor n ≤ max (n + 31) 48 := by
  have h1 : alignUp n kDefaultAlignment = (n + 15) / 16 * 16 := alignUp_16 (by omega)
  unfold SegmentHeap.totalFor
  rw [h1]
  change max (((n + 15) / 16 * 16 + 16) % 2 ^ 64) 48 ≤ max (n + 31) 48
  omega

/-- What the segment heap keeps, the blocks of all tiers keep. -/
theorem RawTiers.keeps_heap (h : RawTiers T raws parts segs) {w' : World} {raws' : List Block}
    {segs' : List Heap.Seg} (hsub : ∀ b ∈ raws', b ∈ raws)
    (hused : ∀ b ∈ raws', b.tier = .Medium → b.span ∈ Heap.used segs')
    (hk : T.world.Keeps w' (Heap.used segs' ++ (Small.allRuns T.pools ++ T.large.held))) :
    T.world.Keeps w' (raws'.map Block.span) := by
  refine hk.mono fun u hu => ?_
  obtain ⟨b, hb, rfl⟩ := List.mem_map.mp hu
  obtain ⟨r, hr, hi⟩ := h.home (hsub b hb)
  rcases (h.ok b (hsub b hb)).tiers with ht | ht | ht
  · rw [ht] at hr
    exact ⟨r, List.mem_append_right _ (List.mem_append_left _ hr), hi⟩
  · exact ⟨b.span, List.mem_append_left _ (hused b hb ht), Nat.le_refl _, Nat.le_refl _⟩
  · rw [ht] at hr
    exact ⟨r, List.mem_append_right _ (List.mem_append_right _ hr), hi⟩

/-- The small tier around a segment heap that has changed. -/
theorem RawTiers.small_heap (h : RawTiers T raws parts segs) {w' : World} {h' : SegmentHeap}
    {segs' : List Heap.Seg}
    (hok : Heap.HeapOk w' h' segs' (Small.allRuns T.pools ++ T.large.held))
    (hk : ∀ r ∈ Small.allRuns T.pools, SameOn T.mem w'.mem r.data r.size) :
    Small.SmallOk w' T.pools (caches T) parts (h'.segments ++ T.large.held) := by
  refine SmallOk.frame h.small hok.world (hok.mapped.trans ?_) hk
  rw [← List.append_assoc, ← List.append_assoc]
  exact List.perm_append_comm.append_right _

theorem RawTiers.used_span (h : RawTiers T raws parts segs) {b : Block} (hb : b ∈ raws)
    (ht : b.tier = .Medium) : b.span ∈ Heap.used segs :=
  h.mediums.mem_iff.mpr (List.mem_map_of_mem (mem_ofTier.mpr ⟨hb, ht⟩))

/-- A medium block has come. -/
theorem RawTiers.addMedium (h : RawTiers T raws parts segs) {w' : World} {h' : SegmentHeap} {u : Span}
    {segs' : List Heap.Seg} {size t : Nat} (hlo : kSmallMax < size) (hhi : size ≤ kMediumMax)
    (ht : size + 32 ≤ t)
    (hsv : Heap.Served T.world w' h' segs segs' (Small.allRuns T.pools ++ T.large.held) t u)
    (hret : Heap.Retained segs') :
    RawTiers { T with world := w', segments := h' } (⟨u.data, size, .Medium, u.size - 16⟩ :: raws)
      parts segs' := by
  have husz := hsv.size
  have hspan : Block.span ⟨u.data, size, .Medium, u.size - 16⟩ = u := by
    unfold Block.span
    simp only
    rw [show u.size - 16 + 16 = u.size by omega]
  have hu : u ∈ Heap.used segs' := hsv.used.mem_iff.mpr List.mem_cons_self
  refine ⟨h.small_heap hsv.ok fun r hr => hsv.keeps.bytes r (List.mem_append_right _
      (List.mem_append_left _ hr)), hsv.ok, hret, h.keys, fun c hc => ?_, ?_, ?_, ?_, ?_⟩
  · unfold ofClass
    rw [List.filter_cons_of_neg (by simp)]
    exact h.smalls c hc
  · unfold ofTier
    rw [List.filter_cons_of_pos (by simp), List.map_cons, hspan]
    exact hsv.used.trans (h.mediums.cons u)
  · unfold ofTier
    rw [List.filter_cons_of_neg (by simp)]
    exact h.larges
  · refine List.forall_mem_cons.mpr ⟨⟨?_, fun e => ?_, fun _ => ⟨hlo, hhi⟩, fun e => ?_,
      Or.inr (Or.inl rfl)⟩, h.ok⟩
    · simp only
      omega
    · cases e
    · cases e
  · rw [List.map_cons, hspan]
    refine List.pairwise_cons.mpr ⟨fun v hv => ?_, h.apart⟩
    obtain ⟨d, hd, rfl⟩ := List.mem_map.mp hv
    by_cases hdt : d.tier = .Medium
    · have hpw := Span.pairwise_disjoint_perm hsv.used (Heap.used_pairwise hsv.ok.layout)
      exact (List.pairwise_cons.mp hpw).1 _ (h.used_span hd hdt)
    · obtain ⟨r, hr, hi⟩ := h.home hd
      have hr' : r ∈ Small.allRuns T.pools ++ T.large.held := by
        rcases (h.ok d hd).tiers with h' | h' | h'
        · rw [h'] at hr
          exact List.mem_append_left _ hr
        · exact absurd h' hdt
        · rw [h'] at hr
          exact List.mem_append_right _ hr
      obtain ⟨s, hs, his⟩ := Heap.used_inside hsv.ok.layout hu
      have hap := (List.pairwise_append.mp hsv.ok.apart).2.2 s.span
        (by rw [hsv.ok.spans]; exact List.mem_map_of_mem hs) r hr'
      exact his.disjoint hi hap

/-- What the tier says it has reserved for a block that is out. -/
theorem RawTiers.reservedMedium (h : RawTiers T raws parts segs) {b : Block} (hb : b ∈ raws)
    (ht : b.tier = .Medium) : T.reservedMedium b.start = b.reserved := by
  have hcap : SegmentHeap.payloadCapacity T.mem b.start = b.reserved + 16 :=
    Heap.payloadCapacity_used (u := b.span) h.heap (h.used_span hb ht)
  have hbd := h.span_bound hb
  unfold Tiers.reservedMedium
  rw [hcap]
  change (b.reserved + 16 + (2 ^ 64 - 16)) % 2 ^ 64 = b.reserved
  omega

/-- The medium branch of `rawAllocate`. -/
theorem rawAllocateMedium_spec (h : RawOk T raws) {size : Nat} (hlo : kSmallMax < size)
    (hhi : size ≤ kMediumMax) : RawOutcome T raws size (T.rawAllocateMedium size) := by
  obtain ⟨parts, segs, ht⟩ := h.tiers
  have hmax : size ≤ 262144 := hhi
  have hbytes : (size + kHeaderSize) % 2 ^ 64 = size + 16 :=
    Nat.mod_eq_of_lt (show size + 16 < 2 ^ 64 by omega)
  have htot := Heap.le_totalFor (n := size + 16) (by omega)
  have htot' := totalFor_le (n := size + 16) (by omega)
  have hout := Heap.allocate_spec ht.heap ht.retained (size + 16)
  unfold Tiers.rawAllocateMedium
  rw [hbytes]
  generalize SegmentHeap.allocate T.world T.segments (size + 16) = q at *
  cases hout with
  | tooLarge hbig =>
    have : SegmentHeap.kSegmentSize = 4194304 := rfl
    omega
  | @refused w' h' hok hk href =>
    dsimp only
    have hk1 := ht.keeps_heap (fun _ hb => hb) (fun b hb hbt => ht.used_span hb hbt) hk
    refine @RawOutcome.refused T raws _ { T with world := w', segments := h' }
      ⟨⟨parts, segs, ?_⟩, headers_kept hk1 h.header⟩ hk1 href
    exact ⟨ht.small_heap hok fun r hr => hk.bytes r (List.mem_append_right _
      (List.mem_append_left _ hr)), hok, ht.retained, ht.keys, ht.smalls, ht.mediums, ht.larges, ht.ok,
      ht.apart⟩
  | @served w' h' u segs' hsv hret hne =>
    dsimp only
    have hadd := ht.addMedium hlo hhi (by omega) hsv hret
    have hk1 := ht.keeps_heap (fun _ hb => hb) (fun b hb hbt => ht.used_span hb hbt) hsv.keeps
    obtain ⟨T2, he2, hok2, hk2⟩ := finishRaw_spec (b := ⟨u.data, size, .Medium, u.size - 16⟩) hadd
      (headers_kept hk1 h.header) (f := Tiers.reservedMedium)
      fun m' hm' => hm'.reservedMedium List.mem_cons_self rfl
    rw [he2]
    exact RawOutcome.served hok2 rfl (hk1.calm.trans hk2) fun e => by cases e

end Medium

/-! ## Large -/

section Large
variable {T : Tiers} {raws : List Block} {parts : Small.Places} {segs : List Heap.Seg}

/-- `lookup` finds the entry of a block that is out. -/
theorem RawTiers.lookup_region (h : RawTiers T raws parts segs) {b : Block} (hb : b ∈ raws)
    (ht : b.tier = .Large) : T.large.lookup b.start = some b.region := by
  have hok := h.ok b hb
  have h16 := (hok.large ht).2
  have hr : b.region ∈ T.large.held :=
    h.larges.mem_iff.mpr (List.mem_map_of_mem (mem_ofTier.mpr ⟨hb, ht⟩))
  obtain ⟨e, he, hreg⟩ := List.mem_map.mp hr
  have hkey : e.1 = b.start := by
    have h1 := h.keys e he
    have h2 : e.2.data = b.start - 16 := congrArg Span.data hreg
    omega
  have hmem : (b.start, b.region) ∈ T.large := by
    rw [← hkey, ← hreg]
    exact he
  cases hl : T.large.lookup b.start with
  | none =>
    exact absurd (List.lookup_eq_none_iff.mp hl _ hmem) (by simp)
  | some r =>
    have hmem' : (b.start, r) ∈ T.large := by
      obtain ⟨l₁, l₂, hsplit, -⟩ := List.lookup_eq_some_iff.mp hl
      rw [hsplit]
      simp
    have hd : r.data = b.region.data := by
      have h1 : b.start = r.data + 16 := h.keys _ hmem'
      unfold Block.region
      simp only
      omega
    have hzone : ∀ q : Span, (b.start, q) ∈ T.large → q ∈ zone T .Large := fun q hq =>
      List.mem_map.mpr ⟨_, hq, rfl⟩
    have hm := h.zone_mapped (hzone r hmem')
    have hm' := h.zone_mapped (hzone b.region hmem)
    have hpos := h.world.pos r hm
    have hpos' := h.world.pos b.region hm'
    rw [Span.eq_of_has h.world.apart hm hm' (x := r.data) ⟨Nat.le_refl _, by omega⟩
      ⟨by omega, by omega⟩]

theorem RawTiers.reservedLarge (h : RawTiers T raws parts segs) {b : Block} (hb : b ∈ raws)
    (ht : b.tier = .Large) : T.reservedLarge b.start = b.reserved := by
  have hbd := h.span_bound hb
  unfold Tiers.reservedLarge LargeAllocator.payloadCapacity
  rw [h.lookup_region hb ht]
  change ((b.reserved + 32 + (2 ^ 64 - 16)) % 2 ^ 64 + (2 ^ 64 - 16)) % 2 ^ 64 = b.reserved
  omega

/-- A region that has just been granted is under no key. -/
theorem RawTiers.lookup_new (h : RawTiers T raws parts segs) {r : Span}
    (hg : T.world.Grants r.data r.size) : T.large.lookup (r.data + 16) = none := by
  refine List.lookup_eq_none_iff.mpr fun e he => ?_
  have hkey := h.keys e he
  have hm : e.2 ∈ T.world.mapped := h.zone_mapped (t := .Large) (List.mem_map.mpr ⟨e, he, rfl⟩)
  have hpos := h.world.pos e.2 hm
  have hd := hg.2.2.2.2 e.2 hm
  have hr := hg.2.2.1
  unfold Span.Disjoint at hd
  simp only at hd
  rw [bne_iff_ne]
  omega

/-- A large block has come. -/
theorem RawTiers.addLarge (h : RawTiers T raws parts segs) {w' : World} {r : Span} {size : Nat}
    (hlo : kMediumMax < size) (hsz : size + 32 ≤ r.size) (hg : T.world.Grants r.data r.size)
    (hs : T.world.Gains w' r)
    (hpg : w'.page = T.world.page) (hkeep : ∀ q ∈ T.world.mapped, SameOn T.mem w'.mem q.data q.size) :
    RawTiers { T with world := w', large := (r.data + 16, r) :: T.large }
      (⟨r.data + 16, size, .Large, r.size - 32⟩ :: raws) parts segs := by
  have hmap : w'.mapped = r :: T.world.mapped := hs.1
  have hw : w'.Ok := ok_cons h.world hg hs
  have hreg : Block.region ⟨r.data + 16, size, .Large, r.size - 32⟩ = r := by
    unfold Block.region
    simp only
    rw [show r.size - 32 + 32 = r.size by omega, Nat.add_sub_cancel]
  have hin : (Block.span ⟨r.data + 16, size, .Large, r.size - 32⟩).Inside r := by
    unfold Span.Inside Block.span
    simp only
    omega
  have hperm : w'.mapped.Perm
      (Small.allRuns T.pools ++ (T.segments.segments ++ (r :: T.large.held))) := by
    rw [hmap]
    refine (h.mapped.cons r).trans ?_
    rw [← List.append_assoc, ← List.append_assoc]
    exact List.perm_middle.symm
  have hperm' : w'.mapped.Perm
      (T.segments.segments ++ (Small.allRuns T.pools ++ (r :: T.large.held))) := by
    refine hperm.trans ?_
    rw [← List.append_assoc, ← List.append_assoc]
    exact List.perm_append_comm.append_right _
  refine ⟨SmallOk.frame h.small hw hperm fun q hq => hkeep q (h.zone_mapped (t := .Small) hq),
    HeapOk.frame h.heap hw hperm' hpg fun q hq => hkeep q (h.zone_mapped (t := .Medium) hq),
    h.retained, ?_, fun c hc => ?_, ?_, ?_, ?_, ?_⟩
  · exact List.forall_mem_cons.mpr ⟨rfl, h.keys⟩
  · unfold ofClass
    rw [List.filter_cons_of_neg (by simp)]
    exact h.smalls c hc
  · unfold ofTier
    rw [List.filter_cons_of_neg (by simp)]
    exact h.mediums
  · unfold ofTier
    rw [List.filter_cons_of_pos (by simp), List.map_cons, hreg]
    exact h.larges.cons r
  · refine List.forall_mem_cons.mpr ⟨⟨?_, fun e => ?_, fun e => ?_, fun _ => ⟨hlo, ?_⟩,
      Or.inr (Or.inr rfl)⟩, h.ok⟩
    · simp only
      omega
    · cases e
    · cases e
    · simp only
      omega
  · rw [List.map_cons]
    refine List.pairwise_cons.mpr ⟨fun v hv => ?_, h.apart⟩
    obtain ⟨d, hd, rfl⟩ := List.mem_map.mp hv
    obtain ⟨q, hq, hi⟩ := h.home hd
    exact hin.disjoint hi (hg.2.2.2.2 q (h.zone_mapped hq))

/-- The large branch of `rawAllocate`. -/
theorem rawAllocateLarge_spec (h : RawOk T raws) {size : Nat} (hlo : kMediumMax < size)
    (hhi : size < 2 ^ 62) : RawOutcome T raws size (T.rawAllocateLarge size) := by
  obtain ⟨parts, segs, ht⟩ := h.tiers
  have hbytes : ((size + kHeaderSize) % 2 ^ 64 + LargeAllocator.kPayloadOffset) % 2 ^ 64 = size + 32 := by
    change ((size + 16) % 2 ^ 64 + 16) % 2 ^ 64 = size + 32
    omega
  unfold Tiers.rawAllocateLarge LargeAllocator.allocate
  rw [hbytes]
  cases hmap : SystemMemory.map T.world (size + 32) with
  | mk o w' =>
    have hbd := roundToPages_bounds (p := T.world.page) (n := size + 32) (by omega)
    have hkeep : ∀ q ∈ T.world.mapped, SameOn T.mem w'.mem q.data q.size := fun q hq x h1 h2 =>
      map_keeps hmap hq ⟨h1, h2⟩
    have hkeeps : w'.page = T.world.page → T.world.refusals ≤ w'.refusals →
        T.world.Keeps w' (raws.map Block.span) := fun hpg hrf => by
      refine ⟨hpg, hrf, fun u hu => ?_, fun x hx _ => map_tame hmap x hx⟩
      obtain ⟨b, hb, rfl⟩ := List.mem_map.mp hu
      obtain ⟨q, hq, hi⟩ := ht.home hb
      exact (hkeep q (ht.zone_mapped hq)).mono hi.1 hi.2
    rcases map_cases hmap with ⟨rfl, hm, hmp, hpg, hrf⟩ | ⟨r, rfl, hrs, hg, hm, hmp, hpg, hrf⟩
    · have href : w'.refusals = T.world.refusals + 1 := by omega
      have hk := hkeeps hpg (by omega)
      dsimp only
      refine @RawOutcome.refused T raws _ { T with world := w' } ⟨⟨parts, segs, ?_⟩,
        headers_kept hk h.header⟩ hk (by simp only; omega)
      have hw : w'.Ok := ok_of_same ht.world hmp
      exact ⟨SmallOk.frame ht.small hw (by rw [hmp.1]; exact ht.small.pools.mapped) fun q hq =>
          hkeep q (ht.zone_mapped (t := .Small) hq),
        HeapOk.frame ht.heap hw (by rw [hmp.1]; exact ht.heap.mapped) hpg fun q hq =>
          hkeep q (ht.zone_mapped (t := .Medium) hq),
        ht.retained, ht.keys, ht.smalls, ht.mediums, ht.larges, ht.ok, ht.apart⟩
    · have hk := hkeeps hpg (by omega)
      have hadd := ht.addLarge hlo (by omega) hg hmp hpg hkeep
      dsimp only
      unfold LargeAllocator.emplace
      rw [show T.large.lookup (r.data + LargeAllocator.kPayloadOffset) = none from ht.lookup_new hg]
      dsimp only
      obtain ⟨T2, he2, hok2, hk2⟩ := finishRaw_spec
        (b := ⟨r.data + 16, size, .Large, r.size - 32⟩) hadd (headers_kept hk h.header)
        (f := Tiers.reservedLarge) fun m' hm' => hm'.reservedLarge List.mem_cons_self rfl
      rw [he2]
      refine RawOutcome.served hok2 rfl (hk.calm.trans hk2) fun _ q hq => ?_
      have hap := (hg.2.2.2.2 q hq).symm
      unfold Span.Disjoint Block.region at *
      simp only at hap ⊢
      omega

end Large

/-- **`rawAllocate`**: one block more, or out of memory because the OS has refused a mapping. -/
theorem rawAllocate_spec {T : Tiers} {raws : List Block} (h : RawOk T raws) (enabled : Bool)
    (t : Nat) {n : Nat} (hsz : n < 2 ^ 62) :
    RawOutcome T raws n (T.rawAllocate enabled t n) := by
  unfold Tiers.rawAllocate
  by_cases h1 : n ≤ kSmallMax
  · rw [if_pos h1]
    exact rawAllocateSmall_spec h h1 enabled t
  · rw [if_neg h1]
    by_cases h2 : n ≤ kMediumMax
    · rw [if_pos h2]
      exact rawAllocateMedium_spec h (Nat.lt_of_not_le h1) h2
    · rw [if_neg h2]
      exact rawAllocateLarge_spec h (Nat.lt_of_not_le h2) hsz

end MAlloc.Raw
