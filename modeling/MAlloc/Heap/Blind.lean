/-
  `deallocate` does not look at the payload it gets back.

  The merges read tags and nodes of free blocks only, and the node of the merged block is written
  before it is read. So when two memories differ only in bytes `G` of the payload, `deallocate` does
  the same on both: the same bins and segments, and memories that again differ only in `G`.
-/
import MAlloc.Heap.Ops

namespace MAlloc.Heap

open Lib MediumBlock SegmentHeap SystemMemory

section Tags
variable {G : Nat → Prop} {m m' : Mem} {a b v flag : Nat}

/-- No byte of `G` is in the 16 bytes at `a`. -/
def Clear (G : Nat → Prop) (a : Nat) : Prop := ∀ x, G x → ¬ (a ≤ x ∧ x < a + 16)

theorem Clear.lower (h : Clear G a) (hs : SameOff G m m') : readLE m' a 8 = readLE m a 8 := by
  refine readLE_congr (hs.sameOn fun x hx hin => h x hx ?_)
  omega

theorem Clear.upper (h : Clear G a) (hs : SameOff G m m') : readLE m' (a + 8) 8 = readLE m (a + 8) 8 := by
  refine readLE_congr (hs.sameOn fun x hx hin => h x hx ?_)
  omega

theorem Clear.size (h : Clear G a) (hs : SameOff G m m') : MediumBlock.size m' a = MediumBlock.size m a := by
  unfold MediumBlock.size sizeAndFlags
  rw [h.lower hs]

theorem Clear.isFree (h : Clear G a) (hs : SameOff G m m') : MediumBlock.isFree m' a = MediumBlock.isFree m a := by
  unfold MediumBlock.isFree sizeAndFlags
  rw [h.lower hs]

theorem Clear.isFirst (h : Clear G a) (hs : SameOff G m m') :
    MediumBlock.isFirst m' a = MediumBlock.isFirst m a := by
  unfold MediumBlock.isFirst sizeAndFlags
  rw [h.lower hs]

theorem Clear.isLast (h : Clear G a) (hs : SameOff G m m') : MediumBlock.isLast m' a = MediumBlock.isLast m a := by
  unfold MediumBlock.isLast sizeAndFlags
  rw [h.lower hs]

theorem Clear.setSize (h : Clear G a) (hs : SameOff G m m') (v : Nat) :
    SameOff G (MediumBlock.setSize m a v) (MediumBlock.setSize m' a v) := by
  unfold MediumBlock.setSize setSizeAndFlags sizeAndFlags
  rw [h.lower hs]
  exact hs.writeLE _ _ _

theorem Clear.setFlag (h : Clear G a) (hs : SameOff G m m') (flag : Nat) (v : Bool) :
    SameOff G (MediumBlock.setFlag m a flag v) (MediumBlock.setFlag m' a flag v) := by
  unfold MediumBlock.setFlag setSizeAndFlags sizeAndFlags
  rw [h.lower hs]
  exact hs.writeLE _ _ _

theorem unlinkMem_off (hs : SameOff G m m') (prv nx : Nat) :
    SameOff G (unlinkMem m prv nx) (unlinkMem m' prv nx) := by
  have h1 : SameOff G (if prv ≠ 0 then FreeNode.setNext m prv nx else m)
      (if prv ≠ 0 then FreeNode.setNext m' prv nx else m') := by
    split
    · exact hs.writeLE _ _ _
    · exact hs
  unfold unlinkMem
  dsimp only
  split
  · exact h1.writeLE _ _ _
  · exact h1

theorem absorbTag_off (ha : Clear G a) (hb : Clear G b) (hs : SameOff G m m') :
    SameOff G (absorbTag m a b) (absorbTag m' a b) := by
  unfold absorbTag
  dsimp only
  rw [ha.size hs, hb.size hs]
  have h1 := ha.setSize hs (size m a + size m b)
  rw [hb.isLast h1]
  exact ha.setFlag h1 _ _

theorem nextPrev_off (ha : Clear G a) (hs : SameOff G m m') (v : Nat) :
    SameOff G (nextPrev m a v) (nextPrev m' a v) := by
  unfold nextPrev nextBlock
  rw [ha.isLast hs, ha.size hs]
  split
  · exact hs.writeLE _ _ _
  · exact hs

end Tags

section Blind
variable {G : Nat → Prop} {m m' : Mem} {bins : Nat → Nat} {segs : List Seg} {lists : Nat → List Nat}
  {stale : Nat} {c : Ctx}

/-- `G` meets no tag and no node of a free block. -/
def Unseen (G : Nat → Prop) (segs : List Seg) : Prop := ∀ x, G x → Quiet segs x

theorem Unseen.tag (h : Unseen G segs) {p : PBlk} (hp : p ∈ placed segs) : Clear G p.addr :=
  fun x hx => (h x hx p hp).1

theorem Unseen.node (h : Unseen G segs) {p : PBlk} (hp : p ∈ placed segs) (hf : p.flags.free = true) :
    Clear G p.node := fun x hx => (h x hx p hp).2 hf

/-- Both memories represent the same heap. -/
theorem Rep.off (h : Rep m bins segs lists stale) (hG : Unseen G segs) (hs : SameOff G m m') :
    Rep m' bins segs lists stale :=
  h.congr (fun _ hp => hs.sameOn (hG.tag hp)) fun _ hp hf => hs.sameOn (hG.node hp hf)

theorem removeFree_off (h : Rep m bins segs lists stale) (hG : Unseen G segs) (hs : SameOff G m m') {p : PBlk}
    (hp : p ∈ placed segs) (hf : p.flags.free = true) :
    (removeFree m' bins p.addr).2 = (removeFree m bins p.addr).2 ∧
      SameOff G (removeFree m bins p.addr).1 (removeFree m' bins p.addr).1 := by
  have h' := h.off hG hs
  have htag := hG.tag hp
  have hnode := hG.node hp hf
  obtain ⟨c, hseg, hhole, haddr, -⟩ := Ctx.exists_of_mem hp
  rw [← hhole, hf] at hseg
  have hprev : FreeNode.prev m' (nodeOf p.addr) = FreeNode.prev m (nodeOf p.addr) := hnode.lower hs
  have hnext : FreeNode.next m' (nodeOf p.addr) = FreeNode.next m (nodeOf p.addr) := hnode.upper hs
  rw [hseg] at h h'
  rw [haddr] at htag hprev hnext ⊢
  rw [removeFree_eq h, removeFree_eq h', hprev, hnext]
  exact ⟨rfl, htag.setFlag (unlinkMem_off hs _ _) _ _⟩

/-- The right merge. -/
theorem mergeNext_off (h : Rep m bins (c.plug [⟨c.hole, false⟩]) lists 0)
    (hG : Unseen G (c.plug [⟨c.hole, false⟩])) (hs : SameOff G m m') :
    (mergeNext m' bins c.addr).2 = (mergeNext m bins c.addr).2 ∧
      SameOff G (mergeNext m bins c.addr).1 (mergeNext m' bins c.addr).1 := by
  have hblk := h.tags _ (c.blk_mem false)
  have htag : Clear G c.addr := hG.tag (c.blk_mem false)
  have hnb : nextBlock m c.addr = c.addr + c.hole := by
    unfold nextBlock
    rw [show size m c.addr = c.hole from hblk.size]
  have hnb' : nextBlock m' c.addr = c.addr + c.hole := by
    unfold nextBlock at hnb ⊢
    rw [htag.size hs]
    exact hnb
  rw [mergeNext_eq, mergeNext_eq, htag.isLast hs, hnb, hnb']
  cases hr : c.right with
  | nil =>
    have hl : isLast m c.addr = true := by
      rw [show isLast m c.addr = c.last from hblk.isLast]
      unfold Ctx.last
      rw [hr]
      rfl
    rw [if_pos hl, if_pos hl]
    exact ⟨rfl, hs⟩
  | cons b r =>
    have hnext : (⟨c.addr + c.hole, b.size, ⟨b.free, false, r.isEmpty⟩, c.hole⟩ : PBlk) ∈
        placed (c.plug [⟨c.hole, false⟩]) := by
      refine (c.mem_placed_plug (by simp) (by simp)).mpr (Or.inr (Or.inl ?_))
      unfold Ctx.next
      rw [hr]
      exact List.mem_singleton.mpr rfl
    have hclear : Clear G (c.addr + c.hole) := hG.tag hnext
    have hl : isLast m c.addr = false := by
      rw [show isLast m c.addr = c.last from hblk.isLast]
      unfold Ctx.last
      rw [hr]
      rfl
    rw [hclear.isFree hs, hl, if_neg Bool.false_ne_true, if_neg Bool.false_ne_true]
    by_cases hfree : isFree m (c.addr + c.hole) = true
    · have hf : b.free = true := (h.tags _ hnext).isFree.symm.trans hfree
      obtain ⟨h1, h2⟩ := removeFree_off h hG hs hnext hf
      rw [if_pos hfree, if_pos hfree]
      dsimp only at h1 h2 ⊢
      exact ⟨h1, absorbTag_off htag hclear h2⟩
    · rw [if_neg hfree, if_neg hfree]
      exact ⟨rfl, hs⟩

/-- The left merge. -/
theorem mergePrev_off (h : Rep m bins (c.plug [⟨c.hole, false⟩]) lists (staleOf c))
    (hG : Unseen G (c.plug [⟨c.hole, false⟩])) (hs : SameOff G m m') :
    (mergePrev m' bins c.addr).1 = (mergePrev m bins c.addr).1 ∧
      (mergePrev m' bins c.addr).2.2 = (mergePrev m bins c.addr).2.2 ∧
      SameOff G (mergePrev m bins c.addr).2.1 (mergePrev m' bins c.addr).2.1 := by
  have hblk := h.tags _ (c.blk_mem false)
  have hok := h.hole_ok
  have htag : Clear G c.addr := hG.tag (c.blk_mem false)
  have hps : prevSize m' c.addr = prevSize m c.addr := htag.upper hs
  have hpb : prevBlock m' c.addr = prevBlock m c.addr := by
    unfold prevBlock
    rw [hps]
  rw [mergePrev_eq, mergePrev_eq, htag.isFirst hs, hpb]
  rcases List.eq_nil_or_concat c.left with hl | ⟨l, b, hl⟩
  · have hf : isFirst m c.addr = true := by
      rw [show isFirst m c.addr = c.first from hblk.isFirst]
      unfold Ctx.first
      rw [hl]
      rfl
    rw [if_pos hf, if_pos hf]
    exact ⟨rfl, rfl, hs⟩
  · have hprev : prevSize m c.addr = c.prev :=
      h.prevs (c.blk false) (c.blk_mem false) (addr_ne_staleOf (by omega) (by omega))
    have haddr : c.addr = c.base + total l + b.size := by
      unfold Ctx.addr
      rw [hl, List.concat_eq_append]
      simp
      omega
    have hpa : prevBlock m c.addr = c.base + total l := by
      unfold prevBlock
      rw [hprev, show c.prev = b.size by unfold Ctx.prev; rw [hl, List.concat_eq_append, lastSize_concat],
        ptrSub_eq (by omega) (by omega)]
      omega
    -- the neighbour fills a hole of its own
    let cp : Ctx := { c with left := l, hole := b.size, right := ⟨c.hole, false⟩ :: c.right }
    have hsame : c.plug [⟨c.hole, false⟩] = cp.plug [⟨b.size, b.free⟩] := by
      simp [cp, Ctx.plug, hl]
    have hpm : (⟨c.base + total l, b.size, ⟨b.free, cp.first, cp.last⟩, cp.prev⟩ : PBlk) ∈
        placed (c.plug [⟨c.hole, false⟩]) := by
      rw [hsame]
      exact cp.blk_mem b.free
    have hclear : Clear G (c.base + total l) := hG.tag hpm
    have hfirst : isFirst m c.addr = false := by
      rw [show isFirst m c.addr = c.first from hblk.isFirst]
      unfold Ctx.first
      rw [hl]
      simp
    rw [hpa, hclear.isFree hs, hfirst, if_neg Bool.false_ne_true, if_neg Bool.false_ne_true]
    by_cases hfree : isFree m (c.base + total l) = true
    · have hf : b.free = true := (h.tags _ hpm).isFree.symm.trans hfree
      obtain ⟨h1, h2⟩ := removeFree_off h hG hs hpm hf
      rw [if_pos hfree, if_pos hfree]
      dsimp only at h1 h2 ⊢
      exact ⟨rfl, h1, absorbTag_off hclear htag h2⟩
    · rw [if_neg hfree, if_neg hfree]
      exact ⟨rfl, rfl, hs⟩

/-- The node is written before it is read. -/
theorem insertFree_off (h : Rep m bins (c.plug [⟨c.hole, false⟩]) lists stale) (hG : Clear G c.addr)
    (hs : SameOff G m m') : (insertFree m' bins c.addr).2 = (insertFree m bins c.addr).2 ∧
      SameOff G (insertFree m bins c.addr).1 (insertFree m' bins c.addr).1 := by
  have hhead := h.bins_lt (binIndex (size m c.addr))
  have hback : ∀ k : Mem, FreeNode.next (FreeNode.setNext (FreeNode.setPrev k (nodeOf c.addr) 0) (nodeOf c.addr)
      (bins (binIndex (size m c.addr)))) (nodeOf c.addr) = bins (binIndex (size m c.addr)) :=
    fun k => readLE_writeLE_word hhead
  have hlinks : SameOff G (FreeNode.setNext (FreeNode.setPrev m (nodeOf c.addr) 0) (nodeOf c.addr)
        (bins (binIndex (size m c.addr))))
      (FreeNode.setNext (FreeNode.setPrev m' (nodeOf c.addr) 0) (nodeOf c.addr)
        (bins (binIndex (size m c.addr)))) :=
    (hs.writeLE _ _ _).writeLE _ _ _
  unfold insertFree
  dsimp only
  rw [hG.size hs, hback m, hback m']
  refine ⟨rfl, hG.setFlag ?_ _ _⟩
  split
  · exact hlinks.writeLE _ _ _
  · exact hlinks

/-- The merges and the repair. -/
theorem mergeBlock_off (h : Rep m bins (c.plug [⟨c.hole, false⟩]) lists 0)
    (hG : Unseen G (c.plug [⟨c.hole, false⟩])) (hs : SameOff G m m') :
    (mergeBlock m' bins c.addr).1 = (mergeBlock m bins c.addr).1 ∧
      (mergeBlock m' bins c.addr).2.2 = (mergeBlock m bins c.addr).2.2 ∧
      SameOff G (mergeBlock m bins c.addr).2.1 (mergeBlock m' bins c.addr).2.1 ∧
      Clear G (mergeBlock m bins c.addr).1 := by
  obtain ⟨hb1, hs1⟩ := mergeNext_off h hG hs
  obtain ⟨c1, post, lists1, hl1, hbase, hh1, hp1, -, -, hrep1, -, -⟩ := mergeNext_rep h
  have ha1 : c1.addr = c.addr := by
    unfold Ctx.addr
    rw [hl1, hbase]
  have hG1 : Unseen G (c1.plug [⟨c1.hole, false⟩]) := by
    intro x hx
    refine Quiet.whole (l := [⟨c.hole, false⟩] ++ post) ?_ (by simp) ?_
    · rw [hp1]
      exact hG x hx
    · simp only [total_append, total_cons, total_nil]
      omega
  obtain ⟨he2, hb2, hs2⟩ := mergePrev_off hrep1 hG1 hs1
  obtain ⟨c2, pre, lists2, -, -, hh2, hp2, -, -, hblock, hrep2, -, -⟩ := mergePrev_rep hrep1
  have hG2 : Unseen G (c2.plug [⟨c2.hole, false⟩]) := by
    intro x hx
    refine Quiet.whole (l := pre ++ [⟨c1.hole, false⟩]) ?_ (by simp) ?_
    · rw [hp2]
      exact hG1 x hx
    · simp only [total_append, total_cons, total_nil]
      omega
  rw [ha1] at he2 hb2 hs2 hblock
  have hclear : Clear G c2.addr := hG2.tag (c2.blk_mem false)
  unfold mergeBlock
  dsimp only
  rw [hb1, he2, hb2, hblock]
  refine ⟨rfl, rfl, ?_, hclear⟩
  rw [hclear.size hs2]
  exact nextPrev_off hclear hs2 _

end Blind

/-- The worlds differ in bytes of `G` only. -/
def WorldOff (G : Nat → Prop) (w w' : World) : Prop := ∃ m, w' = { w with mem := m } ∧ SameOff G w.mem m

section Deallocate
variable {G : Nat → Prop} {w : World} {h : SegmentHeap} {segs : List Seg} {others : List Span} {u : Span}
  {m' : Mem}

/-- **`deallocate` does not look at the payload.** -/
theorem deallocate_off (hok : HeapOk w h segs others) (hu : u ∈ used segs) (hG : ∀ x, G x → u.Has x)
    (hs : SameOff G w.mem m') :
    (SegmentHeap.deallocate { w with mem := m' } h u.data).2 = (SegmentHeap.deallocate w h u.data).2 ∧
      WorldOff G (SegmentHeap.deallocate w h u.data).1
        (SegmentHeap.deallocate { w with mem := m' } h u.data).1 := by
  have hquiet : Unseen G segs := fun x hx => quiet_of_used hok.layout hu (hG x hx)
  obtain ⟨p, hp, hpf, rfl⟩ := mem_used.mp hu
  have hpok := hok.layout.placed_ok hp
  have hbo : blockOf p.payload.data = p.addr := by
    unfold blockOf
    exact (ptrSub_eq (show 16 ≤ p.addr + 16 by omega) (show p.addr + 16 < 2 ^ 64 by omega)).trans
      (Nat.add_sub_cancel _ _)
  obtain ⟨c0, hseg0, hhole, haddr, -⟩ := Ctx.exists_of_mem hp
  rw [← hhole, hpf] at hseg0
  obtain ⟨lists, hr⟩ := hok.rep
  rw [hseg0] at hr hquiet
  obtain ⟨hblock, hbins, hmem, hclear⟩ := mergeBlock_off hr hquiet hs
  obtain ⟨c, mid, hc, hg⟩ := mergeBlock_spec hr
  obtain ⟨lists', hr'⟩ := hg.rep
  rw [deallocate_eq, deallocate_eq, hbo, haddr]
  dsimp only
  rw [hblock, hbins]
  rw [hc] at hclear ⊢
  generalize (mergeBlock w.mem h.bins c0.addr).2.1 = m1 at hmem hr' ⊢
  generalize (mergeBlock m' h.bins c0.addr).2.1 = m2 at hmem ⊢
  generalize (mergeBlock w.mem h.bins c0.addr).2.2 = bins' at hr' ⊢
  obtain ⟨hi1, hi2⟩ := insertFree_off hr' hclear hmem
  rw [hclear.isFirst hmem, hclear.isLast hmem]
  -- the block goes into its bin, in the last segment that is left too
  have hin : ∀ {r r' : World × SegmentHeap}, r = ({ w with mem := (insertFree m1 bins' c.addr).1 },
        { h with bins := (insertFree m1 bins' c.addr).2 }) →
      r' = ({ w with mem := (insertFree m2 bins' c.addr).1 }, { h with bins := (insertFree m2 bins' c.addr).2 }) →
      r'.2 = r.2 ∧ WorldOff G r.1 r'.1 := by
    rintro r r' rfl rfl
    exact ⟨by dsimp only; rw [hi1], _, rfl, hi2⟩
  by_cases hfl : (isFirst m1 c.addr && isLast m1 c.addr) = true
  · rw [if_pos hfl, if_pos hfl]
    unfold releaseSegment
    dsimp only
    by_cases hlen : h.segments.length ≤ 1
    · rw [if_pos hlen, if_pos hlen]
      exact hin rfl rfl
    · rw [if_neg hlen, if_neg hlen]
      cases h.segments.find? fun s => decide (s.data = c.addr) with
      | none => exact hin rfl rfl
      | some s => exact ⟨rfl, _, rfl, hmem⟩
  · rw [if_neg hfl, if_neg hfl]
    exact hin rfl rfl

end Deallocate

end MAlloc.Heap
