/-
  What a free of a medium block leaves in the bytes of the block.

  The merges write tags and nodes of other blocks only. Then the merged block gets its `FreeNode`,
  32 bytes behind its start. When the block was absorbed by a free left neighbour
  (`leftFree`), the node lies in the neighbour; otherwise it lies in the block, 16 bytes behind the
  start of the payload. All other bytes of the payload stay, as long as the segment does.
-/
import MAlloc.Heap.Ops

namespace MAlloc.Heap

open Lib SegmentHeap MediumBlock

/-- `mergePrev` will find a free left neighbour. -/
def leftFree (m : Mem) (block : Nat) : Bool := !isFirst m block && isFree m (prevBlock m block)

section Left
variable {m : Mem} {bins : Nat → Nat} {c : Ctx} {f : Bool} {lists : Nat → List Nat}

theorem Rep.leftFree_nil (h : Rep m bins (c.plug [⟨c.hole, f⟩]) lists 0) (hl : c.left = []) :
    leftFree m c.addr = false := by
  have htag : HasTag m c.addr c.hole ⟨f, c.first, c.last⟩ := h.tags _ (c.blk_mem f)
  unfold leftFree
  rw [htag.isFirst]
  unfold Ctx.first
  rw [hl]
  rfl

theorem Rep.leftFree_concat (h : Rep m bins (c.plug [⟨c.hole, f⟩]) lists 0) {l : List Blk} {b : Blk}
    (hl : c.left = l ++ [b]) : leftFree m c.addr = b.free := by
  have htag : HasTag m c.addr c.hole ⟨f, c.first, c.last⟩ := h.tags _ (c.blk_mem f)
  have hok := h.hole_ok
  have hprev : prevSize m c.addr = c.prev := h.prevs (c.blk f) (c.blk_mem f) (show c.addr ≠ 0 by omega)
  have hcp : c.prev = b.size := by
    unfold Ctx.prev
    rw [hl, lastSize_concat]
  have haddr : c.addr = c.base + total l + b.size := by
    unfold Ctx.addr
    rw [hl]
    simp
    omega
  have hpb : prevBlock m c.addr = c.base + total l := by
    unfold prevBlock
    rw [hprev, hcp, ptrSub_eq (by omega) (by omega)]
    omega
  -- the neighbour fills a hole of its own
  let cp : Ctx := { c with left := l, hole := b.size, right := ⟨c.hole, f⟩ :: c.right }
  have hsame : c.plug [⟨c.hole, f⟩] = cp.plug [⟨b.size, b.free⟩] := by
    simp [cp, Ctx.plug, hl]
  have hpm : (⟨c.base + total l, b.size, ⟨b.free, cp.first, cp.last⟩, cp.prev⟩ : PBlk) ∈
      placed (c.plug [⟨c.hole, f⟩]) := by
    rw [hsame]
    exact cp.blk_mem b.free
  have hfree : isFree m (c.base + total l) = b.free := (h.tags _ hpm).isFree
  have hfirst : c.first = false := by
    unfold Ctx.first
    rw [hl]
    simp
  unfold leftFree
  rw [htag.isFirst, hpb, hfree, hfirst, Bool.not_false, Bool.true_and]

end Left

section Remains
variable {w : World} {h : SegmentHeap} {segs : List Seg} {others : List Span} {u : Span} {c : Ctx}
  {mid : List Blk} {m' : Mem} {bins' : Nat → Nat}

/-- Whether the left neighbour is free depends on the layout only. -/
theorem leftFree_congr {w' : World} {h' : SegmentHeap} {others' : List Span} (hok : HeapOk w h segs others)
    (hok' : HeapOk w' h' segs others') (hu : u ∈ used segs) :
    leftFree w.mem (blockOf u.data) = leftFree w'.mem (blockOf u.data) := by
  obtain ⟨p, hp, hpf, rfl⟩ := mem_used.mp hu
  have hpok := hok.layout.placed_ok hp
  obtain ⟨c, hseg, hhole, haddr, -⟩ := Ctx.exists_of_mem hp
  rw [← hhole, hpf] at hseg
  obtain ⟨lists, hr⟩ := hok.rep
  obtain ⟨lists', hr'⟩ := hok'.rep
  rw [hseg] at hr hr'
  have hbo : blockOf p.payload.data = c.addr := by
    rw [← haddr]
    exact (ptrSub_eq (show 16 ≤ p.addr + 16 by omega) (show p.addr + 16 < 2 ^ 64 by omega)).trans
      (Nat.add_sub_cancel _ _)
  rw [hbo]
  rcases List.eq_nil_or_concat c.left with hl | ⟨l, b, hl⟩
  · rw [hr.leftFree_nil hl, hr'.leftFree_nil hl]
  · rw [List.concat_eq_append] at hl
    rw [hr.leftFree_concat hl, hr'.leftFree_concat hl]

/-- The merged block starts where the block started, or in its left neighbour. -/
theorem Merged.addr_cases (hg : Merged w.mem segs u c mid m' bins') (hok : HeapOk w h segs others) :
    (leftFree w.mem (blockOf u.data) = false ∧ u.data = c.addr + 16) ∨
      (leftFree w.mem (blockOf u.data) = true ∧ c.addr + 64 ≤ u.data) := by
  obtain ⟨lists, hr⟩ := hok.rep
  have hbo : ∀ {a : Nat}, a + 16 < 2 ^ 64 → blockOf (a + 16) = a := by
    intro a ha
    exact (ptrSub_eq (show 16 ≤ a + 16 by omega) ha).trans (Nat.add_sub_cancel _ _)
  have hpay := hg.payload
  rw [hg.segs_eq] at hr
  have hwf : (⟨c.base, c.left ++ mid ++ c.right⟩ : Seg).Wf := hr.layout.wf _ (by simp [Ctx.plug])
  cases mid with
  | nil => cases hpay
  | cons d rest =>
    cases hd : d.free with
    | false =>
      -- the block itself comes first in the hole
      rw [usedFrom, hd, if_neg (by simp)] at hpay
      have hu : u = ⟨c.addr + 16, d.size - 16⟩ := (List.cons.inj hpay).1.symm
      let c0 : Ctx := { c with hole := d.size, right := rest ++ c.right }
      have hplug : c.plug (d :: rest) = c0.plug [⟨c0.hole, false⟩] := by
        rw [← hd]
        simp [c0, Ctx.plug]
      rw [hplug] at hr
      have hole := hr.hole_ok
      have haddr : c0.addr = c.addr := rfl
      left
      rw [hu]
      refine ⟨?_, rfl⟩
      dsimp only
      rw [hbo (by omega), ← haddr]
      rcases List.eq_nil_or_concat c.left with hl | ⟨l, b, hl⟩
      · exact hr.leftFree_nil hl
      · rw [List.concat_eq_append] at hl
        rw [hr.leftFree_concat (l := l) (b := b) hl]
        exact hg.left b (by simp [hl])
    | true =>
      rw [usedFrom, hd, if_pos rfl] at hpay
      cases rest with
      | nil => cases hpay
      | cons e rest =>
        -- two free blocks are not adjacent, so the second one is the block
        have he : e.free = false := by
          have hco := hwf.coalesced
          unfold Coalesced at hco
          rw [List.append_assoc, List.isChain_append] at hco
          have h2 := hco.2.1
          rw [List.cons_append, List.cons_append, List.isChain_cons_cons] at h2
          have h3 := h2.1
          rw [hd, Bool.true_and] at h3
          exact h3
        rw [usedFrom, he, if_neg (by simp)] at hpay
        have hu : u = ⟨c.addr + d.size + 16, e.size - 16⟩ := (List.cons.inj hpay).1.symm
        let c0 : Ctx := { c with left := c.left ++ [d], hole := e.size, right := rest ++ c.right }
        have hplug : c.plug (d :: e :: rest) = c0.plug [⟨c0.hole, false⟩] := by
          rw [← he]
          simp [c0, Ctx.plug]
        have hdsz := (hwf.sizes d (by simp)).1
        rw [hplug] at hr
        have hole := hr.hole_ok
        have haddr : c0.addr = c.addr + d.size := by
          unfold Ctx.addr
          simp [c0]
          omega
        right
        rw [hu]
        dsimp only
        refine ⟨?_, by omega⟩
        rw [hbo (by omega), ← haddr, hr.leftFree_concat rfl]
        exact hd

/-- The node of a free block that has just been made: it is the first of its list, and its `next` is a
    node or null. -/
theorem insertFree_node {lists : Nat → List Nat} {m : Mem} {bins : Nat → Nat}
    (h : Rep m bins (c.plug [⟨c.hole, false⟩]) lists 0) :
    FreeNode.prev (insertFree m bins c.addr).1 (c.addr + 32) = 0 ∧
      ((insertFree m bins c.addr).1 (c.addr + 40)).toNat % 16 = 0 := by
  obtain ⟨hl, -⟩ := insertFree_linked h
  refine ⟨hl.prev, ?_⟩
  have hnext : readLE (insertFree m bins c.addr).1 (c.addr + 40) 8 = bins (binIndex c.hole) := hl.next
  have hmod := h.bins_mod (binIndex c.hole)
  rw [readLE] at hnext
  omega

/-- What the new node and the new tag do not cover is kept. -/
theorem Merged.insert_keep (hg : Merged w.mem segs u c mid m' bins') {x : Nat} (hx : Quiet segs x)
    (hnode : ¬ (c.addr + 32 ≤ x ∧ x < c.addr + 48)) :
    (insertFree m' bins' c.addr).1 x = w.mem x := by
  obtain ⟨lists, hr⟩ := hg.rep
  refine ((insertFree_rep hr (hg.coalesced)).2 x ?_).trans (hg.keep x hx)
  have hne : mid ≠ [] := by
    rintro rfl
    have := hg.payload
    cases this
  rw [hg.segs_eq] at hx
  have hq := hx.whole hne hg.total_eq
  intro p hp
  rcases c.mem_placed_single.mp hp with rfl | hp
  · exact ⟨(hq _ (c.blk_mem false)).1, fun _ => hnode⟩
  · exact hq p (Ctx.other_mem hp false)

/-- While its segment stays, `deallocate` puts the merged block into its bin. -/
theorem Merged.deallocate_kept (hg : Merged w.mem segs u c mid (mergeBlock w.mem h.bins (blockOf u.data)).2.1
      (mergeBlock w.mem h.bins (blockOf u.data)).2.2) (hok : HeapOk w h segs others)
    (hblock : (mergeBlock w.mem h.bins (blockOf u.data)).1 = c.addr) {w' : World} {h' : SegmentHeap}
    (hd : SegmentHeap.deallocate w h u.data = (w', h')) {r : Span} {y : Nat} (hr : r ∈ h'.segments)
    (hy : r.Has y) (huy : u.Has y) :
    w'.mem = (insertFree (mergeBlock w.mem h.bins (blockOf u.data)).2.1
      (mergeBlock w.mem h.bins (blockOf u.data)).2.2 c.addr).1 := by
  have hin := (hg.inside hok).has huy
  rw [deallocate_eq] at hd
  dsimp only at hd
  rw [hblock] at hd
  generalize (mergeBlock w.mem h.bins (blockOf u.data)).2.1 = m' at *
  generalize (mergeBlock w.mem h.bins (blockOf u.data)).2.2 = bins' at *
  obtain ⟨lists, hrep⟩ := hg.rep
  have htag : HasTag m' c.addr c.hole ⟨false, c.first, c.last⟩ := hrep.tags _ (c.blk_mem false)
  rw [htag.isFirst, htag.isLast] at hd
  by_cases hfl : (c.first && c.last) = true
  · rw [if_pos hfl] at hd
    obtain ⟨hf, hl⟩ := Bool.and_eq_true_iff.mp hfl
    by_cases hlen : h.segments.length ≤ 1
    · unfold releaseSegment at hd
      rw [if_pos hlen] at hd
      rw [← (Prod.mk.inj hd).1]
    · -- the segment has left the vector
      have hleft : c.left = [] := by simpa [Ctx.first] using hf
      have hright : c.right = [] := by simpa [Ctx.last] using hl
      have hspans := hg.spans_eq hok hleft hright
      have hap : h.segments.Pairwise Span.Disjoint := (List.pairwise_append.mp hok.apart).1
      rw [hg.found hok hleft hright hlen] at hd
      rw [← (Prod.mk.inj hd).2] at hr
      rw [hspans] at hap
      have hne := (List.pairwise_cons.mp (Span.pairwise_disjoint_perm List.perm_middle hap)).1 r hr
      exact absurd hy (hne.not_has hin)
  · rw [if_neg hfl] at hd
    rw [← (Prod.mk.inj hd).1]

/-- **The payload after `deallocate`**, when its segment stays: only a node of its own is new. -/
theorem deallocate_remains (hok : HeapOk w h segs others) (hu : u ∈ used segs) {w' : World}
    {h' : SegmentHeap} (hd : SegmentHeap.deallocate w h u.data = (w', h')) {r : Span} {y : Nat}
    (hr : r ∈ h'.segments) (hy : r.Has y) (huy : u.Has y) :
    (∀ x, u.Has x → leftFree w.mem (blockOf u.data) = true ∨ ¬ (u.data + 16 ≤ x ∧ x < u.data + 32) →
      w'.mem x = w.mem x) ∧
    (leftFree w.mem (blockOf u.data) = false → FreeNode.prev w'.mem (u.data + 16) = 0 ∧
      (w'.mem (u.data + 24)).toNat % 16 = 0) := by
  obtain ⟨c, mid, hblock, hg⟩ := mergeBlock_merged hok hu
  have hcases := hg.addr_cases hok
  have hmem := hg.deallocate_kept hok hblock hd hr hy huy
  rw [hmem]
  obtain ⟨lists, hrep⟩ := hg.rep
  constructor
  · intro x hx hcond
    have hq := quiet_of_used hok.layout hu hx
    apply hg.insert_keep hq
    intro hnode
    unfold Span.Has at hx
    rcases hcases with ⟨hl, hd⟩ | ⟨hl, hd⟩
    · rw [hl] at hcond
      rcases hcond with hcond | hcond
      · cases hcond
      · omega
    · omega
  · intro hleft
    rcases hcases with ⟨-, hd⟩ | ⟨hl, -⟩
    · have hnode : u.data + 16 = c.addr + 32 := by omega
      have hat : u.data + 24 = c.addr + 40 := by omega
      rw [hnode, hat]
      exact insertFree_node hrep
    · rw [hleft] at hl
      cases hl

end Remains

end MAlloc.Heap
