/-
  The medium tier has no memory of its history.

  No two neighbours are free, so what is handed out leaves one way only to cut the rest of the
  segments into blocks: a layout is determined by its segments and the payloads that are handed out
  (`Layout.perm_of_used`). Two heaps that agree in these, whatever was asked for and given back before,
  have the same blocks (`history_of_run`); and an allocation that is given back leaves the heap as it
  was (`round_trip_of_run`).
-/
import MAlloc.Heap.Fragmentation

namespace MAlloc.Heap

open Lib MediumBlock SegmentHeap SystemMemory

/-! ## One segment -/

section Blocks
variable {a : Nat} {b c : Blk} {bs bs' : List Blk} {u : Span}

theorem usedFrom_cons_used (h : b.free = false) :
    usedFrom a (b :: bs) = ⟨a + 16, b.size - 16⟩ :: usedFrom (a + b.size) bs := by
  rw [usedFrom, h, if_neg Bool.false_ne_true]

theorem usedFrom_cons_free (h : b.free = true) : usedFrom a (b :: bs) = usedFrom (a + b.size) bs := by
  rw [usedFrom, if_pos h]

/-- Payloads stand behind the tag of a block. -/
theorem le_of_mem_usedFrom (h : u ∈ usedFrom a bs) : a + 16 ≤ u.data := by
  obtain ⟨p, hp, -, rfl⟩ := (mem_usedFrom 0 true false).mp h
  exact Nat.add_le_add_right (place_within hp).1 16

/-- Behind a free block there is none, or a used one. -/
theorem Coalesced.tail_used (h : Coalesced (b :: bs)) (hb : b.free = true) :
    bs = [] ∨ ∃ c cs, bs = c :: cs ∧ c.free = false := by
  cases bs with
  | nil => exact Or.inl rfl
  | cons c cs =>
    have hc := (List.isChain_cons_cons.mp h).1
    rw [hb, Bool.true_and] at hc
    exact Or.inr ⟨c, cs, rfl, hc⟩

theorem Coalesced.tail (h : Coalesced (b :: bs)) : Coalesced bs := List.IsChain.tail h

/-- **The used blocks determine the free ones.** -/
theorem blocks_eq (hs : ∀ b ∈ bs, 48 ≤ b.size) (hs' : ∀ b ∈ bs', 48 ≤ b.size) (hc : Coalesced bs)
    (hc' : Coalesced bs') (ht : total bs = total bs') (hu : usedFrom a bs = usedFrom a bs') : bs = bs' := by
  induction bs generalizing a bs' with
  | nil =>
    cases bs' with
    | nil => rfl
    | cons b' bs' =>
      have hb' := hs' b' List.mem_cons_self
      rw [total_nil, total_cons] at ht
      omega
  | cons b bs ih =>
    have hb := hs b List.mem_cons_self
    cases bs' with
    | nil =>
      rw [total_nil, total_cons] at ht
      omega
    | cons b' bs' =>
      have hb' := hs' b' List.mem_cons_self
      rw [total_cons, total_cons] at ht
      -- the first blocks agree in kind and size; the rest is the induction hypothesis
      suffices hfirst : b = b' ∧ usedFrom (a + b.size) bs = usedFrom (a + b'.size) bs' by
        obtain ⟨rfl, hrest⟩ := hfirst
        rw [ih (fun c h => hs c (List.mem_cons_of_mem _ h)) (fun c h => hs' c (List.mem_cons_of_mem _ h))
          hc.tail hc'.tail (Nat.add_left_cancel ht) hrest]
      cases hf : b.free with
      | false =>
        rw [usedFrom_cons_used hf] at hu
        cases hf' : b'.free with
        | false =>
          rw [usedFrom_cons_used hf'] at hu
          obtain ⟨hhead, hrest⟩ := List.cons.inj hu
          have hpayload : b.size - 16 = b'.size - 16 := congrArg Span.size hhead
          have hsize : b.size = b'.size := by omega
          refine ⟨?_, hrest⟩
          cases b
          cases b'
          simp only at hf hf' hsize
          rw [hf, hf', hsize]
        | true =>
          rw [usedFrom_cons_free hf'] at hu
          have hlate := le_of_mem_usedFrom (hu ▸ List.mem_cons_self)
          simp only at hlate
          omega
      | true =>
        rw [usedFrom_cons_free hf] at hu
        cases hf' : b'.free with
        | false =>
          rw [usedFrom_cons_used hf'] at hu
          have hlate := le_of_mem_usedFrom (hu.symm ▸ List.mem_cons_self)
          simp only at hlate
          omega
        | true =>
          rw [usedFrom_cons_free hf'] at hu
          refine ⟨?_, hu⟩
          have hsize : b.size = b'.size := by
            rcases hc.tail_used hf with rfl | ⟨c, cs, rfl, hcu⟩
            · rcases hc'.tail_used hf' with rfl | ⟨c', cs', rfl, hcu'⟩
              · simpa using ht
              · rw [usedFrom_cons_used hcu'] at hu
                cases hu
            · rw [usedFrom_cons_used hcu] at hu
              rcases hc'.tail_used hf' with rfl | ⟨c', cs', rfl, hcu'⟩
              · cases hu
              · rw [usedFrom_cons_used hcu'] at hu
                have hdata : a + b.size + 16 = a + b'.size + 16 := congrArg Span.data (List.cons.inj hu).1
                omega
          cases b
          cases b'
          simp only at hf hf' hsize
          rw [hf, hf', hsize]

/-- Payloads come in the order of their addresses. -/
theorem usedFrom_sorted (a : Nat) (hs : ∀ b ∈ bs, 48 ≤ b.size) :
    (usedFrom a bs).Pairwise fun u v => u.data < v.data := by
  induction bs generalizing a with
  | nil => exact List.Pairwise.nil
  | cons b bs ih =>
    have hrest := ih (a + b.size) fun c hc => hs c (List.mem_cons_of_mem _ hc)
    have hb := hs b List.mem_cons_self
    cases hf : b.free with
    | true =>
      rw [usedFrom_cons_free hf]
      exact hrest
    | false =>
      rw [usedFrom_cons_used hf]
      refine List.pairwise_cons.mpr ⟨fun v hv => ?_, hrest⟩
      have hlate := le_of_mem_usedFrom hv
      simp only
      omega

/-- Lists in order with the same members are one list. -/
theorem eq_of_sorted {l l' : List Span} (h : l.Pairwise fun u v => u.data < v.data)
    (h' : l'.Pairwise fun u v => u.data < v.data) (hmem : ∀ u, u ∈ l ↔ u ∈ l') : l = l' := by
  have hnodup : ∀ {k : List Span}, (k.Pairwise fun u v => u.data < v.data) → k.Nodup := by
    intro k hk
    refine List.Pairwise.imp (fun {u v} huv he => ?_) hk
    rw [he] at huv
    exact Nat.lt_irrefl _ huv
  refine List.Perm.eq_of_pairwise (fun u v _ _ huv hvu => ?_) h h'
    ((List.perm_ext_iff_of_nodup (hnodup h) (hnodup h')).mpr hmem)
  exact absurd huv (Nat.lt_asymm hvu)

end Blocks

/-! ## All segments -/

section Layouts
variable {segs segs' : List Seg} {s s' : Seg}

/-- A segment's payloads are those inside it. -/
theorem mem_usedFrom_iff (h : Layout segs) (hs : s ∈ segs) {u : Span} :
    u ∈ usedFrom s.base s.blocks ↔ u ∈ used segs ∧ u.Inside s.span := by
  have hin : ∀ t ∈ segs, u ∈ usedFrom t.base t.blocks → u.Inside t.span := by
    intro t ht hu
    obtain ⟨p, hp, -, rfl⟩ := (mem_usedFrom 0 true false).mp hu
    have hw := place_within hp
    have hok := h.placed_ok (mem_placed.mpr ⟨t, ht, hp⟩)
    unfold Span.Inside PBlk.payload Seg.span
    simp only
    omega
  constructor
  · intro hu
    exact ⟨List.mem_flatMap.mpr ⟨s, hs, hu⟩, hin s hs hu⟩
  · rintro ⟨hu, his⟩
    obtain ⟨t, ht, hut⟩ := List.mem_flatMap.mp hu
    have hsize := used_size h hu
    have hap := h.apart
    rw [List.pairwise_map] at hap
    have hsymm : Std.Symm fun s t : Seg => s.span.Disjoint t.span := ⟨fun _ _ h => h.symm⟩
    by_cases hst : s = t
    · exact hst ▸ hut
    · have hd := hap.forall hs ht hst
      have hit := hin t ht hut
      unfold Span.Disjoint Span.Inside at *
      omega

theorem seg_eq (h : Layout segs) (h' : Layout segs') (hu : ∀ u, u ∈ used segs ↔ u ∈ used segs') (hs : s ∈ segs)
    (hs' : s' ∈ segs') (hspan : s.span = s'.span) : s = s' := by
  have hbase : s.base = s'.base := congrArg Span.data hspan
  have htotal : total s.blocks = total s'.blocks := congrArg Span.size hspan
  have hsizes : ∀ b ∈ s.blocks, 48 ≤ b.size := fun b hb => ((h.wf s hs).sizes b hb).1
  have hsizes' : ∀ b ∈ s'.blocks, 48 ≤ b.size := fun b hb => ((h'.wf s' hs').sizes b hb).1
  have hsame : usedFrom s.base s.blocks = usedFrom s.base s'.blocks := by
    refine eq_of_sorted (usedFrom_sorted _ hsizes) (usedFrom_sorted _ hsizes') fun u => ?_
    rw [mem_usedFrom_iff h hs, hbase, mem_usedFrom_iff h' hs', hspan, hu u]
  have hblocks := blocks_eq hsizes hsizes' (h.wf s hs).coalesced (h'.wf s' hs').coalesced htotal hsame
  cases s
  cases s'
  simp only at hbase hblocks
  rw [hbase, hblocks]

theorem Layout.seg_nodup (h : Layout segs) : segs.Nodup := by
  refine List.Nodup.of_map Seg.span (Span.nodup_of_pairwise h.apart fun r hr => ?_)
  obtain ⟨s, hs, rfl⟩ := List.mem_map.mp hr
  have hwf := h.wf s hs
  obtain ⟨b, hb⟩ := List.exists_mem_of_ne_nil _ hwf.ne_nil
  have hsize := (hwf.sizes b hb).1
  have hle : b.size ≤ total s.blocks := List.single_le_sum (fun _ _ => Nat.zero_le _) _ (List.mem_map_of_mem hb)
  unfold Seg.span
  simp only
  omega

/-- **The segments and the payloads determine the layout.** -/
theorem Layout.perm_of_used (h : Layout segs) (h' : Layout segs') (hu : ∀ u, u ∈ used segs ↔ u ∈ used segs')
    (hspans : (segs.map Seg.span).Perm (segs'.map Seg.span)) : segs.Perm segs' := by
  refine (List.perm_ext_iff_of_nodup h.seg_nodup h'.seg_nodup).mpr fun s => ⟨fun hs => ?_, fun hs => ?_⟩
  · obtain ⟨s', hs', hspan⟩ := List.mem_map.mp (hspans.mem_iff.mp (List.mem_map_of_mem hs))
    exact seg_eq h h' hu hs hs' hspan.symm ▸ hs'
  · obtain ⟨s', hs', hspan⟩ := List.mem_map.mp (hspans.mem_iff.mpr (List.mem_map_of_mem hs))
    exact seg_eq h h' hu hs' hs hspan ▸ hs'

end Layouts

/-! ## Heaps -/

/-- Two heaps with the same blocks, in whatever order, and so the same answer to what fits. -/
structure SameBlocks (s s' : HeapSys) : Prop where
  blocks : (blockTable s.world.mem s.heap).Perm (blockTable s'.world.mem s'.heap)
  fits : ∀ t, findFit s.world.mem s.heap t = none ↔ findFit s'.world.mem s'.heap t = none
  fragmentation : externalFragmentation s.world.mem s.heap = externalFragmentation s'.world.mem s'.heap

section Heaps
variable {w w' : World} {h h' : SegmentHeap} {segs segs' : List Seg} {others others' : List Span}

theorem sameBlocks_of_perm {s s' : HeapSys} (hok : HeapOk s.world s.heap segs others)
    (hok' : HeapOk s'.world s'.heap segs' others') (hp : segs.Perm segs') : SameBlocks s s' := by
  have hblocks : (blockTable s.world.mem s.heap).Perm (blockTable s'.world.mem s'.heap) := by
    rw [hok.blockTable_eq, hok'.blockTable_eq]
    exact hp.flatMap_right _
  refine ⟨hblocks, fun t => ?_, ?_⟩
  · rw [hok.findFit_none_iff, hok'.findFit_none_iff]
    unfold NoFit
    simp only [hblocks.mem_iff]
  · have hrows : (freeRows s.world.mem s.heap).Perm (freeRows s'.world.mem s'.heap) :=
      (hblocks.filter _).map _
    rw [hok.externalFragmentation_eq, hok'.externalFragmentation_eq]
    unfold scattered
    rw [hrows.sum_eq, largest_perm hrows]

/-- A free takes at most one segment out, and not the last. -/
theorem deallocate_segments (w : World) (h : SegmentHeap) (payload : Nat) :
    (SegmentHeap.deallocate w h payload).2.segments = h.segments ∨ 1 < h.segments.length ∧
      ∃ q ∈ h.segments, (SegmentHeap.deallocate w h payload).2.segments = h.segments.erase q := by
  rw [deallocate_eq]
  generalize mergeBlock w.mem h.bins (blockOf payload) = r
  dsimp only
  split
  · unfold releaseSegment
    dsimp only
    split
    · exact Or.inl rfl
    case isFalse hlen =>
      split
      case h_1 q hq => exact Or.inr ⟨Nat.lt_of_not_le hlen, q, List.mem_of_find?_eq_some hq, rfl⟩
      case h_2 => exact Or.inl rfl
  · exact Or.inl rfl

theorem serve_segments (w : World) (h : SegmentHeap) (block t : Nat) :
    (serve w h block t).2.2.segments = h.segments := rfl

/-- A request that finds a block maps no segment. -/
theorem allocate_segments {bytes : Nat} (hfit : findFit w.mem h (totalFor bytes) ≠ none) :
    (SegmentHeap.allocate w h bytes).2.2.segments = h.segments := by
  obtain ⟨block, hblock⟩ := Option.ne_none_iff_exists'.mp hfit
  by_cases hbig : kSegmentSize < totalFor bytes
  · have he : SegmentHeap.allocate w h bytes = (none, w, h) := by
      unfold SegmentHeap.allocate
      rw [if_pos hbig]
    rw [he]
  · rw [allocate_of_some hbig hblock]
    exact serve_segments _ _ _ _

theorem heapStep_allocate {s s' : HeapSys} {bytes p : Nat}
    (hp : (SegmentHeap.allocate s.world s.heap bytes).1 = some p) (hs : heapStep s (.allocate bytes) = some s') :
    s'.heap = (SegmentHeap.allocate s.world s.heap bytes).2.2 ∧ ∃ n, s'.handed = ⟨p, n⟩ :: s.handed := by
  unfold heapStep at hs
  dsimp only at hs
  generalize SegmentHeap.allocate s.world s.heap bytes = r at *
  obtain ⟨o, w, h⟩ := r
  cases hp
  cases hs
  exact ⟨rfl, _, rfl⟩

/-- The payload that was handed out last is given back. -/
theorem heapStep_deallocate {s s' : HeapSys} {u : Span} {l : List Span} (hl : s.handed = u :: l)
    (hs : heapStep s (.deallocate u.data) = some s') :
    s'.heap = (SegmentHeap.deallocate s.world s.heap u.data).2 ∧ s'.handed = l := by
  have hfind : (u :: l).find? (fun v => decide (v.data = u.data)) = some u :=
    List.find?_cons_of_pos (decide_eq_true rfl)
  unfold heapStep at hs
  dsimp only at hs
  generalize SegmentHeap.deallocate s.world s.heap u.data = r at *
  rw [hl, hfind] at hs
  dsimp only at hs
  rw [List.erase_cons_head] at hs
  cases hs
  exact ⟨rfl, rfl⟩

/-- A segment whose payloads stay live elsewhere has none, so it was not one of several. -/
theorem not_erased (hok : HeapOk w h segs others) (hret : Retained segs) (hok' : HeapOk w' h' segs' others')
    (hu : ∀ u, u ∈ used segs → u ∈ used segs') {q : Span} (hq : q ∈ h.segments) (hlen : 1 < h.segments.length)
    (he : h'.segments = h.segments.erase q) : False := by
  rw [hok.spans, List.length_map] at hlen
  rw [hok.spans] at hq
  obtain ⟨s, hs, rfl⟩ := List.mem_map.mp hq
  obtain ⟨u, hus⟩ := List.exists_mem_of_ne_nil _ (busy_iff_used.mp (hret hlen s hs))
  obtain ⟨huin, hin⟩ := (mem_usedFrom_iff hok.layout hs).mp hus
  obtain ⟨t, ht, hut⟩ := used_inside hok'.layout (hu u huin)
  have hsize := used_size hok.layout huin
  have hmem : t.span ∈ h.segments.erase s.span := by
    rw [← he, hok'.spans]
    exact List.mem_map_of_mem ht
  have hap : h.segments.Pairwise Span.Disjoint := (List.pairwise_append.mp hok.apart).1
  have hnodup : h.segments.Nodup := Span.nodup_of_pairwise hap fun r hr =>
    (hok.world.pos r (hok.mapped.mem_iff.mpr (List.mem_append_left _ hr))).2
  obtain ⟨hne, htin⟩ := hnodup.mem_erase_iff.mp hmem
  have hsin : s.span ∈ h.segments := by
    rw [hok.spans]
    exact List.mem_map_of_mem hs
  have hd := hap.forall hsin htin hne.symm
  unfold Span.Disjoint Span.Inside at *
  omega

end Heaps

/-! ## Runs -/

/-- **The heap has no memory of its history.** After any two runs, of whatever requests in whatever
    order over whatever memory, heaps with the same segments and the same payloads handed out have the
    same blocks: the same requests fit, and the fragmentation is the same. -/
theorem history_of_run {w w' : World} (hw : w.Ok) (hw' : w'.Ok) {calls calls' : List HeapCall}
    {s s' : HeapSys} (hrun : heapRun w calls = some s) (hrun' : heapRun w' calls' = some s')
    (hsegments : s.heap.segments.Perm s'.heap.segments) (hhanded : s.handed.Perm s'.handed) :
    SameBlocks s s' := by
  obtain ⟨segs, hok, -, hu⟩ := heapReached_of_run hw hrun
  obtain ⟨segs', hok', -, hu'⟩ := heapReached_of_run hw' hrun'
  refine sameBlocks_of_perm hok hok' (hok.layout.perm_of_used hok'.layout (fun u => ?_) ?_)
  · rw [hu.mem_iff, hhanded.mem_iff, hu'.mem_iff]
  · rw [← hok.spans, ← hok'.spans]
    exact hsegments

/-- Three blocks, and the middle one is given back. -/
def gapCalls : List HeapCall := [.allocate 1000, .allocate 2000, .allocate 3000, .deallocate 66576]

/-- The middle was two blocks. -/
def splitCalls : List HeapCall :=
  [.allocate 1000, .allocate 500, .allocate 1472, .allocate 3000, .deallocate 67104, .deallocate 66576]

theorem history_of_run_gap : ∃ s s', heapRun smallWorld gapCalls = some s ∧
    heapRun smallWorld splitCalls = some s' ∧ s.handed = [⟨68592, 3008⟩, ⟨65552, 1008⟩] ∧ SameBlocks s s' := by
  have hfacts : (heapRun smallWorld gapCalls).map (fun s => (s.handed, s.heap.segments)) =
      some ([⟨68592, 3008⟩, ⟨65552, 1008⟩], [⟨65536, 4194304⟩]) := by decide +kernel
  have hfacts' : (heapRun smallWorld splitCalls).map (fun s => (s.handed, s.heap.segments)) =
      some ([⟨68592, 3008⟩, ⟨65552, 1008⟩], [⟨65536, 4194304⟩]) := by decide +kernel
  obtain ⟨s, hs, hf⟩ := Option.map_eq_some_iff.mp hfacts
  obtain ⟨s', hs', hf'⟩ := Option.map_eq_some_iff.mp hfacts'
  obtain ⟨hh, hseg⟩ := Prod.mk.inj hf
  obtain ⟨hh', hseg'⟩ := Prod.mk.inj hf'
  exact ⟨s, s', hs, hs', hh, history_of_run smallWorld_ok smallWorld_ok hs hs'
    (List.Perm.of_eq (hseg.trans hseg'.symm)) (List.Perm.of_eq (hh.trans hh'.symm))⟩

/-- **An allocation that is given back leaves the heap as it was**, if no segment had to be mapped
    for it. -/
theorem round_trip_of_run {w : World} (hw : w.Ok) {calls : List HeapCall} {s s₁ s₂ : HeapSys}
    (hrun : heapRun w calls = some s) {bytes p : Nat}
    (hp : (SegmentHeap.allocate s.world s.heap bytes).1 = some p)
    (hfit : findFit s.world.mem s.heap (totalFor bytes) ≠ none)
    (halloc : heapStep s (.allocate bytes) = some s₁) (hfree : heapStep s₁ (.deallocate p) = some s₂) :
    s₂.heap.segments = s.heap.segments ∧ s₂.handed = s.handed ∧ SameBlocks s s₂ := by
  obtain ⟨segs, hok, hret, hu⟩ := heapReached_of_run hw hrun
  obtain ⟨segs₂, hok₂, -, hu₂⟩ :=
    heapStep_reached s₁ _ s₂ (heapStep_reached s _ s₁ ⟨segs, hok, hret, hu⟩ halloc) hfree
  obtain ⟨hheap₁, n, hhanded₁⟩ := heapStep_allocate hp halloc
  obtain ⟨hheap₂, hhanded₂⟩ := heapStep_deallocate (u := ⟨p, n⟩) hhanded₁ hfree
  have hsegments₁ : s₁.heap.segments = s.heap.segments := by
    rw [hheap₁]
    exact allocate_segments hfit
  have hsame : ∀ v, v ∈ used segs ↔ v ∈ used segs₂ := by
    intro v
    rw [hu.mem_iff, hu₂.mem_iff, hhanded₂]
  have hsegments : s₂.heap.segments = s.heap.segments := by
    rcases deallocate_segments s₁.world s₁.heap p with hkeep | ⟨hlen, q, hq, herase⟩
    · rw [hheap₂, ← hsegments₁]
      exact hkeep
    · rw [hsegments₁] at hlen hq herase
      have hlost : s₂.heap.segments = s.heap.segments.erase q := by
        rw [hheap₂]
        exact herase
      exact (not_erased hok hret hok₂ (fun v hv => (hsame v).mp hv) hq hlen hlost).elim
  refine ⟨hsegments, hhanded₂, sameBlocks_of_perm hok hok₂ (hok.layout.perm_of_used hok₂.layout hsame ?_)⟩
  rw [← hok.spans, ← hok₂.spans, hsegments]

/-- Into the gap and out again. -/
theorem round_trip_of_run_gap : ∃ s s₁ s₂, heapRun smallWorld gapCalls = some s ∧
    heapStep s (.allocate 600) = some s₁ ∧ heapStep s₁ (.deallocate 66576) = some s₂ ∧ SameBlocks s s₂ := by
  have hfacts : (heapRun smallWorld gapCalls).map (fun s =>
      ((SegmentHeap.allocate s.world s.heap 600).1, findFit s.world.mem s.heap (totalFor 600),
        ((heapStep s (.allocate 600)).bind fun s₁ => heapStep s₁ (.deallocate 66576)).isSome)) =
      some (some 66576, some 66560, true) := by decide +kernel
  obtain ⟨s, hs, hf⟩ := Option.map_eq_some_iff.mp hfacts
  obtain ⟨hp, hf⟩ := Prod.mk.inj hf
  obtain ⟨hfit, hstep⟩ := Prod.mk.inj hf
  obtain ⟨s₂, hs₂⟩ := Option.isSome_iff_exists.mp hstep
  obtain ⟨s₁, hs₁, hs₂⟩ := Option.bind_eq_some_iff.mp hs₂
  have hsome : findFit s.world.mem s.heap (totalFor 600) ≠ none := by
    rw [hfit]
    exact Option.some_ne_none _
  exact ⟨s, s₁, s₂, hs, hs₁, hs₂, (round_trip_of_run smallWorld_ok hs hp hsome hs₁ hs₂).2.2⟩

end MAlloc.Heap
