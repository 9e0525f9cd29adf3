/-
  What the medium tier has handed out, and the first-fit search.

  `used segs` are the payload spans of the blocks that are not free, in address order inside
  each segment; an edit of a hole changes `used` by what fills the hole (`Ctx.used_plug`). Bytes
  of a used payload, and bytes outside the segments, are quiet: no step of the heap writes them.

  `findFit` walks the bins in memory. On a represented heap a walk visits exactly the nodes of
  the bin and stops at the null link before the fuel runs out (`Rep.binNodes_eq`), so the search
  returns a free block that fits, and fails only when none does.
-/
import MAlloc.Heap.Edit
import Mathlib.Data.Nat.Size

namespace MAlloc.Heap

open Lib MediumBlock SegmentHeap

/-! ## Handed-out payloads -/

/-- The payloads of the used blocks of `bs`, the first block being at `a`. -/
def usedFrom (a : Nat) : List Blk → List Span
  | [] => []
  | b :: bs =>
    if b.free then usedFrom (a + b.size) bs
    else ⟨a + 16, b.size - 16⟩ :: usedFrom (a + b.size) bs

def used (segs : List Seg) : List Span := segs.flatMap fun s => usedFrom s.base s.blocks

theorem usedFrom_append (a : Nat) (l r : List Blk) :
    usedFrom a (l ++ r) = usedFrom a l ++ usedFrom (a + total l) r := by
  induction l generalizing a with
  | nil => simp [usedFrom]
  | cons b l ih =>
    simp only [List.cons_append, usedFrom, ih, total_cons, Nat.add_assoc]
    split <;> rfl

theorem mem_usedFrom {a : Nat} {bs : List Blk} {u : Span} (prev : Nat) (first more : Bool) :
    u ∈ usedFrom a bs ↔ ∃ p ∈ place a prev first more bs, p.flags.free = false ∧ p.payload = u := by
  induction bs generalizing a prev first with
  | nil => simp [usedFrom, place]
  | cons b bs ih =>
    rw [usedFrom, place, List.exists_mem_cons_iff, ← ih]
    cases hb : b.free with
    | true => simp
    | false =>
      simp only [Bool.false_eq_true, if_false, List.mem_cons, true_and, PBlk.payload]
      exact or_congr_left eq_comm

theorem mem_used {segs : List Seg} {u : Span} :
    u ∈ used segs ↔ ∃ p ∈ placed segs, p.flags.free = false ∧ p.payload = u := by
  unfold used
  rw [List.mem_flatMap]
  constructor
  · rintro ⟨s, hs, hu⟩
    obtain ⟨p, hp, h⟩ := (mem_usedFrom 0 true false).mp hu
    exact ⟨p, mem_placed.mpr ⟨s, hs, hp⟩, h⟩
  · rintro ⟨p, hp, h⟩
    obtain ⟨s, hs, hps⟩ := mem_placed.mp hp
    exact ⟨s, hs, (mem_usedFrom _ _ _).mpr ⟨p, hps, h⟩⟩

/-- The payloads outside a hole do not depend on the filling. -/
theorem Ctx.used_plug (c : Ctx) : ∃ X Y, ∀ mid, total mid = c.hole →
    used (c.plug mid) = X ++ (usedFrom c.addr mid ++ Y) := by
  refine ⟨used c.before ++ usedFrom c.base c.left,
    usedFrom (c.addr + c.hole) c.right ++ used c.after, fun mid ht => ?_⟩
  unfold used Ctx.plug
  rw [List.flatMap_append, List.flatMap_cons]
  simp only [usedFrom_append, List.append_assoc, ht, Ctx.addr, Nat.add_assoc]

/-- Two fillings, one with one payload more. -/
theorem Ctx.used_perm {c : Ctx} {mid mid' : List Blk} {u : Span} (h : total mid = c.hole)
    (h' : total mid' = c.hole) (hu : usedFrom c.addr mid = [u]) (hu' : usedFrom c.addr mid' = []) :
    (used (c.plug mid)).Perm (u :: used (c.plug mid')) := by
  obtain ⟨X, Y, hXY⟩ := c.used_plug
  rw [hXY mid h, hXY mid' h', hu, hu']
  exact List.perm_middle

theorem used_pairwise {segs : List Seg} (h : Layout segs) : (used segs).Pairwise Span.Disjoint := by
  unfold used
  refine List.pairwise_flatMap.mpr ⟨fun s hs => ?_, ?_⟩
  · have hsz := (h.wf s hs).sizes
    generalize s.blocks = bs at hsz
    generalize s.base = a
    clear hs
    induction bs generalizing a with
    | nil => exact List.Pairwise.nil
    | cons b bs ih =>
      have hb := hsz b List.mem_cons_self
      have hbs := fun a => ih (fun d hd => hsz d (List.mem_cons_of_mem _ hd)) a
      unfold usedFrom
      split
      · exact hbs _
      · refine List.pairwise_cons.mpr ⟨fun u hu => ?_, hbs _⟩
        obtain ⟨p, hp, -, rfl⟩ := (mem_usedFrom 0 true false).mp hu
        have := (place_within hp).1
        unfold Span.Disjoint PBlk.payload
        simp only
        omega
  · refine (List.pairwise_map.mp h.apart).imp fun {s t} hst u hu v hv => ?_
    obtain ⟨p, hp, -, rfl⟩ := (mem_usedFrom 0 true false).mp hu
    obtain ⟨q, hq, -, rfl⟩ := (mem_usedFrom 0 true false).mp hv
    have := (Seg.placed_within hp).disjoint (Seg.placed_within hq) hst
    unfold Span.Disjoint PBlk.span PBlk.payload at *
    simp only at this ⊢
    omega

theorem used_size {segs : List Seg} (h : Layout segs) {u : Span} (hu : u ∈ used segs) : 32 ≤ u.size := by
  obtain ⟨p, hp, -, rfl⟩ := mem_used.mp hu
  have := h.placed_ok hp
  unfold PBlk.payload
  simp only
  omega

/-- A used payload lies inside its segment. -/
theorem used_inside {segs : List Seg} (h : Layout segs) {u : Span} (hu : u ∈ used segs) :
    ∃ s ∈ segs, u.Inside s.span := by
  obtain ⟨p, hp, -, rfl⟩ := mem_used.mp hu
  have hok := h.placed_ok hp
  obtain ⟨s, hs, hps⟩ := mem_placed.mp hp
  refine ⟨s, hs, Span.Inside.trans ?_ (Seg.placed_within hps)⟩
  unfold Span.Inside PBlk.payload PBlk.span
  simp only
  omega

/-- No step writes into a payload that is handed out. -/
theorem quiet_of_used {segs : List Seg} (h : Layout segs) {u : Span} (hu : u ∈ used segs) {x : Nat}
    (hx : u.Has x) : Quiet segs x := by
  obtain ⟨p, hp, hpf, rfl⟩ := mem_used.mp hu
  have hokp := h.placed_ok hp
  unfold Span.Has PBlk.payload at hx
  simp only at hx
  intro q hq
  have hokq := h.placed_ok hq
  unfold PBlk.node
  rcases h.eq_or_apart hp hq with rfl | ha
  · exact ⟨by omega, fun hf => by rw [hpf] at hf; cases hf⟩
  · exact ⟨by omega, fun _ => by omega⟩

/-- No step writes outside the segments. -/
theorem quiet_of_outside {segs : List Seg} (h : Layout segs) {x : Nat}
    (hx : ∀ s ∈ segs, ¬ s.span.Has x) : Quiet segs x := by
  intro q hq
  have hokq := h.placed_ok hq
  obtain ⟨s, hs, hqs⟩ := mem_placed.mp hq
  have h1 := hx s hs
  have h2 : ¬ q.span.Has x := fun h => h1 ((Seg.placed_within hqs).has h)
  unfold Span.Has PBlk.span at h2
  simp only at h2
  unfold PBlk.node
  exact ⟨by omega, fun _ => by omega⟩

/-! ## The walk along a bin -/

theorem binNodes_of_chain {m : Mem} {fuel node : Nat} {ns : List Nat}
    (hc : Chain (FreeNode.next m) node ns) (hf : ns.length ≤ fuel) :
    binNodes m fuel node = ns := by
  induction fuel generalizing node ns with
  | zero =>
    cases ns with
    | nil => rfl
    | cons n ns => simp at hf
  | succ fuel ih =>
    cases ns with
    | nil =>
      have : node = 0 := hc
      simp [binNodes, this]
    | cons n ns =>
      obtain ⟨rfl, h0, ht⟩ := hc
      rw [binNodes, if_neg h0, ih ht (by simpa using hf)]

theorem place_length (a prev : Nat) (first more : Bool) (bs : List Blk) :
    (place a prev first more bs).length = bs.length := by
  induction bs generalizing a prev first with
  | nil => rfl
  | cons b bs ih => simp [place, ih]

theorem length_le_total {bs : List Blk} (h : ∀ b ∈ bs, 48 ≤ b.size) : bs.length * 48 ≤ total bs := by
  induction bs with
  | nil => simp
  | cons b bs ih =>
    have h1 := h b List.mem_cons_self
    have h2 := ih fun d hd => h d (List.mem_cons_of_mem _ hd)
    rw [List.length_cons, total_cons]
    omega

theorem placed_length_le {segs : List Seg} (h : Layout segs) :
    (placed segs).length ≤ ((segs.map Seg.span).map Span.size).sum / 48 := by
  rw [Nat.le_div_iff_mul_le (by decide)]
  have hwf := h.wf
  clear h
  induction segs with
  | nil => simp [placed]
  | cons s segs ih =>
    have h1 := length_le_total fun b hb => ((hwf s List.mem_cons_self).sizes b hb).1
    have h2 := ih fun t ht => hwf t (List.mem_cons_of_mem _ ht)
    have h3 : (placed (s :: segs)).length = s.blocks.length + (placed segs).length := by
      unfold placed Seg.placed
      rw [List.flatMap_cons, List.length_append, place_length]
    have h4 : (((s :: segs).map Seg.span).map Span.size).sum =
        total s.blocks + ((segs.map Seg.span).map Span.size).sum := by
      simp [Seg.span]
    rw [h3, h4]
    omega

section Fit
variable {m : Mem} {h : SegmentHeap} {segs : List Seg} {lists : Nat → List Nat}

/-- A bin has no more nodes than the segments hold smallest blocks. -/
theorem Rep.length_le_fuel (hr : Rep m h.bins segs lists 0) (hs : h.segments = segs.map Seg.span)
    (i : Nat) : (lists i).length ≤ h.fuel := by
  have hsub : lists i ⊆ (placed segs).map PBlk.node := by
    intro n hn
    obtain ⟨p, hp, hpn, -, -⟩ := (hr.mem_lists i n).mp hn
    exact List.mem_map.mpr ⟨p, hp, hpn⟩
  have h1 := ((hr.bin i).chain.nodup.subperm hsub).length_le
  rw [List.length_map] at h1
  unfold SegmentHeap.fuel
  rw [hs]
  exact h1.trans (placed_length_le hr.layout)

/-- **A walk along a bin ends**, and visits the nodes of the bin. -/
theorem Rep.binNodes_eq (hr : Rep m h.bins segs lists 0) (hs : h.segments = segs.map Seg.span)
    (i : Nat) : binNodes m h.fuel (h.bins i) = lists i :=
  binNodes_of_chain (hr.bin i).chain (hr.length_le_fuel hs i)

theorem blockOfNode_node {p : PBlk} (h : p.addr + 32 < 2 ^ 64) : blockOfNode p.node = p.addr := by
  unfold blockOfNode PBlk.node
  rw [ptrSub_eq (show 32 ≤ p.addr + 32 by omega) h]
  exact Nat.add_sub_cancel _ _

/-- The blocks a walk along bin `i` offers are the free blocks of that bin. -/
theorem Rep.mem_bin_blocks (hr : Rep m h.bins segs lists 0) (hs : h.segments = segs.map Seg.span)
    {i a : Nat} : a ∈ (binNodes m h.fuel (h.bins i)).map blockOfNode ↔
      ∃ p ∈ placed segs, p.addr = a ∧ p.flags.free = true ∧ binIndex p.size = i := by
  rw [hr.binNodes_eq hs, List.mem_map]
  constructor
  · rintro ⟨n, hn, rfl⟩
    obtain ⟨p, hp, rfl, hpf, hpi⟩ := (hr.mem_lists i n).mp hn
    have hok := hr.layout.placed_ok hp
    exact ⟨p, hp, (blockOfNode_node (by omega)).symm, hpf, hpi⟩
  · rintro ⟨p, hp, rfl, hpf, hpi⟩
    have hok := hr.layout.placed_ok hp
    exact ⟨p.node, (hr.mem_lists i _).mpr ⟨p, hp, rfl, hpf, hpi⟩, blockOfNode_node (by omega)⟩

theorem binIndex_mono {a b : Nat} (hab : a ≤ b) : binIndex a ≤ binIndex b := by
  have := Nat.size_le_size hab
  unfold binIndex
  split <;> split <;> omega

theorem binIndex_lt (a : Nat) : binIndex a < 18 := by
  unfold binIndex
  change min _ 17 < 18
  omega

/-- `findFit` returns a free block that is large enough. -/
theorem Rep.findFit_some (hr : Rep m h.bins segs lists 0) (hs : h.segments = segs.map Seg.span)
    {t a : Nat} (hf : findFit m h t = some a) :
    ∃ p ∈ placed segs, p.addr = a ∧ p.flags.free = true ∧ t ≤ p.size := by
  unfold findFit at hf
  obtain ⟨i, -, hi⟩ := List.exists_of_findSome?_eq_some hf
  obtain ⟨p, hp, rfl, hpf, -⟩ := (hr.mem_bin_blocks hs).mp (List.mem_of_find?_eq_some hi)
  have hsz := List.find?_some hi
  simp only [decide_eq_true_eq, (hr.tags p hp).size] at hsz
  exact ⟨p, hp, rfl, hpf, hsz⟩

/-- `findFit` fails only when no free block is large enough. -/
theorem Rep.findFit_none (hr : Rep m h.bins segs lists 0) (hs : h.segments = segs.map Seg.span)
    {t : Nat} (hf : findFit m h t = none) {p : PBlk} (hp : p ∈ placed segs)
    (hpf : p.flags.free = true) : p.size < t := by
  unfold findFit at hf
  rw [List.findSome?_eq_none_iff] at hf
  by_contra hle
  have h1 := binIndex_mono (Nat.not_lt.mp hle)
  have h2 := binIndex_lt p.size
  have h3 := hf (binIndex p.size) (List.mem_range'_1.mpr
    ⟨h1, show binIndex p.size < binIndex t + (18 - binIndex t) by omega⟩)
  rw [List.find?_eq_none] at h3
  have h4 := h3 p.addr ((hr.mem_bin_blocks hs).mpr ⟨p, hp, rfl, hpf, rfl⟩)
  rw [decide_eq_true_eq, (hr.tags p hp).size] at h4
  exact hle (Nat.not_le.mp h4)

end Fit

end MAlloc.Heap
