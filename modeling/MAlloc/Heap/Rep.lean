/-
  The representation invariant of the medium tier and what one edit does to it.

  `Rep m bins segs lists stale`: memory `m` and the bin heads represent the layout `segs`, the
  bin lists being `lists` (node addresses). Every placed block has its tag in memory and every
  block but the one at `stale` its `prevSize`; every bin is a doubly-linked list; and `lists i`
  is exactly the nodes of the free blocks of bin `i`. `stale` is the address whose `prevSize`
  is about to be written inside `deallocate` (0 when there is none).

  The edits:
  * `Rep.refill`: the blocks of a hole are replaced, none of them free before or after;
  * `removeFree_rep`, `insertFree_rep`: one block leaves or joins its bin;
  * `Rep.addSeg`, `Rep.eraseSeg`: a segment comes or goes.
-/
import MAlloc.Heap.Layout
import MAlloc.Lib.Cells
import MAlloc.Lib.Links

namespace MAlloc.Heap

open Lib MediumBlock SegmentHeap

structure Rep (m : Mem) (bins : Nat → Nat) (segs : List Seg) (lists : Nat → List Nat)
    (stale : Nat) : Prop where
  layout : Layout segs
  tags : ∀ p ∈ placed segs, HasTag m p.addr p.size p.flags
  prevs : ∀ p ∈ placed segs, p.addr ≠ stale → prevSize m p.addr = p.prev
  bin : ∀ i, DList (FreeNode.prev m) (FreeNode.next m) 0 (bins i) (lists i)
  mem_lists : ∀ i n, n ∈ lists i ↔
    ∃ p ∈ placed segs, p.node = n ∧ p.flags.free = true ∧ binIndex p.size = i

section Facts
variable {m m' : Mem} {bins : Nat → Nat} {segs : List Seg} {lists : Nat → List Nat} {stale : Nat}

theorem Rep.nodes_apart (h : Rep m bins segs lists stale) {i j n n' : Nat} (hn : n ∈ lists i)
    (hn' : n' ∈ lists j) : n = n' ∨ n + 16 ≤ n' ∨ n' + 16 ≤ n := by
  obtain ⟨p, hp, rfl, -, -⟩ := (h.mem_lists i n).mp hn
  obtain ⟨q, hq, rfl, -, -⟩ := (h.mem_lists j n').mp hn'
  have h1 := h.layout.placed_ok hp
  have h2 := h.layout.placed_ok hq
  unfold PBlk.node
  rcases h.layout.eq_or_apart hp hq with rfl | h | h <;> omega

theorem Rep.node_tag_apart (h : Rep m bins segs lists stale) {i n : Nat} (hn : n ∈ lists i)
    {q : PBlk} (hq : q ∈ placed segs) : n + 16 ≤ q.addr ∨ q.addr + 16 ≤ n := by
  obtain ⟨p, hp, rfl, -, -⟩ := (h.mem_lists i n).mp hn
  have h1 := h.layout.placed_ok hp
  have h2 := h.layout.placed_ok hq
  unfold PBlk.node
  rcases h.layout.eq_or_apart hp hq with rfl | h | h <;> omega

/-- A node is in one bin only. -/
theorem Rep.bin_unique (h : Rep m bins segs lists stale) {i j n : Nat} (hi : n ∈ lists i)
    (hj : n ∈ lists j) : i = j := by
  obtain ⟨p, hp, hpn, -, hpi⟩ := (h.mem_lists i n).mp hi
  obtain ⟨q, hq, hqn, -, hqj⟩ := (h.mem_lists j n).mp hj
  unfold PBlk.node at hpn hqn
  have e : p = q := h.layout.eq_of_addr hp hq (by omega)
  rw [← hpi, ← hqj, e]

/-- Links outside the changed bytes keep every bin. -/
theorem Rep.bin_congr (h : Rep m bins segs lists stale)
    (hm : ∀ i, ∀ n ∈ lists i, SameOn m m' n 16) (i : Nat) :
    DList (FreeNode.prev m') (FreeNode.next m') 0 (bins i) (lists i) :=
  (h.bin i).congr (fun n hn => readLE_congr ((hm i n hn).mono (by omega) (by omega)))
    fun n hn => readLE_congr ((hm i n hn).mono (by omega) (by omega))

/-- The invariant reads the tags of the blocks and the nodes of the free ones, nothing else. -/
theorem Rep.congr (h : Rep m bins segs lists stale)
    (ht : ∀ p ∈ placed segs, SameOn m m' p.addr 16)
    (hn : ∀ p ∈ placed segs, p.flags.free = true → SameOn m m' p.node 16) :
    Rep m' bins segs lists stale where
  layout := h.layout
  tags p hp := (h.tags p hp).congr ((ht p hp).mono (by omega) (by omega))
  prevs p hp hst :=
    (readLE_congr ((ht p hp).mono (by omega) (by omega))).trans (h.prevs p hp hst)
  bin := h.bin_congr fun i n hni => by
    obtain ⟨p, hp, rfl, hpf, -⟩ := (h.mem_lists i n).mp hni
    exact hn p hp hpf
  mem_lists := h.mem_lists

end Facts

/-! ## Replacing used blocks -/

section Refill
variable {m m' : Mem} {bins : Nat → Nat} {lists : Nat → List Nat} {stale stale' : Nat}

/-- The bytes outside the hole and the `prevSize` right after it are kept. -/
def KeptOutside (c : Ctx) (m m' : Mem) : Prop :=
  ∀ x, ¬ (c.addr ≤ x ∧ x < c.addr + c.hole) →
    ¬ (c.last = false ∧ c.addr + c.hole + 8 ≤ x ∧ x < c.addr + c.hole + 16) → m' x = m x

theorem place_used {a prev : Nat} {first more : Bool} {bs : List Blk}
    (hu : ∀ b ∈ bs, b.free = false) {p : PBlk} (hp : p ∈ place a prev first more bs) :
    p.flags.free = false := by
  obtain ⟨l, b, r, rfl, rfl⟩ := mem_place hp
  exact hu b (by simp)

/-- **Replace used blocks by used blocks.** The lists are untouched: no block of the hole has a
    node before or after. -/
theorem Rep.refill {c : Ctx} {mid mid' : List Blk} (h : Rep m bins (c.plug mid) lists stale)
    (hm : mid ≠ []) (ht : total mid = c.hole) (hu : ∀ b ∈ mid, b.free = false)
    (hm' : mid' ≠ []) (ht' : total mid' = c.hole)
    (hs' : ∀ b ∈ mid', b.free = false ∧ 48 ≤ b.size ∧ b.size % 16 = 0)
    (hout : KeptOutside c m m')
    (htags : ∀ p ∈ place c.addr c.prev c.first (!c.last) mid', HasTag m' p.addr p.size p.flags)
    (hprevs : ∀ p ∈ place c.addr c.prev c.first (!c.last) mid', p.addr ≠ stale' →
      prevSize m' p.addr = p.prev)
    (hnext : ∀ p ∈ c.next (lastSize c.prev mid'), p.addr ≠ stale' → prevSize m' p.addr = p.prev)
    (hstale : ∀ p ∈ c.outer, p.addr ≠ stale' → p.addr ≠ stale) :
    Rep m' bins (c.plug mid') lists stale' := by
  have hold := fun p => (c.mem_placed_plug hm ht (p := p)).mpr
  have hwf : (⟨c.base, c.left ++ mid ++ c.right⟩ : Seg).Wf := h.layout.wf _ (by simp [Ctx.plug])
  have hlay : Layout (c.plug mid') :=
    c.layout_plug h.layout (ht'.trans ht.symm) hm' (fun b hb => (hs' b hb).2)
      (c.coalesced_used hwf.coalesced hm' fun b hb => (hs' b hb).1)
  -- what a block outside the hole keeps
  have houter : ∀ p ∈ c.outer, SameOn m m' p.addr p.size := by
    intro p hp x h1 h2
    have ha := c.outer_apart h.layout ht hp
    refine hout x (by omega) fun hx => ?_
    cases hr : c.right with
    | nil => rw [Ctx.last, hr] at hx; exact absurd hx.1 (by simp)
    | cons b bs =>
      have hq : (⟨c.addr + c.hole, b.size, ⟨b.free, false, bs.isEmpty⟩, 0⟩ : PBlk) ∈ c.next 0 := by
        unfold Ctx.next
        rw [hr]
        exact List.mem_singleton.mpr rfl
      have hb := (hwf.sizes b (by simp [hr])).1
      have := ha.2 0 _ hq
      simp only at this
      omega
  have hnextTag : ∀ s, ∀ p ∈ c.next s, SameOn m m' p.addr 8 := by
    intro s p hp x h1 h2
    have := c.next_addr hp
    exact hout x (by omega) (by omega)
  have hnextNode : ∀ s, ∀ p ∈ c.next s, SameOn m m' p.node 16 := by
    intro s p hp x h1 h2
    have := c.next_addr hp
    unfold PBlk.node at h1 h2
    exact hout x (by omega) (by omega)
  refine ⟨hlay, ?_, ?_, ?_, ?_⟩
  · intro p hp
    rcases (c.mem_placed_plug hm' ht').mp hp with hp | hp | hp
    · exact htags p hp
    · have hp0 := c.next_of_next (lastSize c.prev mid) hp
      have := h.tags _ (hold _ (Or.inr (Or.inl hp0)))
      exact this.congr (hnextTag _ p hp)
    · have hok := h.layout.placed_ok (hold p (Or.inr (Or.inr hp)))
      exact (h.tags p (hold p (Or.inr (Or.inr hp)))).congr
        ((houter p hp).mono (by omega) (by omega))
  · intro p hp hst
    rcases (c.mem_placed_plug hm' ht').mp hp with hp | hp | hp
    · exact hprevs p hp hst
    · exact hnext p hp hst
    · have hok := h.layout.placed_ok (hold p (Or.inr (Or.inr hp)))
      exact (readLE_congr ((houter p hp).mono (by omega) (by omega))).trans
        (h.prevs p (hold p (Or.inr (Or.inr hp))) (hstale p hp hst))
  · refine h.bin_congr fun i n hn => ?_
    obtain ⟨p, hp, rfl, hpf, -⟩ := (h.mem_lists i n).mp hn
    rcases (c.mem_placed_plug hm ht).mp hp with hp' | hp' | hp'
    · rw [place_used hu hp'] at hpf
      cases hpf
    · exact hnextNode _ p hp'
    · have hok := h.layout.placed_ok hp
      exact (houter p hp').mono (by unfold PBlk.node; omega) (by unfold PBlk.node; omega)
  · intro i n
    rw [h.mem_lists i n]
    -- the free blocks of the two fillings are the same up to the `prevSize` after the hole
    have key : ∀ {mid₁ mid₂ : List Blk}, mid₁ ≠ [] → total mid₁ = c.hole →
        (∀ b ∈ mid₁, b.free = false) → mid₂ ≠ [] → total mid₂ = c.hole →
        (∃ p ∈ placed (c.plug mid₁), p.node = n ∧ p.flags.free = true ∧ binIndex p.size = i) →
        ∃ p ∈ placed (c.plug mid₂), p.node = n ∧ p.flags.free = true ∧ binIndex p.size = i := by
      rintro mid₁ mid₂ h1 t1 u1 h2 t2 ⟨p, hp, hpn, hpf, hpi⟩
      rcases (c.mem_placed_plug h1 t1).mp hp with hp' | hp' | hp'
      · rw [place_used u1 hp'] at hpf
        cases hpf
      · exact ⟨_, (c.mem_placed_plug h2 t2).mpr (Or.inr (Or.inl
          (c.next_of_next (lastSize c.prev mid₂) hp'))), hpn, hpf, hpi⟩
      · exact ⟨p, (c.mem_placed_plug h2 t2).mpr (Or.inr (Or.inr hp')), hpn, hpf, hpi⟩
    exact ⟨key hm ht hu hm' ht', key hm' ht' (fun b hb => (hs' b hb).1) hm ht⟩

end Refill

/-! ## One block leaves or joins its bin -/

namespace Ctx

variable (c : Ctx)

/-- The block that fills the whole hole. -/
def blk (f : Bool) : PBlk := ⟨c.addr, c.hole, ⟨f, c.first, c.last⟩, c.prev⟩

/-- The blocks outside a hole that one block fills. -/
def others : List PBlk := c.next c.hole ++ c.outer

theorem mem_placed_single {f : Bool} {p : PBlk} :
    p ∈ placed (c.plug [⟨c.hole, f⟩]) ↔ p = c.blk f ∨ p ∈ c.others := by
  rw [c.mem_placed_plug (by simp) (by simp)]
  simp [place, lastSize, others, blk]

theorem others_apart {f : Bool} (h : Layout (c.plug [⟨c.hole, f⟩])) {p : PBlk}
    (hp : p ∈ c.others) : p.addr + p.size ≤ c.addr ∨ c.addr + c.hole ≤ p.addr := by
  rcases List.mem_append.mp hp with hp | hp
  · have := (c.next_addr hp).1
    exact Or.inr (by omega)
  · exact (c.outer_apart h (by simp) hp).1

end Ctx

/-- No byte of a tag and no byte of a free block's node. -/
def Quiet (segs : List Seg) (x : Nat) : Prop :=
  ∀ p ∈ placed segs, ¬ (p.addr ≤ x ∧ x < p.addr + 16) ∧
    (p.flags.free = true → ¬ (p.node ≤ x ∧ x < p.node + 16))

section Links

/-- The link writes of `removeFree`. -/
def unlinkMem (m : Mem) (prv nx : Nat) : Mem :=
  let m := if prv ≠ 0 then FreeNode.setNext m prv nx else m
  if nx ≠ 0 then FreeNode.setPrev m nx prv else m

theorem unlinkMem_of_not {m : Mem} {prv nx x : Nat}
    (hp : prv ≠ 0 → ¬ (prv + 8 ≤ x ∧ x < prv + 16)) (hn : nx ≠ 0 → ¬ (nx ≤ x ∧ x < nx + 8)) :
    unlinkMem m prv nx x = m x := by
  unfold unlinkMem
  split
  · rename_i h
    rw [FreeNode.setPrev, writeLE_of_not (hn h)]
    split
    · rename_i h'
      exact writeLE_of_not (hp h')
    · rfl
  · split
    · rename_i h'
      exact writeLE_of_not (hp h')
    · rfl

theorem unlinkMem_next {m : Mem} {prv nx : Nat} (hp : prv ≠ 0) (hb : nx < 2 ^ 64)
    (ha : nx ≠ 0 → prv + 16 ≤ nx ∨ nx + 16 ≤ prv) :
    FreeNode.next (unlinkMem m prv nx) prv = nx := by
  unfold unlinkMem FreeNode.next
  dsimp only
  rw [if_pos hp]
  split
  · rename_i h
    have := ha h
    rw [FreeNode.setPrev, readLE_writeLE_of_disjoint (by omega)]
    exact readLE_writeLE_word hb
  · exact readLE_writeLE_word hb

theorem unlinkMem_prev {m : Mem} {prv nx : Nat} (hn : nx ≠ 0) (hb : prv < 2 ^ 64) :
    FreeNode.prev (unlinkMem m prv nx) nx = prv := by
  unfold unlinkMem FreeNode.prev
  dsimp only
  rw [if_pos hn]
  exact readLE_writeLE_word hb

end Links

section Edits
variable {m m' : Mem} {bins : Nat → Nat} {segs : List Seg} {lists : Nat → List Nat} {stale : Nat}
  {c : Ctx} {f : Bool}

theorem Rep.node_lt (h : Rep m bins segs lists stale) {i n : Nat} (hn : n ∈ lists i) :
    n < 2 ^ 64 := by
  obtain ⟨p, hp, rfl, -, -⟩ := (h.mem_lists i n).mp hn
  have := h.layout.placed_ok hp
  unfold PBlk.node
  omega

/-- Nodes are at multiples of 16. -/
theorem Rep.node_mod (h : Rep m bins segs lists stale) {i n : Nat} (hn : n ∈ lists i) : n % 16 = 0 := by
  obtain ⟨p, hp, rfl, -, -⟩ := (h.mem_lists i n).mp hn
  have := h.layout.placed_ok hp
  unfold PBlk.node
  omega

/-- The head of a bin that is not empty is one of its nodes. -/
theorem Rep.head_mem (h : Rep m bins segs lists stale) {i : Nat} (h0 : bins i ≠ 0) :
    bins i ∈ lists i := by
  have hh := (h.bin i).chain.head
  cases hl : lists i with
  | nil => rw [hl] at hh; exact absurd hh h0
  | cons n ns => rw [hl] at hh; rw [hh]; exact List.mem_cons_self

theorem Rep.bins_lt (h : Rep m bins segs lists stale) (i : Nat) : bins i < 2 ^ 64 := by
  by_cases h0 : bins i = 0
  · omega
  · exact h.node_lt (h.head_mem h0)

theorem Rep.bins_mod (h : Rep m bins segs lists stale) (i : Nat) : bins i % 16 = 0 := by
  by_cases h0 : bins i = 0
  · omega
  · exact h.node_mod (h.head_mem h0)

theorem Ctx.blk_mem (c : Ctx) (f : Bool) : c.blk f ∈ placed (c.plug [⟨c.hole, f⟩]) :=
  c.mem_placed_single.mpr (Or.inl rfl)

theorem Ctx.other_mem {c : Ctx} {q : PBlk} (hq : q ∈ c.others) (f : Bool) :
    q ∈ placed (c.plug [⟨c.hole, f⟩]) :=
  c.mem_placed_single.mpr (Or.inr hq)

/-- The hole lies inside the address space and holds a node. -/
theorem Rep.hole_ok (h : Rep m bins (c.plug [⟨c.hole, f⟩]) lists stale) :
    c.addr % 16 = 0 ∧ 0 < c.addr ∧ 48 ≤ c.hole ∧ c.hole % 16 = 0 ∧ c.addr + c.hole < 2 ^ 64 :=
  h.layout.placed_ok (c.blk_mem f)

/-- The tag of the hole and the node of a linked block do not meet. -/
theorem Rep.hole_node_apart (h : Rep m bins (c.plug [⟨c.hole, f⟩]) lists stale) {i n : Nat}
    (hn : n ∈ lists i) : n + 16 ≤ c.addr ∨ c.addr + 16 ≤ n :=
  h.node_tag_apart hn (c.blk_mem f)

/-- The tags and `prevSize` fields of a single-block hole and its surroundings, after an edit
    that keeps the tags of the other blocks and the `prevSize` of the hole. -/
theorem Rep.tags_single (h : Rep m bins (c.plug [⟨c.hole, f⟩]) lists stale) (m' : Mem) (f' : Bool)
    (hout : ∀ q ∈ c.others, SameOn m m' q.addr 16)
    (htag : HasTag m' c.addr c.hole ⟨f', c.first, c.last⟩) (hprev : SameOn m m' (c.addr + 8) 8) :
    (∀ p ∈ placed (c.plug [⟨c.hole, f'⟩]), HasTag m' p.addr p.size p.flags) ∧
      ∀ p ∈ placed (c.plug [⟨c.hole, f'⟩]), p.addr ≠ stale → prevSize m' p.addr = p.prev := by
  refine ⟨fun p hp => ?_, fun p hp hst => ?_⟩
  · rcases c.mem_placed_single.mp hp with rfl | hp
    · exact htag
    · exact (h.tags p (Ctx.other_mem hp f)).congr ((hout p hp).mono (by omega) (by omega))
  · rcases c.mem_placed_single.mp hp with rfl | hp
    · exact (readLE_congr hprev).trans (h.prevs (c.blk f) (c.blk_mem f) hst)
    · exact (readLE_congr ((hout p hp).mono (by omega) (by omega))).trans
        (h.prevs p (Ctx.other_mem hp f) hst)

/-! ### removeFree -/

/-- The neighbours of the hole's node in its bin: nodes of that bin, and not the node itself. -/
theorem Rep.neighbours (h : Rep m bins (c.plug [⟨c.hole, true⟩]) lists stale) :
    nodeOf c.addr ∈ lists (binIndex c.hole) ∧
    (FreeNode.prev m (nodeOf c.addr) ≠ 0 →
      FreeNode.prev m (nodeOf c.addr) ∈ (lists (binIndex c.hole)).erase (nodeOf c.addr)) ∧
    (FreeNode.next m (nodeOf c.addr) ≠ 0 →
      FreeNode.next m (nodeOf c.addr) ∈ (lists (binIndex c.hole)).erase (nodeOf c.addr)) ∧
    (FreeNode.prev m (nodeOf c.addr) ≠ 0 →
      FreeNode.prev m (nodeOf c.addr) ≠ FreeNode.next m (nodeOf c.addr)) := by
  have hin : nodeOf c.addr ∈ lists (binIndex c.hole) :=
    (h.mem_lists _ _).mpr ⟨_, c.blk_mem true, rfl, rfl, rfl⟩
  obtain ⟨L1, L2, hL⟩ := List.append_of_mem hin
  have hd := h.bin (binIndex c.hole)
  rw [hL] at hd
  have hnd := List.nodup_cons.mp (List.nodup_middle.mp hd.chain.nodup)
  have herase : (lists (binIndex c.hole)).erase (nodeOf c.addr) = L1 ++ L2 := by
    rw [hL, List.erase_append_right _ (fun hx => hnd.1 (List.mem_append_left _ hx)),
      List.erase_cons_head]
  have hp : FreeNode.prev m (nodeOf c.addr) ≠ 0 → FreeNode.prev m (nodeOf c.addr) ∈ L1 := by
    rw [hd.prv_eq]
    rcases List.eq_nil_or_concat L1 with rfl | ⟨l', a, rfl⟩ <;> simp
  have hn : FreeNode.next m (nodeOf c.addr) ≠ 0 → FreeNode.next m (nodeOf c.addr) ∈ L2 := by
    rw [hd.nxt_eq]
    cases L2 <;> simp
  rw [herase]
  refine ⟨hin, fun h0 => List.mem_append_left _ (hp h0), fun h0 => List.mem_append_right _ (hn h0),
    fun h0 e => ?_⟩
  exact List.disjoint_of_nodup_append hnd.2 (hp h0) (e ▸ hn (e ▸ h0))

/-- What `removeFree` does to memory: the two neighbouring links, and the free flag. -/
structure Unlinked (c : Ctx) (m m' : Mem) : Prop where
  keep : ∀ x, ¬ (c.addr ≤ x ∧ x < c.addr + 8) →
    (FreeNode.prev m (nodeOf c.addr) ≠ 0 → ¬ (FreeNode.prev m (nodeOf c.addr) + 8 ≤ x ∧
      x < FreeNode.prev m (nodeOf c.addr) + 16)) →
    (FreeNode.next m (nodeOf c.addr) ≠ 0 → ¬ (FreeNode.next m (nodeOf c.addr) ≤ x ∧
      x < FreeNode.next m (nodeOf c.addr) + 8)) → m' x = m x
  tag : HasTag m' c.addr c.hole ⟨false, c.first, c.last⟩
  next : FreeNode.prev m (nodeOf c.addr) ≠ 0 →
    FreeNode.next m' (FreeNode.prev m (nodeOf c.addr)) = FreeNode.next m (nodeOf c.addr)
  prev : FreeNode.next m (nodeOf c.addr) ≠ 0 →
    FreeNode.prev m' (FreeNode.next m (nodeOf c.addr)) = FreeNode.prev m (nodeOf c.addr)

theorem removeFree_eq (h : Rep m bins (c.plug [⟨c.hole, true⟩]) lists stale) :
    removeFree m bins c.addr =
      (setFlag (unlinkMem m (FreeNode.prev m (nodeOf c.addr)) (FreeNode.next m (nodeOf c.addr)))
        c.addr kFreeFlag false,
       if FreeNode.prev m (nodeOf c.addr) ≠ 0 then bins
       else Function.update bins (binIndex c.hole) (FreeNode.next m (nodeOf c.addr))) := by
  have hsz : MediumBlock.size m c.addr = c.hole := (h.tags _ (c.blk_mem true)).size
  obtain ⟨hin, hp, -, -⟩ := h.neighbours
  unfold removeFree
  dsimp only
  rw [hsz]
  by_cases h0 : FreeNode.prev m (nodeOf c.addr) ≠ 0
  · -- the node before is another node, so the node's own links survive the first write
    have hmem := ((h.bin _).chain.nodup.mem_erase_iff).mp (hp h0)
    have hap := h.nodes_apart hmem.2 hin
    have e1 : FreeNode.next (FreeNode.setNext m (FreeNode.prev m (nodeOf c.addr))
        (FreeNode.next m (nodeOf c.addr))) (nodeOf c.addr) = FreeNode.next m (nodeOf c.addr) :=
      readLE_writeLE_of_disjoint (by omega)
    have e2 : FreeNode.prev (FreeNode.setNext m (FreeNode.prev m (nodeOf c.addr))
        (FreeNode.next m (nodeOf c.addr))) (nodeOf c.addr) = FreeNode.prev m (nodeOf c.addr) :=
      readLE_writeLE_of_disjoint (by omega)
    simp only [if_pos h0, e1, e2, unlinkMem]
  · simp only [if_neg h0, unlinkMem]

theorem removeFree_unlinked (h : Rep m bins (c.plug [⟨c.hole, true⟩]) lists stale) :
    Unlinked c m (removeFree m bins c.addr).1 := by
  obtain ⟨hin, hp, hn, hpn⟩ := h.neighbours
  have hmem : ∀ n ∈ (lists (binIndex c.hole)).erase (nodeOf c.addr), n ∈ lists (binIndex c.hole) :=
    fun n => List.mem_of_mem_erase
  rw [removeFree_eq h]
  dsimp only
  refine ⟨fun x h1 h2 h3 => ?_, HasTag.setFree (f := ⟨true, c.first, c.last⟩) ?_ false,
    fun h0 => ?_, fun h0 => ?_⟩
  · rw [setFlag_of_not h1]
    exact unlinkMem_of_not h2 h3
  · refine (h.tags _ (c.blk_mem true)).congr fun x h1 h2 =>
      unlinkMem_of_not (fun h0 => ?_) fun h0 => ?_
    · have := h.hole_node_apart (hmem _ (hp h0))
      change c.addr ≤ x at h1
      change x < c.addr + 8 at h2
      omega
    · have := h.hole_node_apart (hmem _ (hn h0))
      change c.addr ≤ x at h1
      change x < c.addr + 8 at h2
      omega
  · have hlt : FreeNode.next m (nodeOf c.addr) < 2 ^ 64 := readLE_lt_word _ _
    have hap := h.hole_node_apart (hmem _ (hp h0))
    refine (readLE_congr fun x h1 h2 => setFlag_of_not (by omega)).trans
      (unlinkMem_next h0 hlt fun h1 => ?_)
    have := h.nodes_apart (hmem _ (hp h0)) (hmem _ (hn h1))
    have := hpn h0
    omega
  · have hap := h.hole_node_apart (hmem _ (hn h0))
    exact (readLE_congr fun x h1 h2 => setFlag_of_not (by omega)).trans
      (unlinkMem_prev h0 (readLE_lt_word _ _))

theorem setFlag_tame {a flag : Nat} {v : Bool} (ha : a % 16 = 0) : Tame m (setFlag m a flag v) :=
  tame_lower ha

theorem removeFree_tame (h : Rep m bins (c.plug [⟨c.hole, true⟩]) lists stale) :
    Tame m (removeFree m bins c.addr).1 := by
  obtain ⟨-, hp, hn, -⟩ := h.neighbours
  have hok := h.hole_ok
  have hp16 : FreeNode.prev m (nodeOf c.addr) % 16 = 0 := by
    by_cases h0 : FreeNode.prev m (nodeOf c.addr) = 0
    · omega
    · exact h.node_mod (List.mem_of_mem_erase (hp h0))
  have hn16 : FreeNode.next m (nodeOf c.addr) % 16 = 0 := by
    by_cases h0 : FreeNode.next m (nodeOf c.addr) = 0
    · omega
    · exact h.node_mod (List.mem_of_mem_erase (hn h0))
  rw [removeFree_eq h]
  refine Tame.trans ?_ (setFlag_tame hok.1)
  unfold unlinkMem
  dsimp only
  split
  · refine Tame.trans ?_ (tame_lower hn16)
    split
    · exact tame_upper hp16 hn16
    · exact Tame.refl _
  · split
    · exact tame_upper hp16 hn16
    · exact Tame.refl _

/-- A node other than the hole's keeps its links, but for the two rewritten ones. -/
theorem Unlinked.links (hu : Unlinked c m m') (h : Rep m bins (c.plug [⟨c.hole, true⟩]) lists stale)
    {i y : Nat} (hy : y ∈ lists i) :
    (y ≠ FreeNode.prev m (nodeOf c.addr) → FreeNode.next m' y = FreeNode.next m y) ∧
      (y ≠ FreeNode.next m (nodeOf c.addr) → FreeNode.prev m' y = FreeNode.prev m y) := by
  obtain ⟨-, hp, hn, -⟩ := h.neighbours
  have hmem : ∀ n ∈ (lists (binIndex c.hole)).erase (nodeOf c.addr), n ∈ lists (binIndex c.hole) :=
    fun n => List.mem_of_mem_erase
  have hap := h.hole_node_apart hy
  refine ⟨fun hne => readLE_congr fun x h1 h2 => hu.keep x (by omega) (fun h0 => ?_) fun h0 => ?_,
    fun hne => readLE_congr fun x h1 h2 => hu.keep x (by omega) (fun h0 => ?_) fun h0 => ?_⟩
  · have := h.nodes_apart hy (hmem _ (hp h0))
    omega
  · have := h.nodes_apart hy (hmem _ (hn h0))
    omega
  · have := h.nodes_apart hy (hmem _ (hp h0))
    omega
  · have := h.nodes_apart hy (hmem _ (hn h0))
    omega

theorem Unlinked.bin (hu : Unlinked c m m') (h : Rep m bins (c.plug [⟨c.hole, true⟩]) lists stale)
    (i : Nat) :
    DList (FreeNode.prev m') (FreeNode.next m') 0
      ((if FreeNode.prev m (nodeOf c.addr) ≠ 0 then bins
        else Function.update bins (binIndex c.hole) (FreeNode.next m (nodeOf c.addr))) i)
      ((lists i).erase (nodeOf c.addr)) := by
  obtain ⟨hin, hp, hn, -⟩ := h.neighbours
  by_cases hi : i = binIndex c.hole
  · subst hi
    obtain ⟨L1, L2, hL⟩ := List.append_of_mem hin
    have hd := h.bin (binIndex c.hole)
    rw [hL] at hd
    have hnd := List.nodup_cons.mp (List.nodup_middle.mp hd.chain.nodup)
    have herase : (lists (binIndex c.hole)).erase (nodeOf c.addr) = L1 ++ L2 := by
      rw [hL, List.erase_append_right _ (fun hx => hnd.1 (List.mem_append_left _ hx)),
        List.erase_cons_head]
    have hL' : ∀ y ∈ L1 ++ L2, y ∈ lists (binIndex c.hole) := fun y hy =>
      List.mem_of_mem_erase (herase ▸ hy)
    have hun := hd.unlink (fun h0 => hd.chain.ne_zero h0 rfl)
      (fun y hy => (hu.links h (hL' y hy)).1) (fun y hy => (hu.links h (hL' y hy)).2)
      (fun hl => hu.next fun e => hl (hd.prv_eq_zero_iff.mp e)) hu.prev
    rw [herase]
    by_cases hl : L1 = []
    · rw [if_pos hl] at hun
      rw [if_neg (by simpa using hd.prv_eq_zero_iff.mpr hl), Function.update_self]
      exact hun
    · rw [if_neg hl] at hun
      rw [if_pos (fun e => hl (hd.prv_eq_zero_iff.mp e))]
      exact hun
  · have hne : ∀ y ∈ lists i, ∀ z ∈ lists (binIndex c.hole), y ≠ z := fun y hy z hz e =>
      hi (h.bin_unique hy (e ▸ hz))
    have hb : (if FreeNode.prev m (nodeOf c.addr) ≠ 0 then bins
        else Function.update bins (binIndex c.hole) (FreeNode.next m (nodeOf c.addr))) i = bins i := by
      split
      · rfl
      · exact Function.update_of_ne hi _ _
    rw [hb, List.erase_of_not_mem fun hx => hne _ hx _ hin rfl]
    refine (h.bin i).congr (fun y hy => (hu.links h hy).2 fun e => ?_)
      fun y hy => (hu.links h hy).1 fun e => ?_
    · have h0 : y ≠ 0 := (h.bin i).chain.ne_zero hy
      exact hne y hy _ (List.mem_of_mem_erase (hn (e ▸ h0))) e
    · have h0 : y ≠ 0 := (h.bin i).chain.ne_zero hy
      exact hne y hy _ (List.mem_of_mem_erase (hp (e ▸ h0))) e

/-- **`removeFree`** takes the block out of its bin and marks it used; off the tags and the
    nodes of free blocks no byte changes. -/
theorem removeFree_rep (h : Rep m bins (c.plug [⟨c.hole, true⟩]) lists stale) :
    Rep (removeFree m bins c.addr).1 (removeFree m bins c.addr).2 (c.plug [⟨c.hole, false⟩])
        (fun i => (lists i).erase (nodeOf c.addr)) stale ∧
      ∀ x, Quiet (c.plug [⟨c.hole, true⟩]) x → (removeFree m bins c.addr).1 x = m x := by
  have hu := removeFree_unlinked h
  obtain ⟨-, hp, hn, -⟩ := h.neighbours
  have hmem : ∀ n ∈ (lists (binIndex c.hole)).erase (nodeOf c.addr), n ∈ lists (binIndex c.hole) :=
    fun n => List.mem_of_mem_erase
  have hok := h.hole_ok
  have hwf : (⟨c.base, c.left ++ [⟨c.hole, true⟩] ++ c.right⟩ : Seg).Wf :=
    h.layout.wf _ (by simp [Ctx.plug])
  have htags := h.tags_single (removeFree m bins c.addr).1 false
    (fun q hq x h1 h2 => by
      have h3 := c.others_apart h.layout hq
      have h4 := h.layout.placed_ok (Ctx.other_mem hq true)
      refine hu.keep x (by omega) (fun h0 => ?_) fun h0 => ?_
      · have := h.node_tag_apart (hmem _ (hp h0)) (Ctx.other_mem hq true)
        omega
      · have := h.node_tag_apart (hmem _ (hn h0)) (Ctx.other_mem hq true)
        omega)
    hu.tag
    (fun x h1 h2 => by
      refine hu.keep x (by omega) (fun h0 => ?_) fun h0 => ?_
      · have := h.hole_node_apart (hmem _ (hp h0))
        omega
      · have := h.hole_node_apart (hmem _ (hn h0))
        omega)
  refine ⟨⟨?_, htags.1, htags.2, ?_, ?_⟩, ?_⟩
  · exact c.layout_plug h.layout rfl (by simp)
      (by simpa using hwf.sizes ⟨c.hole, true⟩ (by simp))
      (c.coalesced_used hwf.coalesced (by simp) (by simp))
  · have hbins : (removeFree m bins c.addr).2 =
        if FreeNode.prev m (nodeOf c.addr) ≠ 0 then bins
        else Function.update bins (binIndex c.hole) (FreeNode.next m (nodeOf c.addr)) := by
      rw [removeFree_eq h]
    rw [hbins]
    exact hu.bin h
  · intro i n
    rw [(h.bin i).chain.nodup.mem_erase_iff, h.mem_lists i n]
    constructor
    · rintro ⟨hne, p, hp', hpn, hpf, hpi⟩
      rcases c.mem_placed_single.mp hp' with rfl | hp'
      · exact absurd hpn.symm hne
      · exact ⟨p, Ctx.other_mem hp' false, hpn, hpf, hpi⟩
    · rintro ⟨p, hp', hpn, hpf, hpi⟩
      rcases c.mem_placed_single.mp hp' with rfl | hp'
      · cases hpf
      · refine ⟨fun e => ?_, p, Ctx.other_mem hp' true, hpn, hpf, hpi⟩
        have h3 := c.others_apart h.layout hp'
        have h4 := h.layout.placed_ok (Ctx.other_mem hp' true)
        change p.addr + 32 = n at hpn
        change n = c.addr + 32 at e
        omega
  · intro x hx
    have htag := (hx _ (c.blk_mem true)).1
    refine hu.keep x (by change ¬ (c.addr ≤ x ∧ x < c.addr + 16) at htag; omega)
      (fun h0 => ?_) fun h0 => ?_
    · obtain ⟨p, hp', hpn, hpf, -⟩ := (h.mem_lists _ _).mp (hmem _ (hp h0))
      have := (hx p hp').2 hpf
      rw [hpn] at this
      omega
    · obtain ⟨p, hp', hpn, hpf, -⟩ := (h.mem_lists _ _).mp (hmem _ (hn h0))
      have := (hx p hp').2 hpf
      rw [hpn] at this
      omega

/-! ### insertFree -/

/-- What `insertFree` does to memory, the bin's head having been `head`. -/
structure Linked (c : Ctx) (m m' : Mem) (head : Nat) : Prop where
  keep : ∀ x, ¬ (c.addr ≤ x ∧ x < c.addr + 8) → ¬ (c.addr + 32 ≤ x ∧ x < c.addr + 48) →
    (head ≠ 0 → ¬ (head ≤ x ∧ x < head + 8)) → m' x = m x
  tag : HasTag m' c.addr c.hole ⟨true, c.first, c.last⟩
  prev : FreeNode.prev m' (nodeOf c.addr) = 0
  next : FreeNode.next m' (nodeOf c.addr) = head
  back : head ≠ 0 → FreeNode.prev m' head = nodeOf c.addr

/-- A linked node lies outside a used hole. -/
theorem Rep.node_outside (h : Rep m bins (c.plug [⟨c.hole, false⟩]) lists stale) {i n : Nat}
    (hn : n ∈ lists i) : n + 16 ≤ c.addr ∨ c.addr + c.hole + 32 ≤ n := by
  obtain ⟨p, hp, rfl, hpf, -⟩ := (h.mem_lists i n).mp hn
  rcases c.mem_placed_single.mp hp with rfl | hp'
  · cases hpf
  · have h1 := c.others_apart h.layout hp'
    have h2 := h.layout.placed_ok hp
    unfold PBlk.node
    omega

theorem insertFree_linked (h : Rep m bins (c.plug [⟨c.hole, false⟩]) lists stale) :
    Linked c m (insertFree m bins c.addr).1 (bins (binIndex c.hole)) ∧
      (insertFree m bins c.addr).2 =
        Function.update bins (binIndex c.hole) (nodeOf c.addr) := by
  have hsz : MediumBlock.size m c.addr = c.hole := (h.tags _ (c.blk_mem false)).size
  have hok := h.hole_ok
  have hhead := h.bins_lt (binIndex c.hole)
  have hnode : nodeOf c.addr = c.addr + 32 := rfl
  have hap : bins (binIndex c.hole) ≠ 0 → bins (binIndex c.hole) + 16 ≤ c.addr ∨
      c.addr + c.hole + 32 ≤ bins (binIndex c.hole) := fun h0 => h.node_outside (h.head_mem h0)
  unfold insertFree
  dsimp only
  rw [hsz]
  generalize bins (binIndex c.hole) = head at *
  have hn1 : FreeNode.next (FreeNode.setNext (FreeNode.setPrev m (nodeOf c.addr) 0) (nodeOf c.addr)
      head) (nodeOf c.addr) = head := readLE_writeLE_word hhead
  have hp1 : FreeNode.prev (FreeNode.setNext (FreeNode.setPrev m (nodeOf c.addr) 0) (nodeOf c.addr)
      head) (nodeOf c.addr) = 0 := by
    unfold FreeNode.prev FreeNode.setNext
    rw [readLE_writeLE_of_disjoint (by omega)]
    exact readLE_writeLE_word (by omega)
  have hk1 : ∀ x, ¬ (c.addr + 32 ≤ x ∧ x < c.addr + 48) →
      FreeNode.setNext (FreeNode.setPrev m (nodeOf c.addr) 0) (nodeOf c.addr) head x = m x := by
    intro x hx
    unfold FreeNode.setNext FreeNode.setPrev
    rw [writeLE_of_not (by omega), writeLE_of_not (by omega)]
  rw [hn1]
  generalize FreeNode.setNext (FreeNode.setPrev m (nodeOf c.addr) 0) (nodeOf c.addr) head = m1 at *
  refine ⟨?_, rfl⟩
  by_cases h0 : head ≠ 0
  · have := hap h0
    rw [if_pos h0]
    have hk2 : ∀ x, ¬ (head ≤ x ∧ x < head + 8) → FreeNode.setPrev m1 head (nodeOf c.addr) x = m1 x :=
      fun x hx => writeLE_of_not hx
    refine ⟨fun x h1 h2 h3 => ?_, HasTag.setFree (f := ⟨false, c.first, c.last⟩) ?_ true, ?_, ?_, ?_⟩
    · rw [setFlag_of_not h1, hk2 x (h3 h0), hk1 x h2]
    · exact (h.tags _ (c.blk_mem false)).congr fun x h1 h2 => by
        change c.addr ≤ x at h1
        change x < c.addr + 8 at h2
        rw [hk2 x (by omega), hk1 x (by omega)]
    · exact (readLE_congr fun x h1 h2 => by
        rw [setFlag_of_not (by omega), hk2 x (by omega)]).trans hp1
    · exact (readLE_congr fun x h1 h2 => by
        rw [setFlag_of_not (by omega), hk2 x (by omega)]).trans hn1
    · intro _
      exact (readLE_congr fun x h1 h2 => setFlag_of_not (by omega)).trans
        (readLE_writeLE_word (by omega))
  · rw [if_neg h0]
    refine ⟨fun x h1 h2 _ => ?_, HasTag.setFree (f := ⟨false, c.first, c.last⟩) ?_ true, ?_, ?_,
      fun h1 => absurd h1 h0⟩
    · rw [setFlag_of_not h1, hk1 x h2]
    · exact (h.tags _ (c.blk_mem false)).congr fun x h1 h2 => by
        change c.addr ≤ x at h1
        change x < c.addr + 8 at h2
        rw [hk1 x (by omega)]
    · exact (readLE_congr fun x h1 h2 => setFlag_of_not (by omega)).trans hp1
    · exact (readLE_congr fun x h1 h2 => setFlag_of_not (by omega)).trans hn1

theorem insertFree_tame (h : Rep m bins (c.plug [⟨c.hole, false⟩]) lists stale) :
    Tame m (insertFree m bins c.addr).1 := by
  have hok := h.hole_ok
  have hhead := h.bins_mod (binIndex (MediumBlock.size m c.addr))
  have hnode : nodeOf c.addr % 16 = 0 := by
    change (c.addr + 32) % 16 = 0
    omega
  have hn1 : FreeNode.next (FreeNode.setNext (FreeNode.setPrev m (nodeOf c.addr) 0) (nodeOf c.addr)
      (bins (binIndex (MediumBlock.size m c.addr)))) (nodeOf c.addr) =
      bins (binIndex (MediumBlock.size m c.addr)) := readLE_writeLE_word (h.bins_lt _)
  unfold insertFree
  dsimp only
  rw [hn1]
  have hprev : Tame m (FreeNode.setPrev m (nodeOf c.addr) 0) := tame_lower hnode
  have hlinks : Tame m (FreeNode.setNext (FreeNode.setPrev m (nodeOf c.addr) 0) (nodeOf c.addr)
      (bins (binIndex (MediumBlock.size m c.addr)))) :=
    hprev.trans (tame_upper hnode hhead)
  refine Tame.trans (hlinks.trans ?_) (setFlag_tame hok.1)
  split
  · exact tame_lower hhead
  · exact Tame.refl _

theorem Linked.bin (hl : Linked c m m' (bins (binIndex c.hole)))
    (h : Rep m bins (c.plug [⟨c.hole, false⟩]) lists stale) (i : Nat) :
    DList (FreeNode.prev m') (FreeNode.next m') 0
      (Function.update bins (binIndex c.hole) (nodeOf c.addr) i)
      (Function.update lists (binIndex c.hole)
        (nodeOf c.addr :: lists (binIndex c.hole)) i) := by
  have hnode : nodeOf c.addr = c.addr + 32 := rfl
  have hok := h.hole_ok
  -- links of the nodes that were there before
  have hkeep : ∀ j, ∀ y ∈ lists j, FreeNode.next m' y = FreeNode.next m y ∧
      (y ≠ bins (binIndex c.hole) → FreeNode.prev m' y = FreeNode.prev m y) := by
    intro j y hy
    have h1 := h.node_outside hy
    have h2 : bins (binIndex c.hole) ≠ 0 → y = bins (binIndex c.hole) ∨
        y + 16 ≤ bins (binIndex c.hole) ∨ bins (binIndex c.hole) + 16 ≤ y :=
      fun h0 => h.nodes_apart hy (h.head_mem h0)
    refine ⟨readLE_congr fun x h3 h4 => hl.keep x (by omega) (by omega) fun h0 => ?_,
      fun hne => readLE_congr fun x h3 h4 => hl.keep x (by omega) (by omega) fun h0 => ?_⟩
    · have := h2 h0
      omega
    · have := h2 h0
      omega
  by_cases hi : i = binIndex c.hole
  · subst hi
    rw [Function.update_self, Function.update_self]
    exact (h.bin _).pushFront (by omega) hl.prev hl.next hl.back
      (fun y hy => (hkeep _ y hy).1) fun y hy => (hkeep _ y hy).2
  · rw [Function.update_of_ne hi, Function.update_of_ne hi]
    refine (h.bin i).congr (fun y hy => (hkeep i y hy).2 fun e => ?_) fun y hy => (hkeep i y hy).1
    -- the head of the block's bin is no node of another bin
    have h0 : y ≠ 0 := (h.bin i).chain.ne_zero hy
    exact hi (h.bin_unique hy (e ▸ h.head_mem (e ▸ h0)))

/-- **`insertFree`** puts a used block whose neighbours are used into its bin and marks it free;
    off its tag, its node and the nodes of free blocks no byte changes. -/
theorem insertFree_rep (h : Rep m bins (c.plug [⟨c.hole, false⟩]) lists stale)
    (hco : Coalesced (c.left ++ [⟨c.hole, true⟩] ++ c.right)) :
    Rep (insertFree m bins c.addr).1 (insertFree m bins c.addr).2 (c.plug [⟨c.hole, true⟩])
        (Function.update lists (binIndex c.hole) (nodeOf c.addr :: lists (binIndex c.hole))) stale ∧
      ∀ x, Quiet (c.plug [⟨c.hole, true⟩]) x → (insertFree m bins c.addr).1 x = m x := by
  obtain ⟨hl, hbins⟩ := insertFree_linked h
  have hok := h.hole_ok
  have hhead : bins (binIndex c.hole) ≠ 0 →
      bins (binIndex c.hole) ∈ lists (binIndex c.hole) := h.head_mem
  have hwf : (⟨c.base, c.left ++ [⟨c.hole, false⟩] ++ c.right⟩ : Seg).Wf :=
    h.layout.wf _ (by simp [Ctx.plug])
  have htags := h.tags_single (insertFree m bins c.addr).1 true
    (fun q hq x h1 h2 => by
      have h3 := c.others_apart h.layout hq
      have h4 := h.layout.placed_ok (Ctx.other_mem hq false)
      refine hl.keep x (by omega) (by omega) fun h0 => ?_
      have := h.node_tag_apart (hhead h0) (Ctx.other_mem hq false)
      omega)
    hl.tag
    (fun x h1 h2 => by
      refine hl.keep x (by omega) (by omega) fun h0 => ?_
      have := h.hole_node_apart (hhead h0)
      omega)
  refine ⟨⟨?_, htags.1, htags.2, ?_, ?_⟩, ?_⟩
  · exact c.layout_plug h.layout rfl (by simp)
      (by simpa using hwf.sizes ⟨c.hole, false⟩ (by simp)) hco
  · rw [hbins]
    exact hl.bin h
  · intro i n
    have hold : ∀ q ∈ c.others, (q.node = n ∧ q.flags.free = true ∧ binIndex q.size = i) →
        n ∈ lists i := fun q hq hqn =>
      (h.mem_lists i n).mpr ⟨q, Ctx.other_mem hq false, hqn.1, hqn.2.1, hqn.2.2⟩
    have hnew : n ∈ lists i → ∃ p ∈ placed (c.plug [⟨c.hole, true⟩]), p.node = n ∧
        p.flags.free = true ∧ binIndex p.size = i := by
      intro hn
      obtain ⟨p, hp, hpn, hpf, hpi⟩ := (h.mem_lists i n).mp hn
      rcases c.mem_placed_single.mp hp with rfl | hp
      · cases hpf
      · exact ⟨p, Ctx.other_mem hp true, hpn, hpf, hpi⟩
    by_cases hi : i = binIndex c.hole
    · subst hi
      rw [Function.update_self, List.mem_cons]
      constructor
      · rintro (rfl | hn)
        · exact ⟨_, c.blk_mem true, rfl, rfl, rfl⟩
        · exact hnew hn
      · rintro ⟨p, hp, hpn, hpf, hpi⟩
        rcases c.mem_placed_single.mp hp with rfl | hp
        · exact Or.inl hpn.symm
        · exact Or.inr (hold p hp ⟨hpn, hpf, hpi⟩)
    · rw [Function.update_of_ne hi]
      refine ⟨hnew, ?_⟩
      rintro ⟨p, hp, hpn, hpf, hpi⟩
      rcases c.mem_placed_single.mp hp with rfl | hp
      · exact absurd hpi.symm hi
      · exact hold p hp ⟨hpn, hpf, hpi⟩
  · intro x hx
    have hb := hx _ (c.blk_mem true)
    have h1 : ¬ (c.addr ≤ x ∧ x < c.addr + 16) := hb.1
    have h2 : ¬ (c.addr + 32 ≤ x ∧ x < c.addr + 32 + 16) := hb.2 rfl
    refine hl.keep x (by omega) (by omega) fun h0 => ?_
    obtain ⟨p, hp, hpn, hpf, -⟩ := (h.mem_lists _ _).mp (hhead h0)
    rcases c.mem_placed_single.mp hp with rfl | hp
    · cases hpf
    · have := (hx p (Ctx.other_mem hp true)).2 hpf
      rw [hpn] at this
      omega

end Edits

end MAlloc.Heap
