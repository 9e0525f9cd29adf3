/-
  The block layout of the medium tier, as data.

  A segment is a base address and the list of its blocks (size and free bit). Addresses, the
  first and last flags and the `prevSize` fields follow from the list: `place` computes them.
  So a layout tiles its segments by construction, and an edit of the heap is an edit of one
  list.

  `Ctx` is a segment list with a hole inside one segment, `Ctx.plug mid` fills the hole.
  Of the placed blocks of `plug mid` only those of `mid`, and the `prevSize` of the block right
  after the hole, depend on `mid` (`mem_placed_plug`).
-/
import MAlloc.Heap.Tag
import MAlloc.Lib.Span

namespace MAlloc.Heap

open Lib

/-- A block of a layout. -/
structure Blk where
  size : Nat
  free : Bool
  deriving DecidableEq, Repr

/-- A block with everything its position determines. -/
structure PBlk where
  addr : Nat
  size : Nat
  flags : Flags
  prev : Nat
  deriving DecidableEq, Repr

def PBlk.span (p : PBlk) : Span := ⟨p.addr, p.size⟩

/-- The node of a free block. -/
def PBlk.node (p : PBlk) : Nat := p.addr + 32

/-- The bytes a block is handed out with. -/
def PBlk.payload (p : PBlk) : Span := ⟨p.addr + 16, p.size - 16⟩

/-- No two neighbours are both free. -/
def Coalesced (bs : List Blk) : Prop := bs.IsChain fun b c => (b.free && c.free) = false

def total (bs : List Blk) : Nat := (bs.map Blk.size).sum

@[simp] theorem total_nil : total [] = 0 := rfl

@[simp] theorem total_cons (b : Blk) (bs : List Blk) : total (b :: bs) = b.size + total bs := by
  simp [total]

@[simp] theorem total_append (l r : List Blk) : total (l ++ r) = total l + total r := by
  simp [total]

/-- The size of the last block of `l`, or `prev` when there is none. -/
def lastSize (prev : Nat) : List Blk → Nat
  | [] => prev
  | b :: bs => lastSize b.size bs

/-- The blocks of `bs` placed from `a` on; `more` says that blocks follow them. -/
def place (a prev : Nat) (first more : Bool) : List Blk → List PBlk
  | [] => []
  | b :: bs => ⟨a, b.size, ⟨b.free, first, bs.isEmpty && !more⟩, prev⟩ ::
      place (a + b.size) b.size false more bs

theorem place_append (a prev : Nat) (first more : Bool) (l r : List Blk) :
    place a prev first more (l ++ r) =
      place a prev first (more || !r.isEmpty) l ++
        place (a + total l) (lastSize prev l) (first && l.isEmpty) more r := by
  induction l generalizing a prev first with
  | nil => simp [place, lastSize]
  | cons b l ih =>
    have hb : ((l ++ r).isEmpty && !more) = (l.isEmpty && !(more || !r.isEmpty)) := by
      cases l <;> cases r <;> cases more <;> rfl
    simp only [List.cons_append, place, ih, lastSize, total_cons, List.isEmpty_cons, Bool.and_false,
      Bool.false_and, Nat.add_assoc, hb]

/-- A placed block lies where the blocks before it end. -/
theorem mem_place {a prev : Nat} {first more : Bool} {bs : List Blk} {p : PBlk}
    (h : p ∈ place a prev first more bs) : ∃ l b r, bs = l ++ b :: r ∧
      p = ⟨a + total l, b.size, ⟨b.free, first && l.isEmpty, r.isEmpty && !more⟩,
        lastSize prev l⟩ := by
  induction bs generalizing a prev first with
  | nil => cases h
  | cons b bs ih =>
    rcases List.mem_cons.mp h with rfl | h
    · exact ⟨[], b, bs, rfl, by simp [lastSize]⟩
    · obtain ⟨l, c, r, rfl, rfl⟩ := ih h
      exact ⟨b :: l, c, r, rfl, by simp [lastSize, Nat.add_assoc]⟩

theorem place_apart {a prev : Nat} {first more : Bool} {bs : List Blk} :
    (place a prev first more bs).Pairwise fun p q => p.addr + p.size ≤ q.addr := by
  induction bs generalizing a prev first with
  | nil => exact List.Pairwise.nil
  | cons b bs ih =>
    refine List.pairwise_cons.mpr ⟨fun q hq => ?_, ih⟩
    obtain ⟨l, c, r, -, rfl⟩ := mem_place hq
    simp only
    omega

theorem place_within {a prev : Nat} {first more : Bool} {bs : List Blk} {p : PBlk}
    (h : p ∈ place a prev first more bs) : a ≤ p.addr ∧ p.addr + p.size ≤ a + total bs := by
  obtain ⟨l, b, r, rfl, rfl⟩ := mem_place h
  simp only [total_append, total_cons]
  omega

/-! ## Segments -/

structure Seg where
  base : Nat
  blocks : List Blk
  deriving DecidableEq, Repr

namespace Seg

def span (s : Seg) : Span := ⟨s.base, total s.blocks⟩

def placed (s : Seg) : List PBlk := place s.base 0 true false s.blocks

/-- What a layout's segment satisfies: where it lies, the block sizes, and that no two
    neighbours are free. -/
structure Wf (s : Seg) : Prop where
  base_mod : s.base % 16 = 0
  base_pos : 0 < s.base
  bound : s.base + total s.blocks < 2 ^ 64
  ne_nil : s.blocks ≠ []
  sizes : ∀ b ∈ s.blocks, 48 ≤ b.size ∧ b.size % 16 = 0
  coalesced : Coalesced s.blocks

theorem placed_within {s : Seg} {p : PBlk} (h : p ∈ s.placed) : p.span.Inside s.span :=
  place_within h

theorem Wf.total_mod {s : Seg} (h : s.Wf) {l r : List Blk} (hs : s.blocks = l ++ r) :
    total l % 16 = 0 := by
  have hl : ∀ b ∈ l, b.size % 16 = 0 := fun b hb => (h.sizes b (by rw [hs]; simp [hb])).2
  clear hs
  induction l with
  | nil => rfl
  | cons b l ih =>
    have h1 := hl b List.mem_cons_self
    have h2 := ih fun c hc => hl c (List.mem_cons_of_mem _ hc)
    rw [total_cons]
    omega

/-- Placed blocks are aligned, at least 48 bytes, and inside the address space. -/
theorem Wf.placed {s : Seg} (h : s.Wf) {p : PBlk} (hp : p ∈ s.placed) :
    p.addr % 16 = 0 ∧ 0 < p.addr ∧ 48 ≤ p.size ∧ p.size % 16 = 0 ∧ p.addr + p.size < 2 ^ 64 := by
  have hw := place_within hp
  obtain ⟨l, b, r, hs, rfl⟩ := mem_place hp
  have h1 := h.total_mod hs
  have h2 := h.sizes b (by rw [hs]; simp)
  have h3 := h.base_mod
  have h4 := h.base_pos
  have h5 := h.bound
  simp only at hw ⊢
  omega

end Seg

/-- All blocks of a layout. -/
def placed (segs : List Seg) : List PBlk := segs.flatMap Seg.placed

theorem mem_placed {segs : List Seg} {p : PBlk} : p ∈ placed segs ↔ ∃ s ∈ segs, p ∈ s.placed :=
  List.mem_flatMap

/-- The geometric part of a layout: well-formed segments, kept apart. -/
structure Layout (segs : List Seg) : Prop where
  wf : ∀ s ∈ segs, s.Wf
  apart : (segs.map Seg.span).Pairwise Span.Disjoint

theorem Layout.placed_ok {segs : List Seg} (h : Layout segs) {p : PBlk} (hp : p ∈ placed segs) :
    p.addr % 16 = 0 ∧ 0 < p.addr ∧ 48 ≤ p.size ∧ p.size % 16 = 0 ∧ p.addr + p.size < 2 ^ 64 := by
  obtain ⟨s, hs, hps⟩ := mem_placed.mp hp
  exact (h.wf s hs).placed hps

/-- The blocks of a layout are pairwise disjoint. -/
theorem Layout.pairwise {segs : List Seg} (h : Layout segs) :
    (placed segs).Pairwise fun p q => p.span.Disjoint q.span := by
  refine List.pairwise_flatMap.mpr ⟨fun s _ => ?_, ?_⟩
  · exact place_apart.imp fun {p q} hpq => Or.inl hpq
  · refine (List.pairwise_map.mp h.apart).imp fun {s t} hst p hp q hq => ?_
    exact (Seg.placed_within hp).disjoint (Seg.placed_within hq) hst

theorem Layout.nodup {segs : List Seg} (h : Layout segs) : (placed segs).Nodup := by
  refine List.Pairwise.imp_of_mem (fun {p q} hp _ hd e => ?_) h.pairwise
  subst e
  have := h.placed_ok hp
  unfold Span.Disjoint PBlk.span at hd
  simp only at hd
  omega

/-- Two blocks of a layout are the same or disjoint. -/
theorem Layout.eq_or_apart {segs : List Seg} (h : Layout segs) {p q : PBlk}
    (hp : p ∈ placed segs) (hq : q ∈ placed segs) :
    p = q ∨ p.addr + p.size ≤ q.addr ∨ q.addr + q.size ≤ p.addr := by
  by_cases e : p = q
  · exact Or.inl e
  · have hsymm : Std.Symm fun p q : PBlk => p.span.Disjoint q.span :=
      ⟨fun _ _ => Span.Disjoint.symm⟩
    exact Or.inr (h.pairwise.forall hp hq e)

theorem Layout.eq_of_addr {segs : List Seg} (h : Layout segs) {p q : PBlk}
    (hp : p ∈ placed segs) (hq : q ∈ placed segs) (e : p.addr = q.addr) : p = q := by
  have h1 := h.placed_ok hp
  have h2 := h.placed_ok hq
  rcases h.eq_or_apart hp hq with h | h
  · exact h
  · omega

/-! ## Contexts -/

/-- A segment list with a hole of `hole` bytes after `left` in the segment at `base`. -/
structure Ctx where
  before : List Seg
  base : Nat
  left : List Blk
  hole : Nat
  right : List Blk
  after : List Seg

namespace Ctx

variable (c : Ctx)

/-- The segment list with the hole filled. -/
def plug (mid : List Blk) : List Seg :=
  c.before ++ ⟨c.base, c.left ++ mid ++ c.right⟩ :: c.after

/-- Where the hole starts. -/
def addr : Nat := c.base + total c.left

/-- The `prevSize` of a block at the hole. -/
def prev : Nat := lastSize 0 c.left

/-- The hole is at the start of its segment. -/
def first : Bool := c.left.isEmpty

/-- The hole reaches the end of its segment. -/
def last : Bool := c.right.isEmpty

/-- The block right after the hole, when the last block in the hole has size `s`. -/
def next (s : Nat) : List PBlk :=
  match c.right with
  | [] => []
  | b :: bs => [⟨c.addr + c.hole, b.size, ⟨b.free, false, bs.isEmpty⟩, s⟩]

/-- The blocks that do not depend on what fills the hole. -/
def outer : List PBlk :=
  placed c.before ++ place c.base 0 true true c.left ++
    (match c.right with
      | [] => []
      | b :: bs => place (c.addr + c.hole + b.size) b.size false false bs) ++ placed c.after

theorem placed_plug {mid : List Blk} (hm : mid ≠ []) (ht : total mid = c.hole) :
    placed (c.plug mid) = placed c.before ++ (place c.base 0 true true c.left ++
      place c.addr c.prev c.first (!c.last) mid ++
      place (c.addr + c.hole) (lastSize c.prev mid) false false c.right) ++ placed c.after := by
  have hne : (mid ++ c.right).isEmpty = false := by
    cases mid with
    | nil => exact absurd rfl hm
    | cons b bs => rfl
  have hne' : mid.isEmpty = false := by
    cases mid with
    | nil => exact absurd rfl hm
    | cons b bs => rfl
  unfold plug placed
  rw [List.flatMap_append, List.flatMap_cons, Seg.placed, List.append_assoc c.left,
    place_append, place_append, hne, hne', ht]
  simp [addr, prev, first, last, List.append_assoc]

/-- Only the blocks in the hole and the `prevSize` right after it depend on the filling. -/
theorem mem_placed_plug {l : List Blk} (hm : l ≠ []) (ht : total l = c.hole) {p : PBlk} :
    p ∈ placed (c.plug l) ↔
      p ∈ place c.addr c.prev c.first (!c.last) l ∨
        p ∈ c.next (lastSize c.prev l) ∨ p ∈ c.outer := by
  rw [placed_plug c hm ht]
  unfold next outer
  cases c.right with
  | nil =>
    simp only [List.mem_append, place, List.not_mem_nil, false_or, List.append_nil]
    tauto
  | cons b bs =>
    simp only [List.mem_append, place, List.mem_cons, List.not_mem_nil, or_false, Bool.not_false,
      Bool.and_true]
    tauto

/-- Every block of a layout is the filling of some hole. -/
theorem exists_of_mem {segs : List Seg} {p : PBlk} (hp : p ∈ placed segs) :
    ∃ c : Ctx, segs = c.plug [⟨p.size, p.flags.free⟩] ∧ c.hole = p.size ∧ p.addr = c.addr ∧
      p.flags.first = c.first ∧ p.flags.last = c.last ∧ p.prev = c.prev := by
  obtain ⟨s, hs, hps⟩ := mem_placed.mp hp
  obtain ⟨S, T, rfl⟩ := List.append_of_mem hs
  obtain ⟨l, b, r, hb, rfl⟩ := mem_place hps
  refine ⟨⟨S, s.base, l, b.size, r, T⟩, ?_, rfl, rfl, ?_, ?_, rfl⟩
  · have : s = ⟨s.base, l ++ [b] ++ r⟩ := by
      rw [List.append_assoc, List.singleton_append, ← hb]
    unfold plug
    rw [← this]
  · simp [first]
  · simp [last]

theorem plug_map_span {l r : List Blk} (h : total l = total r) :
    (c.plug l).map Seg.span = (c.plug r).map Seg.span := by
  simp [plug, Seg.span, h]

/-- A filling of the same size, with good block sizes and no two free neighbours, keeps the
    layout. -/
theorem layout_plug {mid mid' : List Blk} (h : Layout (c.plug mid)) (ht : total mid' = total mid)
    (hne : mid' ≠ []) (hs : ∀ b ∈ mid', 48 ≤ b.size ∧ b.size % 16 = 0)
    (hc : Coalesced (c.left ++ mid' ++ c.right)) :
    Layout (c.plug mid') := by
  refine ⟨fun s hsm => ?_, by rw [c.plug_map_span ht]; exact h.apart⟩
  have hold : (⟨c.base, c.left ++ mid ++ c.right⟩ : Seg).Wf := h.wf _ (by simp [plug])
  unfold plug at hsm
  rcases List.mem_append.mp hsm with hs1 | hs1
  · exact h.wf s (by simp [plug, hs1])
  · rcases List.mem_cons.mp hs1 with rfl | hs2
    · refine ⟨hold.base_mod, hold.base_pos, ?_, by simp [hne], fun b hb => ?_, hc⟩
      · have := hold.bound
        simp only [total_append] at this ⊢
        omega
      · simp only [List.mem_append] at hb
        rcases hb with (hb | hb) | hb
        · exact hold.sizes b (by simp [hb])
        · exact hs b hb
        · exact hold.sizes b (by simp [hb])
    · exact h.wf s (by simp [plug, hs2])

theorem next_addr {s : Nat} {p : PBlk} (hp : p ∈ c.next s) :
    p.addr = c.addr + c.hole ∧ c.last = false ∧ p.prev = s ∧
      p.addr + p.size ≤ c.addr + c.hole + total c.right := by
  unfold next at hp
  unfold last
  cases hr : c.right with
  | nil =>
    rw [hr] at hp
    cases hp
  | cons b bs =>
    rw [hr] at hp
    rw [List.mem_singleton.mp hp]
    refine ⟨rfl, rfl, rfl, ?_⟩
    simp only [total_cons]
    omega

/-- The blocks that do not depend on the filling lie outside the hole and the block after it. -/
theorem outer_apart {mid : List Blk} (h : Layout (c.plug mid)) (ht : total mid = c.hole) {p : PBlk}
    (hp : p ∈ c.outer) : (p.addr + p.size ≤ c.addr ∨ c.addr + c.hole ≤ p.addr) ∧
      ∀ s, ∀ q ∈ c.next s, p.addr + p.size ≤ q.addr ∨ q.addr + q.size ≤ p.addr := by
  have hseg : Span.Inside ⟨c.addr, c.hole⟩ (Seg.span ⟨c.base, c.left ++ mid ++ c.right⟩) := by
    unfold Span.Inside Seg.span addr
    simp only [total_append, ht]
    omega
  have hnext : ∀ s, ∀ q ∈ c.next s,
      q.span.Inside (Seg.span ⟨c.base, c.left ++ mid ++ c.right⟩) := by
    intro s q hq
    obtain ⟨h1, -, -, h2⟩ := c.next_addr hq
    unfold addr at h1 h2
    unfold Span.Inside Seg.span PBlk.span
    simp only [total_append, ht]
    omega
  have hap := h.apart
  unfold plug at hap
  rw [List.map_append, List.map_cons, List.pairwise_append] at hap
  -- a block of another segment is apart with its whole segment
  have hother : ∀ s : Seg, p ∈ s.placed →
      s.span.Disjoint (Seg.span ⟨c.base, c.left ++ mid ++ c.right⟩) →
      (p.addr + p.size ≤ c.addr ∨ c.addr + c.hole ≤ p.addr) ∧
      ∀ s, ∀ q ∈ c.next s, p.addr + p.size ≤ q.addr ∨ q.addr + q.size ≤ p.addr :=
    fun s hps hd => ⟨(Seg.placed_within hps).disjoint hseg hd,
      fun s q hq => (Seg.placed_within hps).disjoint (hnext s q hq) hd⟩
  unfold outer at hp
  simp only [List.mem_append] at hp
  rcases hp with ((hp | hp) | hp) | hp
  · obtain ⟨s, hs, hps⟩ := mem_placed.mp hp
    exact hother s hps (hap.2.2 _ (List.mem_map_of_mem hs) _ List.mem_cons_self)
  · have hle : p.addr + p.size ≤ c.addr := (place_within hp).2
    refine ⟨Or.inl hle, fun s q hq => Or.inl ?_⟩
    have := (c.next_addr hq).1
    omega
  · cases hr : c.right with
    | nil =>
      rw [hr] at hp
      cases hp
    | cons b bs =>
      rw [hr] at hp
      have hle := (place_within hp).1
      refine ⟨Or.inr (by omega), fun s q hq => Or.inr ?_⟩
      unfold next at hq
      rw [hr] at hq
      rw [List.mem_singleton.mp hq]
      exact hle
  · obtain ⟨s, hs, hps⟩ := mem_placed.mp hp
    exact hother s hps
      ((List.pairwise_cons.mp hap.2.1).1 _ (List.mem_map_of_mem hs)).symm

/-- The block after the hole differs between fillings in its `prevSize` only. -/
theorem next_of_next {s : Nat} (t : Nat) {p : PBlk} (hp : p ∈ c.next s) :
    { p with prev := t } ∈ c.next t := by
  unfold next at hp ⊢
  cases hr : c.right with
  | nil =>
    rw [hr] at hp
    cases hp
  | cons b bs =>
    rw [hr] at hp
    rw [List.mem_singleton.mp hp]
    exact List.mem_singleton.mpr rfl

/-- Replacing the filling by used blocks keeps neighbours from being both free. -/
theorem coalesced_used {mid mid' : List Blk}
    (h : Coalesced (c.left ++ mid ++ c.right)) (hne : mid' ≠ [])
    (hu : ∀ b ∈ mid', b.free = false) : Coalesced (c.left ++ mid' ++ c.right) := by
  unfold Coalesced at h ⊢
  rw [List.isChain_append, List.isChain_append] at h ⊢
  refine ⟨⟨h.1.1, ?_, fun b _ d hd => ?_⟩, h.2.1, fun b hb d _ => ?_⟩
  · refine (List.pairwise_of_forall_mem_list fun b hb d _ => ?_).isChain
    rw [hu b hb, Bool.false_and]
  · rw [hu d (List.mem_of_mem_head? hd), Bool.and_false]
  · have hb' : b ∈ mid' := by
      rw [List.getLast?_append_of_ne_nil _ hne] at hb
      exact List.mem_of_mem_getLast? hb
    rw [hu b hb', Bool.false_and]

end Ctx

end MAlloc.Heap
