/-
  `SegmentHeap::allocate` and `SegmentHeap::deallocate` against the representation.

  `HeapOk w h segs others`: the heap represents the layout `segs`, its segments and `others`
  are together what the OS has mapped, and every segment has the size the OS rounds
  `kSegmentSize` to. `allocate_spec` and `deallocate_spec` say what a call does to the layout
  and which bytes it keeps: every payload that is handed out before and after, and all of
  `others`.
-/
import MAlloc.Heap.Fit

namespace MAlloc.Heap

open Lib MediumBlock SegmentHeap SystemMemory

/-- What a segment's size is on this machine. -/
def segmentBytes (w : World) : Nat := roundToPages w.page kSegmentSize

structure HeapOk (w : World) (h : SegmentHeap) (segs : List Seg) (others : List Span) : Prop where
  world : w.Ok
  mapped : w.mapped.Perm (h.segments ++ others)
  spans : h.segments = segs.map Seg.span
  rep : ∃ lists, Rep w.mem h.bins segs lists 0
  full : ∀ s ∈ segs, total s.blocks = segmentBytes w

/-- The segment has a block that is handed out. -/
def Busy (s : Seg) : Prop := ∃ b ∈ s.blocks, b.free = false

/-- A segment without handed-out block is the only one. -/
def Retained (segs : List Seg) : Prop := 2 ≤ segs.length → ∀ s ∈ segs, Busy s

theorem segmentBytes_bounds (w : World) : kSegmentSize ≤ segmentBytes w ∧
    segmentBytes w < 2 ^ 40 ∧ segmentBytes w % 16 = 0 := by
  have h1 := roundToPages_bounds (p := w.page) (n := kSegmentSize) (by decide)
  have h2 := w.page.bounds
  refine ⟨h1.1, ?_, roundToPages_mod_16 _ _⟩
  unfold segmentBytes
  have h3 : kSegmentSize = 4194304 := rfl
  omega

section Ok
variable {w w' : World} {h : SegmentHeap} {segs : List Seg} {others : List Span} {c : Ctx}

theorem HeapOk.layout (hok : HeapOk w h segs others) : Layout segs := by
  obtain ⟨lists, hr⟩ := hok.rep
  exact hr.layout

/-- The segments and `others` are apart. -/
theorem HeapOk.apart (hok : HeapOk w h segs others) : (h.segments ++ others).Pairwise Span.Disjoint :=
  Span.pairwise_disjoint_perm hok.mapped hok.world.apart

theorem HeapOk.outside (hok : HeapOk w h segs others) {r : Span} (hr : r ∈ others) {x : Nat}
    (hx : r.Has x) : ∀ s ∈ segs, ¬ s.span.Has x := by
  intro s hs hsx
  have hd := (List.pairwise_append.mp hok.apart).2.2 s.span
    (by rw [hok.spans]; exact List.mem_map_of_mem hs) r hr
  exact hd.not_has hsx hx

/-- A payload outside the hole is handed out whatever fills the hole, and does not meet it. -/
theorem used_free_plug {mid : List Blk} (hl : Layout (c.plug mid)) (ht : total mid = c.hole) {u : Span} (hu : u ∈ used (c.plug [⟨c.hole, true⟩])) :
    u ∈ used (c.plug mid) ∧ ∀ x, u.Has x → ¬ (c.addr ≤ x ∧ x < c.addr + c.hole) := by
  refine ⟨?_, fun x hx => ?_⟩
  · obtain ⟨X, Y, hXY⟩ := c.used_plug
    rw [hXY _ (by simp)] at hu
    rw [hXY _ ht]
    simp only [usedFrom, List.mem_append] at hu ⊢
    tauto
  · obtain ⟨p, hp, hpf, rfl⟩ := mem_used.mp hu
    unfold Span.Has PBlk.payload at hx
    simp only at hx
    rcases (c.mem_placed_plug (by simp) (by simp)).mp hp with hp | hp | hp
    · simp only [place, List.mem_singleton] at hp
      rw [hp] at hpf
      cases hpf
    · have := (c.next_addr hp).1
      omega
    · have := (c.outer_apart hl ht hp).1
      omega

/-- What an edit of a hole keeps, when it writes only to the hole, tags and free nodes. -/
theorem HeapOk.keeps {mid : List Blk} (hok : HeapOk w h (c.plug mid) others)
    (ht : total mid = c.hole) (hp : w'.page = w.page) (hr : w.refusals ≤ w'.refusals)
    (hq : ∀ x, Quiet (c.plug mid) x → ¬ (c.addr ≤ x ∧ x < c.addr + c.hole) → w'.mem x = w.mem x)
    (htame : Tame w.mem w'.mem) : w.Keeps w' (used (c.plug [⟨c.hole, true⟩]) ++ others) := by
  refine ⟨hp, hr, fun u hu x h1 h2 => ?_, fun x hx _ => htame x hx⟩
  rcases List.mem_append.mp hu with hu | hu
  · obtain ⟨hu', hout⟩ := used_free_plug hok.layout ht hu
    exact hq x (quiet_of_used hok.layout hu' ⟨h1, h2⟩) (hout x ⟨h1, h2⟩)
  · have hx := hok.outside hu (x := x) ⟨h1, h2⟩
    refine hq x (quiet_of_outside hok.layout hx) fun hh => hx ⟨c.base, c.left ++ mid ++ c.right⟩
      (by simp [Ctx.plug]) ?_
    unfold Span.Has Seg.span
    unfold Ctx.addr at hh
    simp only [total_append]
    omega

/-- The layout changes inside one hole; the page tables and the vector of segments stay. -/
theorem HeapOk.edit {mid mid' : List Blk} (hok : HeapOk w h (c.plug mid) others)
    (ht : total mid' = total mid) {m' : Mem} {bins' : Nat → Nat}
    (hr : ∃ lists, Rep m' bins' (c.plug mid') lists 0) :
    HeapOk { w with mem := m' } { h with bins := bins' } (c.plug mid') others where
  world := ok_mem hok.world _
  mapped := hok.mapped
  spans := hok.spans.trans (c.plug_map_span ht.symm)
  rep := hr
  full s hs := by
    unfold Ctx.plug at hs
    rcases List.mem_append.mp hs with hs | hs
    · exact hok.full s (by simp [Ctx.plug, hs])
    · rcases List.mem_cons.mp hs with rfl | hs
      · have := hok.full ⟨c.base, c.left ++ mid ++ c.right⟩ (by simp [Ctx.plug])
        simp only [total_append, ht] at this ⊢
        exact this
      · exact hok.full s (by simp [Ctx.plug, hs])

theorem Retained.plug {mid mid' : List Blk} (hret : Retained (c.plug mid))
    (hb : Busy ⟨c.base, c.left ++ mid' ++ c.right⟩) : Retained (c.plug mid') := by
  intro hlen s hs
  have hall := hret (by simpa [Ctx.plug] using hlen)
  unfold Ctx.plug at hs
  rcases List.mem_append.mp hs with hs | hs
  · exact hall s (by simp [Ctx.plug, hs])
  · rcases List.mem_cons.mp hs with rfl | hs
    · exact hb
    · exact hall s (by simp [Ctx.plug, hs])

/-! ## A segment comes -/

theorem initSegment_spec {m : Mem} {a s : Nat} (hs : SizeOk s) :
    HasTag (initSegment m a s) a s ⟨false, true, true⟩ ∧ prevSize (initSegment m a s) a = 0 ∧
      ∀ x, ¬ (a ≤ x ∧ x < a + 16) → initSegment m a s x = m x := by
  have h0 : (0 : Nat) = tagWord 0 ⟨false, false, false⟩ := rfl
  have r1 : HasTag (setSizeAndFlags m a (tagWord 0 ⟨false, false, false⟩)) a 0
      ⟨false, false, false⟩ := hasTag_write (by unfold SizeOk; omega)
  rw [← h0] at r1
  have r4 := ((r1.setSize hs).setFirst true).setLast true
  have k4 : ∀ x, ¬ (a ≤ x ∧ x < a + 8) → setFlag (setFlag (setSize (setSizeAndFlags m a 0) a s) a
      kFirstFlag true) a kLastFlag true x = m x := fun x hx =>
    (setFlag_of_not hx).trans ((setFlag_of_not hx).trans ((setSize_of_not hx).trans
      (writeLE_of_not hx)))
  unfold initSegment
  refine ⟨r4.congr fun x h1 h2 => writeLE_of_not (by omega), readLE_writeLE_word (by omega),
    fun x hx => ?_⟩
  exact (writeLE_of_not (by omega)).trans (k4 x (by omega))

theorem initSegment_tame {m : Mem} {a s : Nat} (ha : a % 16 = 0) : Tame m (initSegment m a s) := by
  have h1 : Tame m (setSizeAndFlags m a 0) := tame_lower ha
  have h2 : Tame m (setSize (setSizeAndFlags m a 0) a s) := h1.trans (tame_lower ha)
  exact ((h2.trans (setFlag_tame ha)).trans (setFlag_tame ha)).trans (tame_upper ha rfl)

/-- A segment of one used block joins the layout; it lies apart from the others. -/
theorem Rep.addSeg {m m' : Mem} {bins : Nat → Nat} {lists : Nat → List Nat} {a s : Nat}
    (hr : Rep m bins segs lists 0) (hwf : Seg.Wf ⟨a, [⟨s, false⟩]⟩)
    (hap : ∀ t ∈ segs, t.span.Disjoint ⟨a, s⟩)
    (hk : ∀ t ∈ segs, SameOn m m' t.span.data t.span.size)
    (htag : HasTag m' a s ⟨false, true, true⟩) (hprev : prevSize m' a = 0) :
    Rep m' bins (segs ++ [⟨a, [⟨s, false⟩]⟩]) lists 0 := by
  have hin : ∀ p ∈ placed segs, SameOn m m' p.addr p.size := fun p hp => by
    obtain ⟨t, ht, hpt⟩ := mem_placed.mp hp
    have := Seg.placed_within hpt
    exact (hk t ht).mono this.1 this.2
  have hr' : Rep m' bins segs lists 0 := hr.congr
    (fun p hp => (hin p hp).mono (by omega) (by have := hr.layout.placed_ok hp; omega))
    (fun p hp _ => (hin p hp).mono (by unfold PBlk.node; omega)
      (by have := hr.layout.placed_ok hp; unfold PBlk.node; omega))
  have hmem : ∀ p, p ∈ placed (segs ++ [⟨a, [⟨s, false⟩]⟩]) ↔
      p ∈ placed segs ∨ p = ⟨a, s, ⟨false, true, true⟩, 0⟩ := by
    intro p
    unfold placed
    simp [Seg.placed, place]
  refine ⟨⟨?_, ?_⟩, ?_, ?_, hr'.bin, ?_⟩
  · intro t ht
    rcases List.mem_append.mp ht with ht | ht
    · exact hr.layout.wf t ht
    · rw [List.mem_singleton.mp ht]
      exact hwf
  · rw [List.map_append, List.pairwise_append]
    refine ⟨hr.layout.apart, by simp, fun t ht q hq => ?_⟩
    obtain ⟨t', ht', rfl⟩ := List.mem_map.mp ht
    have hq' : q = ⟨a, s⟩ := by simpa [Seg.span] using hq
    rw [hq']
    exact hap t' ht'
  · intro p hp
    rcases (hmem p).mp hp with hp | rfl
    · exact hr'.tags p hp
    · exact htag
  · intro p hp h0
    rcases (hmem p).mp hp with hp | rfl
    · exact hr'.prevs p hp h0
    · exact hprev
  · intro i n
    rw [hr.mem_lists i n]
    constructor
    · rintro ⟨p, hp, h⟩
      exact ⟨p, (hmem p).mpr (Or.inl hp), h⟩
    · rintro ⟨p, hp, hpn, hpf, hpi⟩
      rcases (hmem p).mp hp with hp | rfl
      · exact ⟨p, hp, hpn, hpf, hpi⟩
      · cases hpf

/-- **`addSegment`**: refused, or one wholly free segment more. -/
theorem addSegment_spec (hok : HeapOk w h segs others) {b : Bool} {h' : SegmentHeap}
    (he : addSegment w h = (b, w', h')) :
    (b = false ∧ HeapOk w' h' segs others ∧ w.refusals < w'.refusals ∧
      w.Keeps w' (used segs ++ others)) ∨
    (b = true ∧ ∃ a, (SystemMemory.map w kSegmentSize).1 = some ⟨a, segmentBytes w⟩ ∧
      HeapOk w' h' (segs ++ [⟨a, [⟨segmentBytes w, true⟩]⟩]) others ∧
      w'.refusals = w.refusals ∧ w.Keeps w' (used segs ++ others)) := by
  have hlist : ∀ x, (∃ s ∈ segs, s.span.Has x) ∨ (∃ r ∈ others, r.Has x) →
      ∃ r ∈ w.mapped, r.Has x := by
    rintro x (⟨s, hs, hx⟩ | ⟨r, hr, hx⟩)
    · exact ⟨s.span, hok.mapped.mem_iff.mpr (List.mem_append_left _
        (by rw [hok.spans]; exact List.mem_map_of_mem hs)), hx⟩
    · exact ⟨r, hok.mapped.mem_iff.mpr (List.mem_append_right _ hr), hx⟩
  have hused : ∀ u ∈ used segs ++ others, ∀ x, u.Has x → ∃ r ∈ w.mapped, r.Has x := by
    intro u hu x hx
    rcases List.mem_append.mp hu with hu | hu
    · obtain ⟨s, hs, hi⟩ := used_inside hok.layout hu
      exact hlist x (Or.inl ⟨s, hs, hi.has hx⟩)
    · exact hlist x (Or.inr ⟨u, hu, hx⟩)
  obtain ⟨lists, hr⟩ := hok.rep
  unfold addSegment at he
  cases hmap : SystemMemory.map w kSegmentSize with
  | mk o w1 =>
    rw [hmap] at he
    rcases map_cases hmap with ⟨rfl, hm, hmp, hpg, h0 | href⟩ | ⟨r, rfl, hsz, hg, hm, hmp, hpg, href⟩
    · exact absurd h0.1 (by decide)
    · cases he
      refine Or.inl ⟨rfl, ⟨map_ok hok.world hmap, by rw [hmp.1]; exact hok.mapped, hok.spans,
        ⟨lists, by rw [hm]; exact hr⟩, ?_⟩, by omega, hpg, by omega, fun u _ x _ _ => by rw [hm],
        fun x hx _ => map_tame hmap x hx⟩
      unfold segmentBytes
      rw [hpg]
      exact hok.full
    · dsimp only at he
      have hb := segmentBytes_bounds w
      have hsz' : r.size = segmentBytes w := hsz
      have hpos : kSegmentSize = 4194304 := rfl
      have hsok : SizeOk r.size := by
        unfold SizeOk
        omega
      obtain ⟨htag, hprev, hkeep⟩ := initSegment_spec (m := w1.mem) (a := r.data) hsok
      have hbound := hg.2.2.2.1
      have hkr : ∀ x, ¬ r.Has x → initSegment w1.mem r.data r.size x = w.mem x := by
        intro x hx
        unfold Span.Has at hx
        rw [hkeep x (by omega), hm, fill_of_not (by omega)]
      have hapart : ∀ t ∈ segs, t.span.Disjoint r := fun t ht =>
        (hg.2.2.2.2 t.span (hok.mapped.mem_iff.mpr (List.mem_append_left _
          (by rw [hok.spans]; exact List.mem_map_of_mem ht)))).symm
      have hwf : Seg.Wf ⟨r.data, [⟨r.size, false⟩]⟩ :=
        ⟨mod_16_of_grants hg, hg.2.1, by simpa using hbound, by simp,
          by simp only [List.mem_singleton, forall_eq]; omega, by simp [Coalesced]⟩
      have h1 := hr.addSeg hwf hapart
        (fun t ht x h1 h2 => hkr x fun hx => (hapart t ht).not_has ⟨h1, h2⟩ hx) htag hprev
      -- the new block is the filling of a hole that is its whole segment
      let c : Ctx := ⟨segs, r.data, [], r.size, [], []⟩
      have hplug : ∀ f, segs ++ [⟨r.data, [⟨r.size, f⟩]⟩] = c.plug [⟨c.hole, f⟩] := fun f => by
        simp [c, Ctx.plug]
      have haddr : c.addr = r.data := by simp [c, Ctx.addr]
      rw [hplug] at h1
      have h2 := insertFree_rep h1 (by simp [c, Coalesced])
      have ht2 := insertFree_tame h1
      rw [haddr] at h2 ht2
      have htame := (map_tame hmap).trans ((initSegment_tame (mod_16_of_grants hg)).trans ht2)
      cases he
      refine Or.inr ⟨rfl, r.data, by rw [← hsz'], ⟨?_, ?_, ?_, ?_, ?_⟩, href,
        ⟨hpg, by rw [← href], ?_, fun x hx _ => htame x hx⟩⟩
      · exact ok_cons hok.world hg hmp
      · change w1.mapped.Perm _
        rw [hmp.1]
        refine (List.Perm.cons r hok.mapped).trans ?_
        simp only [List.append_assoc, List.singleton_append]
        exact List.perm_middle.symm
      · simp [hok.spans, Seg.span, ← hsz']
      · rw [← hsz', hplug]
        exact ⟨_, h2.1⟩
      · intro s hs
        rcases List.mem_append.mp hs with hs | hs
        · have := hok.full s hs
          unfold segmentBytes at this ⊢
          rw [this, hpg]
        · rw [List.mem_singleton.mp hs]
          unfold segmentBytes
          simp [hpg]
      · intro u hu x hx1 hx2
        have hxr : ¬ r.Has x := fun hx => by
          obtain ⟨q, hq, hqx⟩ := hused u hu x ⟨hx1, hx2⟩
          exact (hg.2.2.2.2 q hq).not_has hx hqx
        refine (h2.2 x ?_).trans (hkr x hxr)
        have hlay := h2.1.layout
        rcases List.mem_append.mp hu with hu | hu
        · refine quiet_of_used hlay (u := u) ?_ ⟨hx1, hx2⟩
          rw [← hplug]
          unfold used at hu ⊢
          rw [List.flatMap_append]
          exact List.mem_append_left _ hu
        · refine quiet_of_outside hlay fun s hs hsx => ?_
          rw [← hplug] at hs
          rcases List.mem_append.mp hs with hs | hs
          · exact hok.outside hu ⟨hx1, hx2⟩ s hs hsx
          · rw [List.mem_singleton.mp hs] at hsx
            exact hxr (by simpa [Seg.span, Span.Has] using hsx)

/-! ## allocate -/

theorem totalFor_ok (bytes : Nat) : 48 ≤ totalFor bytes ∧ totalFor bytes % 16 = 0 := by
  have h1 : alignUp bytes kDefaultAlignment % 16 = 0 := alignUp_16_mod bytes
  have h2 : alignUp bytes kDefaultAlignment < 2 ^ 64 := alignUp_16_lt bytes
  unfold totalFor
  change 48 ≤ max ((alignUp bytes kDefaultAlignment + 16) % 2 ^ 64) 48 ∧
    max ((alignUp bytes kDefaultAlignment + 16) % 2 ^ 64) 48 % 16 = 0
  omega

/-- A request that does not wrap gets its bytes and a header. -/
theorem le_totalFor {n : Nat} (h : n + 31 < 2 ^ 64) : n + 16 ≤ totalFor n := by
  have h1 : alignUp n kDefaultAlignment = (n + 15) / 16 * 16 := alignUp_16 (by omega)
  unfold totalFor
  rw [h1]
  change n + 16 ≤ max (((n + 15) / 16 * 16 + 16) % 2 ^ 64) 48
  omega

/-- What a served request leaves: one payload more, everything else kept. -/
structure Served (w w' : World) (h' : SegmentHeap) (segs segs' : List Seg) (others : List Span)
    (t : Nat) (u : Span) : Prop where
  ok : HeapOk w' h' segs' others
  used : (used segs').Perm (u :: used segs)
  size : t ≤ u.size + 16
  keeps : w.Keeps w' (Heap.used segs ++ others)
  refusals : w'.refusals = w.refusals

theorem serve_spec (hok : HeapOk w h segs others) {p : PBlk} (hp : p ∈ placed segs)
    (hpf : p.flags.free = true) {t : Nat} (ht : 48 ≤ t) (ht16 : t % 16 = 0) (hle : t ≤ p.size) :
    ∃ (c : Ctx) (mid : List Blk) (u : Span) (w' : World) (h' : SegmentHeap),
      serve w h p.addr t = (some u.data, w', h') ∧
      segs = c.plug [⟨c.hole, true⟩] ∧ c.addr = p.addr ∧ t ≤ c.hole ∧ u.data = c.addr + 16 ∧
      h'.segments = h.segments ∧ w'.mapped = w.mapped ∧
      (mid = [⟨c.hole, false⟩] ∧ c.hole < t + 48 ∨
        mid = [⟨t, false⟩, ⟨c.hole - t, true⟩] ∧ t + 48 ≤ c.hole) ∧
      Served w w' h' segs (c.plug mid) others t u ∧
      Busy ⟨c.base, c.left ++ mid ++ c.right⟩ := by
  obtain ⟨c, rfl, hhole, haddr, -⟩ := Ctx.exists_of_mem hp
  rw [← hhole, hpf] at hok ⊢
  obtain ⟨lists, hr⟩ := hok.rep
  have h1 := removeFree_rep hr
  have hwf : (⟨c.base, c.left ++ [⟨c.hole, true⟩] ++ c.right⟩ : Seg).Wf :=
    hok.layout.wf _ (by simp [Ctx.plug])
  obtain ⟨mid, lists', h2, hmid, h3, ht3⟩ := splitBlock_rep h1.1 hwf.coalesced ht ht16 (by omega)
  have htot : total mid = c.hole ∧ ∃ u : Span, u.data = c.addr + 16 ∧ t ≤ u.size + 16 ∧
      usedFrom c.addr mid = [u] ∧ ∃ b ∈ mid, b.free = false := by
    rcases hmid with ⟨rfl, -⟩ | ⟨rfl, hle'⟩
    · exact ⟨by simp, ⟨c.addr + 16, c.hole - 16⟩, rfl, by simp only; omega, rfl, by simp⟩
    · exact ⟨by simp; omega, ⟨c.addr + 16, t - 16⟩, rfl, by simp only; omega, rfl, by simp⟩
  obtain ⟨htot, u, hud, hus, huf, b, hb, hbf⟩ := htot
  have hserve : serve w h c.addr t = (some u.data,
      { w with mem := (splitBlock (removeFree w.mem h.bins c.addr).1
        (removeFree w.mem h.bins c.addr).2 c.addr t).1 },
      { h with bins := (splitBlock (removeFree w.mem h.bins c.addr).1
        (removeFree w.mem h.bins c.addr).2 c.addr t).2 }) := by
    rw [hud]
    rfl
  rw [haddr]
  refine ⟨c, mid, u, _, _, hserve, rfl, rfl, by omega, hud, rfl, rfl, hmid, ⟨?_, ?_, hus, ?_, rfl⟩, b,
    by simp [hb], hbf⟩
  · exact hok.edit (by rw [htot]; simp) ⟨lists', h2⟩
  · exact Ctx.used_perm htot (by simp) huf rfl
  · refine hok.keeps (by simp) rfl (Nat.le_refl _) (fun x hx hxh => ?_) ((removeFree_tame hr).trans ht3)
    refine (h3 x (hx.refill hxh (by simp) (by simp) (by simp) (by simp) ?_) hxh).trans (h1.2 x hx)
    simpa using hr.hole_ok.2.2.1

/-- The blocks of a busy-free segment: when all are free, there is one only. -/
theorem single_of_not_busy {s : Seg} (hwf : s.Wf) (hb : ¬ Busy s) :
    s.blocks = [⟨total s.blocks, true⟩] := by
  have hall : ∀ b ∈ s.blocks, b.free = true := fun b hb' => by
    by_contra hf
    exact hb ⟨b, hb', by simpa using hf⟩
  have hco := hwf.coalesced
  have hne := hwf.ne_nil
  unfold Coalesced at hco
  generalize s.blocks = bs at *
  match bs, hne with
  | [b], _ =>
    have hbf := hall b (by simp)
    simp [total, ← hbf]
  | b :: d :: r, _ =>
    have h1 := (List.isChain_cons_cons.mp hco).1
    rw [hall b (by simp), hall d (by simp)] at h1
    cases h1

/-- When no free block fits a request of at most a segment, every segment is busy. -/
theorem busy_of_findFit_none (hok : HeapOk w h segs others) {t : Nat} (ht : t ≤ kSegmentSize)
    (hfit : findFit w.mem h t = none) : ∀ s ∈ segs, Busy s := by
  intro s hs
  by_contra hb
  obtain ⟨lists, hr⟩ := hok.rep
  have hone := single_of_not_busy (hok.layout.wf s hs) hb
  have hpl : (⟨s.base, total s.blocks, ⟨true, true, true⟩, 0⟩ : PBlk) ∈ placed segs := by
    refine mem_placed.mpr ⟨s, hs, ?_⟩
    unfold Seg.placed
    rw [hone]
    simp [place]
  have h1 : total s.blocks < t := hr.findFit_none hok.spans hfit hpl rfl
  rw [hok.full s hs] at h1
  exact absurd ((segmentBytes_bounds w).1.trans_lt h1) (Nat.not_lt.mpr ht)

/-- Serving from the one segment that was not busy leaves every segment busy. -/
theorem busy_of_served {new : Seg} {mid : List Blk} (hlay : Layout (c.plug [⟨c.hole, true⟩]))
    (hseg : segs ++ [new] = c.plug [⟨c.hole, true⟩]) (hbusy : ∀ s ∈ segs, Busy s)
    (hnew : new.span.Has c.addr) (hb : Busy ⟨c.base, c.left ++ mid ++ c.right⟩) :
    ∀ s ∈ c.plug mid, Busy s := by
  have hap := hlay.apart
  have hole := hlay.placed_ok (c.blk_mem true)
  have hin : (Seg.span ⟨c.base, c.left ++ [⟨c.hole, true⟩] ++ c.right⟩).Has c.addr := by
    unfold Span.Has Seg.span Ctx.addr
    simp only [Ctx.blk] at hole
    simp only [total_append, total_cons, total_nil]
    omega
  unfold Ctx.plug at hap
  rw [List.map_append, List.map_cons, List.pairwise_append, List.pairwise_cons] at hap
  have hold : ∀ s, s ∈ c.before ∨ s ∈ c.after → Busy s := by
    intro s hs
    have hmem : s ∈ segs ++ [new] := by
      rw [hseg]
      rcases hs with hs | hs <;> simp [Ctx.plug, hs]
    rcases List.mem_append.mp hmem with hm | hm
    · exact hbusy s hm
    · exfalso
      rw [List.mem_singleton.mp hm] at hs
      rcases hs with hs | hs
      · exact (hap.2.2 _ (List.mem_map_of_mem hs) _ List.mem_cons_self).not_has hnew hin
      · exact (hap.2.1.1 _ (List.mem_map_of_mem hs)).not_has hin hnew
  intro s hs
  unfold Ctx.plug at hs
  rcases List.mem_append.mp hs with hs | hs
  · exact hold s (Or.inl hs)
  · rcases List.mem_cons.mp hs with rfl | hs
    · exact hb
    · exact hold s (Or.inr hs)

/-- What `allocate` may do: serve the request, or refuse it because it is larger than a segment
    or because the OS gave none. -/
inductive AllocOutcome (w : World) (h : SegmentHeap) (segs : List Seg) (others : List Span)
    (t : Nat) : Option Nat × World × SegmentHeap → Prop
  | tooLarge : kSegmentSize < t → AllocOutcome w h segs others t (none, w, h)
  | refused {w' h'} : HeapOk w' h' segs others → w.Keeps w' (used segs ++ others) →
      w.refusals < w'.refusals → AllocOutcome w h segs others t (none, w', h')
  | served {w' h' u segs'} : Served w w' h' segs segs' others t u → Retained segs' → segs' ≠ [] →
      AllocOutcome w h segs others t (some u.data, w', h')

/-- Serving from a segment that was just added. -/
theorem serve_new (hok : HeapOk w h segs others) {t a : Nat} (ht : 48 ≤ t) (ht16 : t % 16 = 0)
    (hle : t ≤ kSegmentSize) (hfit : findFit w.mem h t = none) {w1 : World} {h1 : SegmentHeap}
    (hok1 : HeapOk w1 h1 (segs ++ [⟨a, [⟨segmentBytes w, true⟩]⟩]) others)
    (href : w1.refusals = w.refusals) (hk : w.Keeps w1 (used segs ++ others)) :
    ∃ block, findFit w1.mem h1 t = some block ∧
      AllocOutcome w h segs others t (serve w1 h1 block t) := by
  obtain ⟨lists, hr⟩ := hok.rep
  obtain ⟨lists1, hr1⟩ := hok1.rep
  have hnew : (⟨a, segmentBytes w, ⟨true, true, true⟩, 0⟩ : PBlk) ∈
      placed (segs ++ [⟨a, [⟨segmentBytes w, true⟩]⟩]) := by
    unfold placed
    simp [Seg.placed, place]
  cases hfit1 : findFit w1.mem h1 t with
  | none =>
    have h2 : segmentBytes w < t := hr1.findFit_none hok1.spans hfit1 hnew rfl
    exact absurd ((segmentBytes_bounds w).1.trans_lt h2) (Nat.not_lt.mpr hle)
  | some block =>
    obtain ⟨p, hp, rfl, hpf, hps⟩ := hr1.findFit_some hok1.spans hfit1
    obtain ⟨c, mid, u, w', h', he, hseg, hca, -, -, -, -, -, hsv, hb⟩ :=
      serve_spec hok1 hp hpf ht ht16 hps
    have hused : used (segs ++ [⟨a, [⟨segmentBytes w, true⟩]⟩]) = used segs := by
      simp [used, usedFrom]
    have hpnew : (Seg.span ⟨a, [⟨segmentBytes w, true⟩]⟩).Has c.addr := by
      unfold placed at hp
      rw [List.flatMap_append] at hp
      rcases List.mem_append.mp hp with hp' | hp'
      · exact absurd hps (Nat.not_le.mpr (hr.findFit_none hok.spans hfit hp' hpf))
      · rw [List.flatMap_cons, List.flatMap_nil, List.append_nil] at hp'
        have hok48 := hok1.layout.placed_ok (mem_placed.mpr ⟨_, List.mem_append_right _
          List.mem_cons_self, hp'⟩)
        rw [hca]
        refine (Seg.placed_within hp').has ?_
        unfold Span.Has PBlk.span
        simp only
        omega
    refine ⟨_, rfl, ?_⟩
    rw [he]
    refine AllocOutcome.served ⟨hsv.ok, by rw [← hused]; exact hsv.used, hsv.size, ?_,
      hsv.refusals.trans href⟩ (fun _ => ?_) (by simp [Ctx.plug])
    · refine hk.trans ?_
      have := hsv.keeps
      rwa [hused] at this
    · exact busy_of_served (hseg ▸ hok1.layout) hseg (busy_of_findFit_none hok hle hfit) hpnew hb

theorem retry_of_some {t block : Nat} (hf : findFit w.mem h t = some block) :
    retry w h t = serve w h block t := by
  unfold retry
  rw [hf]

theorem allocate_of_some {bytes block : Nat} (hle : ¬ kSegmentSize < totalFor bytes)
    (hf : findFit w.mem h (totalFor bytes) = some block) :
    SegmentHeap.allocate w h bytes = serve w h block (totalFor bytes) := by
  unfold SegmentHeap.allocate
  rw [if_neg hle, hf]

theorem allocate_of_none {bytes : Nat} (hle : ¬ kSegmentSize < totalFor bytes)
    (hf : findFit w.mem h (totalFor bytes) = none) :
    SegmentHeap.allocate w h bytes =
      if (addSegment w h).1 then
        retry (addSegment w h).2.1 (addSegment w h).2.2 (totalFor bytes)
      else (none, (addSegment w h).2) := by
  unfold SegmentHeap.allocate
  rw [if_neg hle, hf]

/-- **`allocate`** on a represented heap. -/
theorem allocate_spec (hok : HeapOk w h segs others) (hret : Retained segs) (bytes : Nat) :
    AllocOutcome w h segs others (totalFor bytes) (SegmentHeap.allocate w h bytes) := by
  obtain ⟨ht, ht16⟩ := totalFor_ok bytes
  by_cases hbig : kSegmentSize < totalFor bytes
  · have he : SegmentHeap.allocate w h bytes = (none, w, h) := by
      unfold SegmentHeap.allocate
      rw [if_pos hbig]
    rw [he]
    exact AllocOutcome.tooLarge hbig
  have hle := Nat.not_lt.mp hbig
  obtain ⟨lists, hr⟩ := hok.rep
  cases hfit : findFit w.mem h (totalFor bytes) with
  | some a =>
    obtain ⟨p, hp, rfl, hpf, hps⟩ := hr.findFit_some hok.spans hfit
    obtain ⟨c, mid, u, w', h', he, hseg, -, -, -, -, -, -, hsv, hbusy⟩ :=
      serve_spec hok hp hpf ht ht16 hps
    rw [hseg] at hret
    rw [allocate_of_some hbig hfit, he]
    exact AllocOutcome.served hsv (hret.plug hbusy) (by simp [Ctx.plug])
  | none =>
    rw [allocate_of_none hbig hfit]
    have hadd : addSegment w h =
      ((addSegment w h).1, (addSegment w h).2.1, (addSegment w h).2.2) := rfl
    rcases addSegment_spec hok hadd with ⟨hb, hok1, href, hk⟩ | ⟨hb, a, -, hok1, href, hk⟩
    · rw [if_neg (by simp [hb])]
      exact AllocOutcome.refused hok1 hk href
    · obtain ⟨block, hfit1, hout⟩ := serve_new hok ht ht16 hle hfit hok1 href hk
      rw [if_pos hb, retry_of_some hfit1]
      exact hout

/-! ## deallocate -/

/-- A segment of one used block leaves the layout. -/
theorem Rep.eraseSeg {m : Mem} {bins : Nat → Nat} {lists : Nat → List Nat} {S T : List Seg}
    {a s : Nat} (hr : Rep m bins (S ++ ⟨a, [⟨s, false⟩]⟩ :: T) lists 0) :
    Rep m bins (S ++ T) lists 0 := by
  have hmem : ∀ p, p ∈ placed (S ++ ⟨a, [⟨s, false⟩]⟩ :: T) ↔
      p ∈ placed (S ++ T) ∨ p = ⟨a, s, ⟨false, true, true⟩, 0⟩ := by
    intro p
    unfold placed
    simp only [List.flatMap_append, List.flatMap_cons, Seg.placed, place, List.mem_append,
      List.mem_cons, List.not_mem_nil, or_false, List.isEmpty_nil, Bool.not_false, Bool.and_true]
    tauto
  have hsub : (S ++ T).Sublist (S ++ ⟨a, [⟨s, false⟩]⟩ :: T) :=
    (List.Sublist.refl S).append (List.sublist_cons_self _ T)
  refine ⟨⟨fun t ht => hr.layout.wf t (hsub.subset ht), hr.layout.apart.sublist (hsub.map _)⟩,
    fun p hp => hr.tags p ((hmem p).mpr (Or.inl hp)),
    fun p hp => hr.prevs p ((hmem p).mpr (Or.inl hp)), hr.bin, fun i n => ?_⟩
  rw [hr.mem_lists i n]
  constructor
  · rintro ⟨p, hp, hpn, hpf, hpi⟩
    rcases (hmem p).mp hp with hp | rfl
    · exact ⟨p, hp, hpn, hpf, hpi⟩
    · cases hpf
  · rintro ⟨p, hp, h⟩
    exact ⟨p, (hmem p).mpr (Or.inl hp), h⟩

/-- What `deallocate` has done before it inserts or releases the block: the block has become the
    filling of a hole together with its free neighbours, and what is beside the hole is used. -/
structure Merged (m : Mem) (segs : List Seg) (u : Span) (c : Ctx) (mid : List Blk) (m' : Mem)
    (bins' : Nat → Nat) : Prop where
  segs_eq : segs = c.plug mid
  total_eq : total mid = c.hole
  payload : usedFrom c.addr mid = [u]
  rep : ∃ lists, Rep m' bins' (c.plug [⟨c.hole, false⟩]) lists 0
  keep : ∀ x, Quiet segs x → m' x = m x
  tame : Tame m m'
  left : ∀ b ∈ c.left.getLast?, b.free = false
  right : ∀ b ∈ c.right.head?, b.free = false

/-- The two merges and the repair of the `prevSize` after them. -/
def mergeBlock (m : Mem) (bins : Nat → Nat) (block : Nat) : Nat × Mem × (Nat → Nat) :=
  let r := mergeNext m bins block
  let q := mergePrev r.1 r.2 block
  (q.1, nextPrev q.2.1 q.1 (size q.2.1 q.1), q.2.2)

theorem mergeBlock_spec {m : Mem} {bins : Nat → Nat} {lists : Nat → List Nat}
    (hr : Rep m bins (c.plug [⟨c.hole, false⟩]) lists 0) :
    ∃ (c' : Ctx) (mid : List Blk), (mergeBlock m bins c.addr).1 = c'.addr ∧
      Merged m (c.plug [⟨c.hole, false⟩]) ⟨c.addr + 16, c.hole - 16⟩ c' mid
        (mergeBlock m bins c.addr).2.1 (mergeBlock m bins c.addr).2.2 := by
  obtain ⟨c1, post, lists1, hl1, hb1, hh1, hp1, hpost, hr1, hrep1, hk1, ht1⟩ := mergeNext_rep hr
  have ha1 : c1.addr = c.addr := by
    unfold Ctx.addr
    rw [hl1, hb1]
  obtain ⟨c2, pre, lists2, hr2, ha2, hh2, hp2, hpre, hl2, he2, hrep2, hk2, ht2⟩ := mergePrev_rep hrep1
  rw [ha1] at ha2 he2 hrep2 hk2 ht2
  obtain ⟨hrep3, hk3, ht3⟩ := nextPrev_rep hrep2
  have hsz : size (mergePrev (mergeNext m bins c.addr).1 (mergeNext m bins c.addr).2 c.addr).2.1
      c2.addr = c2.hole := (hrep2.tags _ (c2.blk_mem false)).size
  have hm : mergeBlock m bins c.addr = (c2.addr,
      nextPrev (mergePrev (mergeNext m bins c.addr).1 (mergeNext m bins c.addr).2 c.addr).2.1
        c2.addr c2.hole,
      (mergePrev (mergeNext m bins c.addr).1 (mergeNext m bins c.addr).2 c.addr).2.2) := by
    unfold mergeBlock
    dsimp only
    rw [he2, hsz]
  have hplug : ∀ mid, c.plug mid = c2.plug (pre ++ (mid ++ post)) := fun mid => by
    rw [hp2, hp1]
  have hok := hr.hole_ok
  have hok1 := hrep1.hole_ok
  have hok2 := hrep2.hole_ok
  rw [hm]
  refine ⟨c2, pre ++ ([⟨c.hole, false⟩] ++ post), rfl, hplug _, ?_, ?_, ⟨_, hrep3⟩, ?_,
    (ht1.trans ht2).trans ht3, hl2, ?_⟩
  · simp only [total_append, total_cons, total_nil]
    omega
  · have hu : usedFrom c2.addr pre = [] := by
      rcases hpre with rfl | ⟨s, rfl⟩ <;> rfl
    have hu' : ∀ a, usedFrom a post = [] := fun a => by
      rcases hpost with rfl | ⟨s, rfl⟩ <;> rfl
    rw [usedFrom_append, usedFrom_append, hu, hu', ha2]
    rfl
  · intro x hx
    have hq1 : Quiet (c1.plug [⟨c1.hole, false⟩]) x := by
      refine Quiet.whole (l := [⟨c.hole, false⟩] ++ post) ?_ (by simp) ?_
      · rw [hp1]
        exact hx
      · simp only [total_append, total_cons, total_nil]
        omega
    have hq2 : Quiet (c2.plug [⟨c2.hole, false⟩]) x := by
      refine Quiet.whole (l := pre ++ [⟨c1.hole, false⟩]) ?_ (by simp) ?_
      · rw [hp2]
        exact hq1
      · simp only [total_append, total_cons, total_nil]
        omega
    exact (hk3 x hq2).trans ((hk2 x hq1).trans (hk1 x hx))
  · rw [hr2]
    exact hr1

theorem deallocate_eq (w : World) (h : SegmentHeap) (payload : Nat) :
    SegmentHeap.deallocate w h payload =
      let q := mergeBlock w.mem h.bins (blockOf payload)
      if isFirst q.2.1 q.1 && isLast q.2.1 q.1 then
        releaseSegment { w with mem := q.2.1 } { h with bins := q.2.2 } q.1
      else ({ w with mem := (insertFree q.2.1 q.2.2 q.1).1 },
        { h with bins := (insertFree q.2.1 q.2.2 q.1).2 }) := rfl

section Free
variable {u : Span} {mid : List Blk} {m' : Mem} {bins' : Nat → Nat}

/-- What the filling of the hole keeps. -/
theorem Merged.keeps (hg : Merged w.mem segs u c mid m' bins') (hok : HeapOk w h segs others)
    {w' : World} (hp : w'.page = w.page) (hrf : w'.refusals = w.refusals)
    (hq : ∀ x, Quiet segs x → ¬ (c.addr ≤ x ∧ x < c.addr + c.hole) → w'.mem x = w.mem x)
    (htame : Tame w.mem w'.mem) : w.Keeps w' (used (c.plug [⟨c.hole, true⟩]) ++ others) := by
  have hok' := hok
  rw [hg.segs_eq] at hok'
  exact hok'.keeps hg.total_eq hp (Nat.le_of_eq hrf.symm) (fun x hx => hq x (by rw [hg.segs_eq]; exact hx))
    htame

theorem Merged.used_perm (hg : Merged w.mem segs u c mid m' bins') :
    (used segs).Perm (u :: used (c.plug [⟨c.hole, true⟩])) := by
  rw [hg.segs_eq]
  exact Ctx.used_perm hg.total_eq (by simp) hg.payload rfl

/-- The merged block has no free neighbour. -/
theorem Merged.coalesced (hg : Merged w.mem segs u c mid m' bins') :
    Coalesced (c.left ++ [⟨c.hole, true⟩] ++ c.right) := by
  obtain ⟨lists, hr⟩ := hg.rep
  have hwf : (⟨c.base, c.left ++ [⟨c.hole, false⟩] ++ c.right⟩ : Seg).Wf :=
    hr.layout.wf _ (by simp [Ctx.plug])
  have hold := hwf.coalesced
  unfold Coalesced at hold ⊢
  rw [List.isChain_append, List.isChain_append] at hold ⊢
  refine ⟨⟨hold.1.1, by simp, fun b hb d _ => ?_⟩, hold.2.1, fun b _ d hd => ?_⟩
  · rw [hg.left b hb, Bool.false_and]
  · rw [hg.right d hd, Bool.and_false]

/-- The merged block goes into its bin. -/
theorem Merged.insert (hg : Merged w.mem segs u c mid m' bins') (hok : HeapOk w h segs others) :
    HeapOk { w with mem := (insertFree m' bins' c.addr).1 }
        { h with bins := (insertFree m' bins' c.addr).2 } (c.plug [⟨c.hole, true⟩]) others ∧
      w.Keeps { w with mem := (insertFree m' bins' c.addr).1 }
        (used (c.plug [⟨c.hole, true⟩]) ++ others) := by
  obtain ⟨lists, hr⟩ := hg.rep
  have hole := hr.hole_ok
  have h1 := insertFree_rep hr hg.coalesced
  have hok' := hok
  rw [hg.segs_eq] at hok'
  refine ⟨hok'.edit (by rw [hg.total_eq]; simp) ⟨_, h1.1⟩, hg.keeps hok rfl rfl (fun x hx hxh => ?_)
    (hg.tame.trans (insertFree_tame hr))⟩
  refine (h1.2 x ?_).trans (hg.keep x hx)
  rw [hg.segs_eq] at hx
  refine hx.refill hxh ?_ hg.total_eq (by simp) (by simp) (by simpa using hole.2.2.1)
  rintro rfl
  have := hg.payload
  cases this

/-- Beside the hole there is a used block, unless the hole is the whole segment. -/
theorem Merged.busy (hg : Merged w.mem segs u c mid m' bins') (hne : (c.first && c.last) = false)
    (mid' : List Blk) : Busy ⟨c.base, c.left ++ mid' ++ c.right⟩ := by
  rw [Bool.and_eq_false_iff] at hne
  rcases hne with hf | hl
  · rcases List.eq_nil_or_concat c.left with he | ⟨l, b, he⟩
    · unfold Ctx.first at hf
      rw [he] at hf
      cases hf
    · exact ⟨b, by simp [he], hg.left b (by simp [he])⟩
  · cases he : c.right with
    | nil =>
      unfold Ctx.last at hl
      rw [he] at hl
      cases hl
    | cons b r => exact ⟨b, by simp, hg.right b (by simp [he])⟩

/-- The payload lies in the merged block. -/
theorem Merged.inside (hg : Merged w.mem segs u c mid m' bins') (hok : HeapOk w h segs others) :
    u.Inside ⟨c.addr, c.hole⟩ := by
  have hu : u ∈ usedFrom c.addr mid := by
    rw [hg.payload]
    exact List.mem_singleton_self u
  obtain ⟨p, hp, -, rfl⟩ := (mem_usedFrom 0 true false).mp hu
  obtain ⟨q, hq, -, hqp⟩ := mem_used.mp (hg.used_perm.mem_iff.mpr List.mem_cons_self)
  have hqok := hok.layout.placed_ok hq
  have hin := place_within hp
  rw [hg.total_eq] at hin
  unfold PBlk.payload at hqp ⊢
  rw [Span.mk.injEq] at hqp
  unfold Span.Inside
  simp only
  omega

/-- A merged block that is a whole segment is one of the regions in the vector. -/
theorem Merged.spans_eq (hg : Merged w.mem segs u c mid m' bins') (hok : HeapOk w h segs others)
    (hleft : c.left = []) (hright : c.right = []) :
    h.segments = c.before.map Seg.span ++ ⟨c.addr, c.hole⟩ :: c.after.map Seg.span := by
  have haddr : c.addr = c.base := by
    unfold Ctx.addr
    rw [hleft]
    rfl
  rw [hok.spans, hg.segs_eq, c.plug_map_span (r := [⟨c.hole, true⟩]) (by rw [hg.total_eq]; simp)]
  unfold Ctx.plug
  rw [hleft, hright, haddr]
  simp [Seg.span]

/-- **`releaseSegment` finds the segment of the block** and unmaps that one. -/
theorem Merged.found (hg : Merged w.mem segs u c mid m' bins') (hok : HeapOk w h segs others)
    (hleft : c.left = []) (hright : c.right = []) (hlen : ¬ h.segments.length ≤ 1) :
    releaseSegment { w with mem := m' } { h with bins := bins' } c.addr =
      (SystemMemory.unmap { w with mem := m' } ⟨c.addr, c.hole⟩,
        { bins := bins', segments := c.before.map Seg.span ++ c.after.map Seg.span }) := by
  have hspans := hg.spans_eq hok hleft hright
  have hap : h.segments.Pairwise Span.Disjoint := (List.pairwise_append.mp hok.apart).1
  have hpos : ∀ s ∈ h.segments, 0 < s.size := fun s hs =>
    (hok.world.pos s (hok.mapped.mem_iff.mpr (List.mem_append_left _ hs))).2
  unfold releaseSegment
  rw [if_neg hlen]
  dsimp only
  rw [Span.find?_data_of_pairwise hspans hap hpos, ← Span.erase_of_pairwise hspans hap hpos]

/-- The merged block is a whole segment, and is given back to the OS. -/
theorem Merged.release (hg : Merged w.mem segs u c mid m' bins') (hok : HeapOk w h segs others)
    (hf : c.first = true) (hl : c.last = true) (hlen : ¬ h.segments.length ≤ 1) :
    ∃ w' h', releaseSegment { w with mem := m' } { h with bins := bins' } c.addr = (w', h') ∧
      HeapOk w' h' (c.before ++ c.after) others ∧
      w.Keeps w' (used (c.before ++ c.after) ++ others) ∧ w'.refusals = w.refusals ∧
      used (c.before ++ c.after) = used (c.plug [⟨c.hole, true⟩]) := by
  have hleft : c.left = [] := by simpa [Ctx.first] using hf
  have hright : c.right = [] := by simpa [Ctx.last] using hl
  obtain ⟨lists, hr⟩ := hg.rep
  have hole := hr.hole_ok
  have haddr : c.addr = c.base := by
    unfold Ctx.addr
    rw [hleft]
    rfl
  have hplug : ∀ f, c.plug [⟨c.hole, f⟩] = c.before ++ ⟨c.base, [⟨c.hole, f⟩]⟩ :: c.after := fun f => by
    unfold Ctx.plug
    rw [hleft, hright]
    rfl
  have hspans := hg.spans_eq hok hleft hright
  have hap : h.segments.Pairwise Span.Disjoint := (List.pairwise_append.mp hok.apart).1
  have hpos : ∀ s ∈ h.segments, 0 < s.size := fun s hs =>
    (hok.world.pos s (hok.mapped.mem_iff.mpr (List.mem_append_left _ hs))).2
  have herase := Span.erase_of_pairwise hspans hap hpos
  have hin : (⟨c.addr, c.hole⟩ : Span) ∈ h.segments := by
    rw [hspans]
    simp
  have hmem : (⟨c.addr, c.hole⟩ : Span) ∈ w.mapped :=
    hok.mapped.mem_iff.mpr (List.mem_append_left _ hin)
  have he := hg.found hok hleft hright hlen
  refine ⟨_, _, he, ?_, ?_, ?_, ?_⟩
  · rw [hplug] at hr
    refine ⟨unmap_ok (ok_mem hok.world m') hmem, ?_, ?_, ⟨lists, hr.eraseSeg⟩, ?_⟩
    · refine (hok.mapped.erase _).trans ?_
      rw [List.erase_append_left _ hin, herase]
    · rw [List.map_append]
    · intro s hs
      refine hok.full s ?_
      rw [hg.segs_eq]
      unfold Ctx.plug
      rcases List.mem_append.mp hs with hs | hs <;> simp [hs]
  · have : w.Keeps (SystemMemory.unmap { w with mem := m' } ⟨c.addr, c.hole⟩) _ :=
      hg.keeps hok rfl rfl (fun x hx _ => hg.keep x hx) hg.tame
    rw [hplug] at this
    simpa [used, usedFrom] using this
  · rfl
  · rw [hplug]
    simp [used, usedFrom]

/-- `deallocate` merges a handed-out payload with its free neighbours. -/
theorem mergeBlock_merged (hok : HeapOk w h segs others) (hu : u ∈ used segs) :
    ∃ (c : Ctx) (mid : List Blk), (mergeBlock w.mem h.bins (blockOf u.data)).1 = c.addr ∧
      Merged w.mem segs u c mid (mergeBlock w.mem h.bins (blockOf u.data)).2.1
        (mergeBlock w.mem h.bins (blockOf u.data)).2.2 := by
  obtain ⟨p, hp, hpf, rfl⟩ := mem_used.mp hu
  have hpok := hok.layout.placed_ok hp
  obtain ⟨c0, hseg0, hhole, haddr, -⟩ := Ctx.exists_of_mem hp
  rw [← hhole, hpf] at hseg0
  obtain ⟨lists, hr⟩ := hok.rep
  rw [hseg0] at hr
  obtain ⟨c, mid, hblock, hg⟩ := mergeBlock_spec hr
  have hbo : blockOf p.payload.data = p.addr := by
    unfold blockOf
    exact (ptrSub_eq (show 16 ≤ p.addr + 16 by omega) (show p.addr + 16 < 2 ^ 64 by omega)).trans
      (Nat.add_sub_cancel _ _)
  rw [← hseg0, hhole, ← haddr] at hg
  rw [← haddr] at hblock
  rw [hbo]
  exact ⟨c, mid, hblock, hg⟩

/-- **`deallocate`** of a handed-out payload: it is handed out no more, everything else is
    kept, and a segment without handed-out block stays only when it is the last. -/
theorem deallocate_spec (hok : HeapOk w h segs others) (hret : Retained segs) (hu : u ∈ used segs) :
    ∃ w' h' segs', SegmentHeap.deallocate w h u.data = (w', h') ∧ HeapOk w' h' segs' others ∧
      (used segs).Perm (u :: used segs') ∧ w.Keeps w' (used segs' ++ others) ∧
      Retained segs' ∧ segs' ≠ [] ∧ w'.refusals = w.refusals := by
  obtain ⟨c, mid, hblock, hg⟩ := mergeBlock_merged hok hu
  rw [deallocate_eq]
  dsimp only
  rw [hblock]
  generalize (mergeBlock w.mem h.bins (blockOf u.data)).2.1 = m' at *
  generalize (mergeBlock w.mem h.bins (blockOf u.data)).2.2 = bins' at *
  obtain ⟨lists', hr'⟩ := hg.rep
  have htag : HasTag m' c.addr c.hole ⟨false, c.first, c.last⟩ := hr'.tags _ (c.blk_mem false)
  have hperm := hg.used_perm
  obtain ⟨hins, hinsk⟩ := hg.insert hok
  rw [htag.isFirst, htag.isLast]
  by_cases hfl : (c.first && c.last) = true
  · rw [if_pos hfl]
    obtain ⟨hf, hl⟩ := Bool.and_eq_true_iff.mp hfl
    by_cases hlen : h.segments.length ≤ 1
    · have he : releaseSegment { w with mem := m' } { h with bins := bins' } c.addr =
          ({ w with mem := (insertFree m' bins' c.addr).1 },
            { h with bins := (insertFree m' bins' c.addr).2 }) := by
        unfold releaseSegment
        rw [if_pos hlen]
      rw [he]
      refine ⟨_, _, _, rfl, hins, hperm, hinsk, fun h2 => ?_, by simp [Ctx.plug], rfl⟩
      have : (c.plug [⟨c.hole, true⟩]).length = h.segments.length := by
        rw [hok.spans, hg.segs_eq]
        simp [Ctx.plug]
      omega
    · obtain ⟨w', h', he, hok', hk', hrf, hus⟩ := hg.release hok hf hl hlen
      have hlen2 : segs.length = (c.before ++ c.after).length + 1 := by
        rw [hg.segs_eq]
        simp [Ctx.plug]
        omega
      have hseglen : h.segments.length = segs.length := by
        rw [hok.spans, List.length_map]
      refine ⟨w', h', _, he, hok', by rw [hus]; exact hperm, hk', fun _ s hs => ?_, fun h0 => ?_, hrf⟩
      · refine hret (by omega) s ?_
        rw [hg.segs_eq]
        unfold Ctx.plug
        rcases List.mem_append.mp hs with hs | hs <;> simp [hs]
      · rw [h0, List.length_nil] at hlen2
        omega
  · rw [if_neg hfl]
    refine ⟨_, _, _, rfl, hins, hperm, hinsk, ?_, by simp [Ctx.plug], rfl⟩
    rw [hg.segs_eq] at hret
    exact hret.plug (hg.busy (by simpa using hfl) _)

end Free

end Ok

end MAlloc.Heap
