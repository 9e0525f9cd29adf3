/-
  The steps of `SegmentHeap::allocate` and `SegmentHeap::deallocate` on the representation:
  `splitBlock`, the two merges, and the `prevSize` repair between them.

  Each step is stated on a context: which hole it edits, what filled the hole before and what
  fills it after. A byte is kept by every step when it is `Quiet` (no tag, no free node) and
  outside the hole.
-/
import MAlloc.Heap.Rep

namespace MAlloc.Heap

open Lib MediumBlock SegmentHeap

section Quiet
variable {c : Ctx} {x : Nat}

/-- Being quiet outside the hole does not depend on what fills the hole. -/
theorem Quiet.refill {l r : List Blk} (h : Quiet (c.plug l) x)
    (hx : ¬ (c.addr ≤ x ∧ x < c.addr + c.hole)) (hm : l ≠ []) (ht : total l = c.hole)
    (hm' : r ≠ []) (ht' : total r = c.hole)
    (hs' : ∀ b ∈ r, 48 ≤ b.size) : Quiet (c.plug r) x := by
  intro p hp
  rcases (c.mem_placed_plug hm' ht').mp hp with hp | hp | hp
  · have hw := place_within hp
    obtain ⟨l, b, r, e, hpe⟩ := mem_place hp
    have hb := hs' b (by rw [e]; simp)
    have hsz : p.size = b.size := by rw [hpe]
    unfold PBlk.node
    exact ⟨by omega, fun _ => by omega⟩
  · exact h { p with prev := lastSize c.prev l }
      ((c.mem_placed_plug hm ht).mpr (Or.inr (Or.inl (c.next_of_next _ hp))))
  · exact h p ((c.mem_placed_plug hm ht).mpr (Or.inr (Or.inr hp)))

/-- A quiet byte outside the hole is kept by an edit of the hole. -/
theorem KeptOutside.quiet {m m' : Mem} {l : List Blk} (hk : KeptOutside c m m')
    (h : Quiet (c.plug l) x) (hx : ¬ (c.addr ≤ x ∧ x < c.addr + c.hole)) (hm : l ≠ [])
    (ht : total l = c.hole) : m' x = m x := by
  refine hk x hx fun hn => ?_
  cases hr : c.right with
  | nil => rw [Ctx.last, hr] at hn; exact absurd hn.1 (by simp)
  | cons b bs =>
    have hq : (⟨c.addr + c.hole, b.size, ⟨b.free, false, bs.isEmpty⟩, lastSize c.prev l⟩ : PBlk) ∈
        c.next (lastSize c.prev l) := by
      unfold Ctx.next
      rw [hr]
      exact List.mem_singleton.mpr rfl
    have := (h _ ((c.mem_placed_plug hm ht).mpr (Or.inr (Or.inl hq)))).1
    simp only at this
    omega

/-- What is quiet in a filled hole is quiet when one used block fills it. -/
theorem Quiet.whole {l : List Blk} (h : Quiet (c.plug l) x) (hm : l ≠ []) (ht : total l = c.hole) :
    Quiet (c.plug [⟨c.hole, false⟩]) x := by
  intro p hp
  rcases (c.mem_placed_plug (by simp) (by simp)).mp hp with hp | hp | hp
  · have hpe : p = c.blk false := by simpa [place, Ctx.blk] using hp
    rw [hpe]
    obtain ⟨b, l', rfl⟩ := List.exists_cons_of_ne_nil hm
    have hfirst := h _ ((c.mem_placed_plug hm ht).mpr (Or.inl (List.mem_cons_self ..)))
    exact ⟨hfirst.1, fun h0 => (by cases h0)⟩
  · exact h { p with prev := lastSize c.prev l }
      ((c.mem_placed_plug hm ht).mpr (Or.inr (Or.inl (c.next_of_next _ hp))))
  · exact h p ((c.mem_placed_plug hm ht).mpr (Or.inr (Or.inr hp)))

end Quiet

section Steps
variable {m : Mem} {bins : Nat → Nat} {segs : List Seg} {lists : Nat → List Nat} {c : Ctx}

/-- The address whose `prevSize` is out of date after a merge into the hole. -/
def staleOf (c : Ctx) : Nat := if c.last then 0 else c.addr + c.hole

theorem addr_ne_staleOf (ha : 0 < c.addr) (hh : 0 < c.hole) : c.addr ≠ staleOf c := by
  unfold staleOf
  split <;> omega

theorem Rep.weaken (h : Rep m bins segs lists 0) (stale : Nat) : Rep m bins segs lists stale where
  layout := h.layout
  tags := h.tags
  prevs p hp _ := h.prevs p hp (by have := h.layout.placed_ok hp; omega)
  bin := h.bin
  mem_lists := h.mem_lists

/-! ### splitBlock -/

/-- The context of the second part of a hole cut at `t`. -/
def Ctx.tail (c : Ctx) (t : Nat) : Ctx :=
  { c with left := c.left ++ [⟨t, false⟩], hole := c.hole - t }

theorem Ctx.tail_plug (c : Ctx) (t : Nat) (mid : List Blk) :
    (c.tail t).plug mid = c.plug (⟨t, false⟩ :: mid) := by
  simp [Ctx.plug, Ctx.tail]

theorem Ctx.tail_addr (c : Ctx) (t : Nat) : (c.tail t).addr = c.addr + t := by
  simp [Ctx.addr, Ctx.tail, Nat.add_assoc]

/-- The writes of `splitBlock` to the tag of the rest. -/
def restTag (m : Mem) (block rest remainder totalSize : Nat) : Mem :=
  let m := setSizeAndFlags m rest 0
  let m := setSize m rest remainder
  let m := setFlag m rest kLastFlag (isLast m block)
  setPrevSize m rest totalSize

/-- The writes of `splitBlock` to the tag of the block. -/
def cutTag (m : Mem) (block totalSize : Nat) : Mem :=
  setFlag (setSize m block totalSize) block kLastFlag false

/-- The write of `splitBlock` to the block after the rest. -/
def nextPrev (m : Mem) (rest remainder : Nat) : Mem :=
  if isLast m rest = false then setPrevSize m (nextBlock m rest) remainder else m

theorem splitBlock_eq (m : Mem) (bins : Nat → Nat) (block totalSize : Nat) :
    splitBlock m bins block totalSize =
      if size m block - totalSize < 48 then (m, bins)
      else insertFree (nextPrev (cutTag (restTag m block (block + totalSize)
        (size m block - totalSize) totalSize) block totalSize) (block + totalSize)
        (size m block - totalSize)) bins (block + totalSize) := rfl

theorem restTag_spec {a s r rem t : Nat} {f : Flags} (hb : HasTag m a s f) (hr : SizeOk rem)
    (ht : t < 2 ^ 64) (har : a + 8 ≤ r) :
    HasTag (restTag m a r rem t) r rem ⟨false, false, f.last⟩ ∧
      prevSize (restTag m a r rem t) r = t ∧
      ∀ x, ¬ (r ≤ x ∧ x < r + 16) → restTag m a r rem t x = m x := by
  have k2 : ∀ x, ¬ (r ≤ x ∧ x < r + 8) → setSize (setSizeAndFlags m r 0) r rem x = m x := fun x hx =>
    (setSize_of_not hx).trans (writeLE_of_not hx)
  have h0 : (0 : Nat) = tagWord 0 ⟨false, false, false⟩ := rfl
  have r1 : HasTag (setSizeAndFlags m r (tagWord 0 ⟨false, false, false⟩)) r 0
      ⟨false, false, false⟩ := hasTag_write (by unfold SizeOk; omega)
  rw [← h0] at r1
  have r2 : HasTag (setSize (setSizeAndFlags m r 0) r rem) r rem ⟨false, false, false⟩ :=
    r1.setSize hr
  have b2 : isLast (setSize (setSizeAndFlags m r 0) r rem) a = f.last :=
    (hb.congr fun x h1 h2 => k2 x (by omega)).isLast
  unfold restTag
  dsimp only
  rw [b2]
  have k4 : ∀ x, ¬ (r + 8 ≤ x ∧ x < r + 16) → ∀ m' : Mem, setPrevSize m' r t x = m' x :=
    fun x hx m' => writeLE_of_not (by omega)
  refine ⟨(r2.setLast f.last).congr fun x h1 h2 => k4 x (by omega) _, readLE_writeLE_word ht,
    fun x hx => ?_⟩
  rw [k4 x (by omega), setFlag_of_not (by omega), k2 x (by omega)]

theorem cutTag_spec {a s t : Nat} {f : Flags} (hb : HasTag m a s f) (ht : SizeOk t) :
    HasTag (cutTag m a t) a t { f with last := false } ∧
      ∀ x, ¬ (a ≤ x ∧ x < a + 8) → cutTag m a t x = m x :=
  ⟨(hb.setSize ht).setLast false, fun _ hx => (setFlag_of_not hx).trans (setSize_of_not hx)⟩

theorem nextPrev_spec {r rem n : Nat} {f : Flags} (hr : HasTag m r rem f) (hn : n < 2 ^ 64) :
    (f.last = false → prevSize (nextPrev m r n) (r + rem) = n) ∧
      ∀ x, ¬ (f.last = false ∧ r + rem + 8 ≤ x ∧ x < r + rem + 16) → nextPrev m r n x = m x := by
  have hnb : nextBlock m r = r + rem := by
    unfold nextBlock
    rw [hr.size]
  unfold nextPrev
  rw [hr.isLast, hnb]
  cases f.last with
  | true => exact ⟨fun h => absurd h (by simp), fun x _ => rfl⟩
  | false =>
    refine ⟨fun _ => readLE_writeLE_word hn, fun x hx => writeLE_of_not fun h => hx ⟨rfl, ?_⟩⟩
    omega

theorem nextPrev_tame {r rem n : Nat} {f : Flags} (hr : HasTag m r rem f) (h16 : (r + rem) % 16 = 0)
    (hn : n % 16 = 0) : Tame m (nextPrev m r n) := by
  have hnb : nextBlock m r = r + rem := by
    unfold nextBlock
    rw [hr.size]
  unfold nextPrev
  rw [hnb]
  split
  · exact tame_upper h16 hn
  · exact Tame.refl _

theorem restTag_tame {a r rem t : Nat} (hr : r % 16 = 0) (ht : t % 16 = 0) :
    Tame m (restTag m a r rem t) := by
  have h1 : Tame m (setSizeAndFlags m r 0) := tame_lower hr
  have h2 : Tame m (setSize (setSizeAndFlags m r 0) r rem) := h1.trans (tame_lower hr)
  exact (h2.trans (setFlag_tame hr)).trans (tame_upper hr ht)

theorem cutTag_tame {a t : Nat} (ha : a % 16 = 0) : Tame m (cutTag m a t) :=
  have h1 : Tame m (setSize m a t) := tame_lower ha
  h1.trans (tame_lower ha)

/-- The tags after the writes of `splitBlock`. -/
theorem splitTags_spec (h : Rep m bins (c.plug [⟨c.hole, false⟩]) lists 0) {t : Nat}
    (ht : 48 ≤ t) (ht16 : t % 16 = 0) (hr : t + 48 ≤ c.hole) {m' : Mem}
    (hm' : m' = nextPrev (cutTag (restTag m c.addr (c.addr + t) (c.hole - t) t) c.addr t)
      (c.addr + t) (c.hole - t)) :
    KeptOutside c m m' ∧ Tame m m' ∧
      HasTag m' c.addr t ⟨false, c.first, false⟩ ∧ prevSize m' c.addr = c.prev ∧
      HasTag m' (c.addr + t) (c.hole - t) ⟨false, false, c.last⟩ ∧ prevSize m' (c.addr + t) = t ∧
      (c.last = false → prevSize m' (c.addr + c.hole) = c.hole - t) := by
  have hok := h.hole_ok
  have hblk : HasTag m c.addr c.hole ⟨false, c.first, c.last⟩ := h.tags _ (c.blk_mem false)
  have hprev : prevSize m c.addr = c.prev :=
    h.prevs (c.blk false) (c.blk_mem false) (show c.addr ≠ 0 by omega)
  obtain ⟨r1, p1, k1⟩ := restTag_spec (r := c.addr + t) (t := t) hblk
    (show SizeOk (c.hole - t) by unfold SizeOk; omega) (by omega) (by omega)
  have t1 : Tame m (restTag m c.addr (c.addr + t) (c.hole - t) t) := restTag_tame (by omega) ht16
  generalize restTag m c.addr (c.addr + t) (c.hole - t) t = m1 at *
  obtain ⟨b2, k2⟩ := cutTag_spec (m := m1) (t := t)
    (hblk.congr fun x h1 h2 => k1 x (by omega)) (by unfold SizeOk; omega)
  have t2 : Tame m1 (cutTag m1 c.addr t) := cutTag_tame hok.1
  generalize cutTag m1 c.addr t = m2 at *
  have r2 : HasTag m2 (c.addr + t) (c.hole - t) ⟨false, false, c.last⟩ :=
    r1.congr fun x h1 h2 => k2 x (by omega)
  obtain ⟨n3, k3⟩ := nextPrev_spec (n := c.hole - t) r2 (by omega)
  have t3 : Tame m2 (nextPrev m2 (c.addr + t) (c.hole - t)) := nextPrev_tame r2 (by omega) (by omega)
  rw [← hm'] at n3 k3 t3
  have hend : c.addr + t + (c.hole - t) = c.addr + c.hole := by omega
  rw [hend] at n3 k3
  simp only at n3 k3
  refine ⟨fun x h1 h2 => ?_, (t1.trans t2).trans t3, b2.congr fun x h1 h2 => k3 x (by omega), ?_,
    r2.congr fun x h1 h2 => k3 x (by omega), ?_, n3⟩
  · rw [k3 x h2, k2 x (by omega), k1 x (by omega)]
  · exact (readLE_congr fun x h1 h2 => by
      rw [k3 x (by omega), k2 x (by omega), k1 x (by omega)]).trans hprev
  · exact (readLE_congr fun x h1 h2 => by rw [k3 x (by omega), k2 x (by omega)]).trans p1

/-- **`splitBlock`** on a block just taken from its bin: it is left whole when the excess is
    below 48 bytes, else cut at `t` with the rest free. -/
theorem splitBlock_rep (h : Rep m bins (c.plug [⟨c.hole, false⟩]) lists 0)
    (hco : Coalesced (c.left ++ [⟨c.hole, true⟩] ++ c.right)) {t : Nat}
    (ht : 48 ≤ t) (ht16 : t % 16 = 0) (hle : t ≤ c.hole) :
    ∃ mid lists', Rep (splitBlock m bins c.addr t).1 (splitBlock m bins c.addr t).2 (c.plug mid)
        lists' 0 ∧
      (mid = [⟨c.hole, false⟩] ∧ c.hole < t + 48 ∨
        mid = [⟨t, false⟩, ⟨c.hole - t, true⟩] ∧ t + 48 ≤ c.hole) ∧
      (∀ x, Quiet (c.plug [⟨c.hole, false⟩]) x → ¬ (c.addr ≤ x ∧ x < c.addr + c.hole) →
        (splitBlock m bins c.addr t).1 x = m x) ∧ Tame m (splitBlock m bins c.addr t).1 := by
  have hsz : size m c.addr = c.hole := (h.tags _ (c.blk_mem false)).size
  have hok := h.hole_ok
  rw [splitBlock_eq, hsz]
  by_cases hr : c.hole - t < 48
  · rw [if_pos hr]
    exact ⟨_, _, h, Or.inl ⟨rfl, by omega⟩, fun _ _ _ => rfl, Tame.refl _⟩
  · rw [if_neg hr]
    obtain ⟨hk, htame, hb, hbp, hrest, hrp, hnp⟩ := splitTags_spec h ht ht16 (by omega) rfl
    generalize nextPrev (cutTag (restTag m c.addr (c.addr + t) (c.hole - t) t) c.addr t)
      (c.addr + t) (c.hole - t) = m' at *
    have htot : total [⟨t, false⟩, ⟨c.hole - t, false⟩] = c.hole := by
      simp only [total_cons, total_nil]
      omega
    have h2 : Rep m' bins (c.plug [⟨t, false⟩, ⟨c.hole - t, false⟩]) lists 0 := by
      refine h.refill (by simp) (by simp) (by simp) (by simp) htot ?_ hk ?_ ?_ ?_ (fun _ _ h => h)
      · intro b hb
        rcases List.mem_cons.mp hb with rfl | hb
        · exact ⟨rfl, by omega, by omega⟩
        · rw [List.mem_singleton.mp hb]
          exact ⟨rfl, by simp only; omega, by simp only; omega⟩
      · intro p hp
        simp only [place, List.mem_cons, List.not_mem_nil, or_false] at hp
        rcases hp with rfl | rfl
        · exact hb
        · simpa using hrest
      · intro p hp _
        simp only [place, List.mem_cons, List.not_mem_nil, or_false] at hp
        rcases hp with rfl | rfl
        · exact hbp
        · exact hrp
      · intro p hp _
        obtain ⟨h1, h3, h4, -⟩ := c.next_addr hp
        rw [h1, h4]
        exact hnp h3
    rw [← c.tail_plug] at h2
    have hins := insertFree_tame (c := c.tail t) (by exact h2)
    rw [c.tail_addr] at hins
    have h3 := insertFree_rep (c := c.tail t) (by exact h2) (by
      -- the rest is followed by a used block, as the free block before the split was
      unfold Coalesced at hco ⊢
      simp only [Ctx.tail]
      rw [List.isChain_append] at hco ⊢
      refine ⟨?_, hco.2.1, ?_⟩
      · rw [List.append_assoc, List.isChain_append]
        refine ⟨(List.isChain_append.mp hco.1).1, ?_, fun b hb d hd => ?_⟩
        · simp
        · have : d = ⟨t, false⟩ := by simpa using hd.symm
          rw [this, Bool.and_false]
      · intro b hb d hd
        have hb' : b = ⟨c.hole - t, true⟩ := by simpa using hb.symm
        rw [hb']
        exact hco.2.2 ⟨c.hole, true⟩ (by simp) d hd)
    rw [c.tail_addr, c.tail_plug] at h3
    refine ⟨_, _, h3.1, Or.inr ⟨rfl, by omega⟩, fun x hx hxh => ?_, htame.trans hins⟩
    have hq : Quiet (c.plug [⟨t, false⟩, ⟨c.hole - t, true⟩]) x := by
      refine hx.refill hxh (by simp) (by simp) (by simp) (by simpa using htot) ?_
      intro b hb
      rcases List.mem_cons.mp hb with rfl | hb
      · exact ht
      · rw [List.mem_singleton.mp hb]
        simp only
        omega
    rw [h3.2 x hq]
    exact hk.quiet hx hxh (by simp) (by simp)

/-! ### Merges -/

/-- The write of a merge: the first of two neighbours takes the size of both and the last flag
    of the second. -/
def absorbTag (m : Mem) (block next : Nat) : Mem :=
  let m' := setSize m block (size m block + size m next)
  setFlag m' block kLastFlag (isLast m' next)

theorem absorbTag_spec {a s n t : Nat} {f g : Flags} (ha : HasTag m a s f) (hn : HasTag m n t g)
    (hst : SizeOk (s + t)) (han : a + 8 ≤ n) :
    HasTag (absorbTag m a n) a (s + t) { f with last := g.last } ∧
      ∀ x, ¬ (a ≤ x ∧ x < a + 8) → absorbTag m a n x = m x := by
  unfold absorbTag
  dsimp only
  rw [ha.size, hn.size]
  have hl : isLast (setSize m a (s + t)) n = g.last :=
    (hn.congr fun x h1 h2 => setSize_of_not (by omega)).isLast
  rw [hl]
  exact ⟨(ha.setSize hst).setLast g.last, fun x hx =>
    (setFlag_of_not hx).trans (setSize_of_not hx)⟩

theorem absorbTag_tame {a n : Nat} (ha : a % 16 = 0) : Tame m (absorbTag m a n) :=
  have h1 : Tame m (setSize m a (size m a + size m n)) := tame_lower ha
  h1.trans (tame_lower ha)

/-- Two used neighbours become one used block; the `prevSize` after them is out of date. -/
theorem absorb_rep {s t : Nat} (h : Rep m bins (c.plug [⟨s, false⟩, ⟨t, false⟩]) lists (staleOf c))
    (hst : s + t = c.hole) :
    Rep (absorbTag m c.addr (c.addr + s)) bins (c.plug [⟨c.hole, false⟩]) lists (staleOf c) ∧
      (∀ x, ¬ (c.addr ≤ x ∧ x < c.addr + 8) → absorbTag m c.addr (c.addr + s) x = m x) ∧
      Tame m (absorbTag m c.addr (c.addr + s)) := by
  have htot : total [⟨s, false⟩, ⟨t, false⟩] = c.hole := by simpa using hst
  have hmem := fun p => (c.mem_placed_plug (l := [⟨s, false⟩, ⟨t, false⟩]) (p := p) (by simp)
    htot).mpr
  have h1 := hmem ⟨c.addr, s, ⟨false, c.first, false⟩, c.prev⟩ (Or.inl (by simp [place]))
  have h2 := hmem ⟨c.addr + s, t, ⟨false, false, c.last⟩, s⟩ (Or.inl (by simp [place]))
  have ok1 := h.layout.placed_ok h1
  have ok2 := h.layout.placed_ok h2
  simp only at ok1 ok2
  have hp0 : prevSize m c.addr = c.prev :=
    h.prevs ⟨c.addr, s, ⟨false, c.first, false⟩, c.prev⟩ h1 (addr_ne_staleOf (by omega) (by omega))
  obtain ⟨htag, hk⟩ := absorbTag_spec (h.tags _ h1) (h.tags _ h2)
    (by unfold SizeOk; simp only; omega) (by simp only; omega)
  simp only [hst] at htag hk
  have hko : KeptOutside c m (absorbTag m c.addr (c.addr + s)) := fun x hx _ => hk x (by omega)
  refine ⟨h.refill (by simp) htot (by simp) (by simp) (by simp) ?_ hko ?_ ?_ ?_ (fun _ _ h => h), hk, absorbTag_tame ok1.1⟩
  · intro b hb
    rw [List.mem_singleton.mp hb]
    exact ⟨rfl, by simp only; omega, by simp only; omega⟩
  · intro p hp
    simp only [place, List.mem_singleton] at hp
    subst hp
    simpa using htag
  · intro p hp hst'
    simp only [place, List.mem_singleton] at hp
    subst hp
    exact (readLE_congr fun x h3 h4 => hk x (by simp only at h3; omega)).trans hp0
  · intro p hp hst'
    obtain ⟨h3, h4, -, -⟩ := c.next_addr hp
    refine absurd h3 ?_
    unfold staleOf at hst'
    rw [h4] at hst'
    simpa using hst'

theorem mergeNext_eq (m : Mem) (bins : Nat → Nat) (block : Nat) :
    mergeNext m bins block =
      if isLast m block then (m, bins)
      else if isFree m (nextBlock m block) then
        (absorbTag (removeFree m bins (nextBlock m block)).1 block (nextBlock m block),
          (removeFree m bins (nextBlock m block)).2)
      else (m, bins) := rfl

/-- **The right merge.** A free right neighbour joins the block; what follows is used. -/
theorem mergeNext_rep (h : Rep m bins (c.plug [⟨c.hole, false⟩]) lists 0) :
    ∃ c' post lists', c'.left = c.left ∧ c'.base = c.base ∧ c'.hole = c.hole + total post ∧
      (∀ mid, c'.plug (mid ++ post) = c.plug mid) ∧ (post = [] ∨ ∃ s, post = [⟨s, true⟩]) ∧
      (∀ b ∈ c'.right.head?, b.free = false) ∧
      Rep (mergeNext m bins c.addr).1 (mergeNext m bins c.addr).2 (c'.plug [⟨c'.hole, false⟩]) lists'
        (staleOf c') ∧
      (∀ x, Quiet (c.plug [⟨c.hole, false⟩]) x → (mergeNext m bins c.addr).1 x = m x) ∧
      Tame m (mergeNext m bins c.addr).1 := by
  have hblk : HasTag m c.addr c.hole ⟨false, c.first, c.last⟩ := h.tags _ (c.blk_mem false)
  have hwf : (⟨c.base, c.left ++ [⟨c.hole, false⟩] ++ c.right⟩ : Seg).Wf :=
    h.layout.wf _ (by simp [Ctx.plug])
  have hnb : nextBlock m c.addr = c.addr + c.hole := by
    unfold nextBlock
    rw [hblk.size]
  rw [mergeNext_eq, hblk.isLast, hnb]
  cases hr : c.right with
  | nil =>
    have hl : c.last = true := by unfold Ctx.last; rw [hr]; rfl
    rw [if_pos hl]
    exact ⟨c, [], lists, rfl, rfl, by simp, by simp, Or.inl rfl, by simp [hr], h.weaken _,
      fun _ _ => rfl, Tame.refl _⟩
  | cons b r =>
    have hl : c.last = false := by unfold Ctx.last; rw [hr]; rfl
    have hnext : (⟨c.addr + c.hole, b.size, ⟨b.free, false, r.isEmpty⟩, c.hole⟩ : PBlk) ∈
        placed (c.plug [⟨c.hole, false⟩]) := by
      refine (c.mem_placed_plug (by simp) (by simp)).mpr (Or.inr (Or.inl ?_))
      unfold Ctx.next
      rw [hr]
      exact List.mem_singleton.mpr rfl
    have hfree : isFree m (c.addr + c.hole) = b.free := (h.tags _ hnext).isFree
    rw [if_neg (by simp [hl]), hfree]
    cases hb : b.free with
    | false =>
      rw [if_neg (by simp)]
      exact ⟨c, [], lists, rfl, rfl, by simp, by simp, Or.inl rfl, by simp [hr, hb], h.weaken _,
        fun _ _ => rfl, Tame.refl _⟩
    | true =>
      rw [if_pos rfl]
      have hb' : b = ⟨b.size, true⟩ := by rw [← hb]
      -- the neighbour's own hole, and the hole of both
      let cn : Ctx := { c with left := c.left ++ [⟨c.hole, false⟩], hole := b.size, right := r }
      let c' : Ctx := { c with hole := c.hole + b.size, right := r }
      have hcn : ∀ mid, cn.plug mid = c'.plug (⟨c.hole, false⟩ :: mid) := fun mid => by
        simp [cn, c', Ctx.plug]
      have hc' : ∀ mid, c'.plug (mid ++ [⟨b.size, true⟩]) = c.plug mid := fun mid => by
        rw [← hb']
        simp [c', Ctx.plug, hr]
      have hcna : cn.addr = c.addr + c.hole := by simp [cn, Ctx.addr, Nat.add_assoc]
      have hsame : c.plug [⟨c.hole, false⟩] = cn.plug [⟨b.size, true⟩] := by
        rw [hcn]
        exact (hc' [⟨c.hole, false⟩]).symm
      have ht1 := removeFree_tame (c := cn) (by rw [← hsame]; exact h)
      rw [hcna] at ht1
      have h1 := removeFree_rep (c := cn) (by rw [← hsame]; exact h)
      rw [hcna, hcn] at h1
      have h2 := absorb_rep (c := c') (h1.1.weaken _) rfl
      have hca : c'.addr = c.addr := rfl
      rw [hca] at h2
      dsimp only
      refine ⟨c', [⟨b.size, true⟩], _, rfl, rfl, by simp [c'], hc', Or.inr ⟨_, rfl⟩, ?_, h2.1, ?_,
        ht1.trans h2.2.2⟩
      · intro d hd
        have hco := hwf.coalesced
        unfold Coalesced at hco
        simp only [hr, List.append_assoc, List.singleton_append] at hco
        have hco2 := (List.isChain_append.mp hco).2.1
        rw [List.isChain_cons, List.isChain_cons] at hco2
        have := hco2.2.1 d hd
        rw [hb, Bool.true_and] at this
        exact this
      · intro x hx
        have e1 := h1.2 x (by
          change Quiet (cn.plug [⟨b.size, true⟩]) x
          rw [← hsame]
          exact hx)
        have htag : ¬ (c.addr ≤ x ∧ x < c.addr + 16) := (hx _ (c.blk_mem false)).1
        exact (h2.2.1 x (by omega)).trans e1

theorem mergePrev_eq (m : Mem) (bins : Nat → Nat) (block : Nat) :
    mergePrev m bins block =
      if isFirst m block then (block, m, bins)
      else if isFree m (prevBlock m block) then
        (prevBlock m block, absorbTag (removeFree m bins (prevBlock m block)).1 (prevBlock m block) block,
          (removeFree m bins (prevBlock m block)).2)
      else (block, m, bins) := rfl

theorem lastSize_concat (prev : Nat) (l : List Blk) (b : Blk) : lastSize prev (l ++ [b]) = b.size := by
  induction l generalizing prev with
  | nil => rfl
  | cons a l ih => exact ih a.size

/-- **The left merge.** The block joins a free left neighbour; what precedes is used. -/
theorem mergePrev_rep (h : Rep m bins (c.plug [⟨c.hole, false⟩]) lists (staleOf c)) :
    ∃ c' pre lists', c'.right = c.right ∧ c'.addr + total pre = c.addr ∧
      c'.hole = total pre + c.hole ∧
      (∀ mid, c'.plug (pre ++ mid) = c.plug mid) ∧ (pre = [] ∨ ∃ s, pre = [⟨s, true⟩]) ∧
      (∀ b ∈ c'.left.getLast?, b.free = false) ∧
      (mergePrev m bins c.addr).1 = c'.addr ∧
      Rep (mergePrev m bins c.addr).2.1 (mergePrev m bins c.addr).2.2 (c'.plug [⟨c'.hole, false⟩])
        lists' (staleOf c') ∧
      (∀ x, Quiet (c.plug [⟨c.hole, false⟩]) x → (mergePrev m bins c.addr).2.1 x = m x) ∧
      Tame m (mergePrev m bins c.addr).2.1 := by
  have hblk : HasTag m c.addr c.hole ⟨false, c.first, c.last⟩ := h.tags _ (c.blk_mem false)
  have hok := h.hole_ok
  have hwf : (⟨c.base, c.left ++ [⟨c.hole, false⟩] ++ c.right⟩ : Seg).Wf :=
    h.layout.wf _ (by simp [Ctx.plug])
  have hprev : prevSize m c.addr = c.prev :=
    h.prevs (c.blk false) (c.blk_mem false) (addr_ne_staleOf (by omega) (by omega))
  rw [mergePrev_eq, hblk.isFirst]
  rcases List.eq_nil_or_concat c.left with hl | ⟨l, b, hl⟩
  · have hf : c.first = true := by unfold Ctx.first; rw [hl]; rfl
    rw [if_pos hf]
    exact ⟨c, [], lists, rfl, rfl, by simp, by simp, Or.inl rfl, by simp [hl], rfl, h,
      fun _ _ => rfl, Tame.refl _⟩
  · have hf : c.first = false := by unfold Ctx.first; rw [hl]; simp
    have hcp : c.prev = b.size := by
      unfold Ctx.prev
      rw [hl, List.concat_eq_append, lastSize_concat]
    have haddr : c.addr = c.base + total l + b.size := by
      unfold Ctx.addr
      rw [hl, List.concat_eq_append]
      simp
      omega
    have hpb : prevBlock m c.addr = c.base + total l := by
      unfold prevBlock
      rw [hprev, hcp, ptrSub_eq (by omega) (by omega)]
      omega
    -- the neighbour's own hole, and the hole of both
    let cp : Ctx := { c with left := l, hole := b.size, right := ⟨c.hole, false⟩ :: c.right }
    let c' : Ctx := { c with left := l, hole := b.size + c.hole }
    have hcp' : ∀ f, cp.plug [⟨b.size, f⟩] = c'.plug [⟨b.size, f⟩, ⟨c.hole, false⟩] := fun f => by
      simp [cp, c', Ctx.plug]
    have hbb : b = ⟨b.size, b.free⟩ := rfl
    have hc' : ∀ mid, c'.plug ([b] ++ mid) = c.plug mid := fun mid => by
      simp [c', Ctx.plug, hl]
    have hsame : c.plug [⟨c.hole, false⟩] = cp.plug [⟨b.size, b.free⟩] := by
      rw [hcp' _, ← hc']
      rfl
    have hpm : (⟨c.base + total l, b.size, ⟨b.free, cp.first, cp.last⟩, cp.prev⟩ : PBlk) ∈
        placed (c.plug [⟨c.hole, false⟩]) := by
      rw [hsame]
      exact cp.blk_mem b.free
    have hfree : isFree m (c.base + total l) = b.free := (h.tags _ hpm).isFree
    have hokp := h.layout.placed_ok hpm
    rw [if_neg (by simp [hf]), hpb, hfree]
    cases hb : b.free with
    | false =>
      rw [if_neg (by simp)]
      exact ⟨c, [], lists, rfl, rfl, by simp, by simp, Or.inl rfl, by simp [hl, hb], rfl, h,
        fun _ _ => rfl, Tame.refl _⟩
    | true =>
      rw [if_pos rfl]
      rw [hb] at hsame
      have hstale : staleOf c' = staleOf c := by
        have : c'.addr + c'.hole = c.addr + c.hole := by
          rw [haddr]
          simp only [c', Ctx.addr]
          omega
        unfold staleOf
        rw [this]
        rfl
      have ht1 := removeFree_tame (c := cp) (by rw [← hsame]; exact h)
      have h1 := removeFree_rep (c := cp) (by rw [← hsame]; exact h)
      rw [hcp' false] at h1
      have h2 := absorb_rep (c := c') (s := b.size) (t := c.hole) (by rw [hstale]; exact h1.1) rfl
      have hca : c'.addr = c.base + total l := rfl
      have hba : c'.addr + b.size = c.addr := by rw [haddr, hca]
      have hcpa : cp.addr = c.base + total l := rfl
      rw [hcpa] at h1 h2 ht1
      rw [hba, hca] at h2
      dsimp only
      refine ⟨c', [b], _, rfl, by simpa using hba, by simp [c'], hc',
        Or.inr ⟨b.size, by rw [← hb]⟩, ?_, rfl, h2.1, ?_, ht1.trans h2.2.2⟩
      · intro d hd
        have hco := hwf.coalesced
        unfold Coalesced at hco
        simp only [hl, List.concat_eq_append, List.append_assoc] at hco
        have := (List.isChain_append.mp hco).2.2 d hd b (by simp)
        rw [hb, Bool.and_true] at this
        exact this
      · intro x hx
        have e1 := h1.2 x (by rw [← hsame]; exact hx)
        have htag : ¬ (c.base + total l ≤ x ∧ x < c.base + total l + 16) := (hx _ hpm).1
        exact (h2.2.1 x (by omega)).trans e1

/-- **The repair.** Writing the `prevSize` after the hole leaves nothing out of date. -/
theorem nextPrev_rep (h : Rep m bins (c.plug [⟨c.hole, false⟩]) lists (staleOf c)) :
    Rep (nextPrev m c.addr c.hole) bins (c.plug [⟨c.hole, false⟩]) lists 0 ∧
      (∀ x, Quiet (c.plug [⟨c.hole, false⟩]) x → nextPrev m c.addr c.hole x = m x) ∧
      Tame m (nextPrev m c.addr c.hole) := by
  have hok := h.hole_ok
  have hblk : HasTag m c.addr c.hole ⟨false, c.first, c.last⟩ := h.tags _ (c.blk_mem false)
  have hp0 : prevSize m c.addr = c.prev :=
    h.prevs (c.blk false) (c.blk_mem false) (addr_ne_staleOf (by omega) (by omega))
  obtain ⟨hn, hk⟩ := nextPrev_spec (n := c.hole) hblk (by omega)
  have hko : KeptOutside c m (nextPrev m c.addr c.hole) := fun x _ hx => hk x hx
  refine ⟨h.refill (by simp) (by simp) (by simp) (by simp) (by simp) ?_ hko ?_ ?_ ?_ ?_, fun x hx => ?_,
    nextPrev_tame hblk (by omega) hok.2.2.2.1⟩
  · intro b hb
    rw [List.mem_singleton.mp hb]
    exact ⟨rfl, hok.2.2.1, hok.2.2.2.1⟩
  · intro p hp
    simp only [place, List.mem_singleton] at hp
    subst hp
    simpa using hblk.congr fun x h1 h2 => hk x (by omega)
  · intro p hp _
    simp only [place, List.mem_singleton] at hp
    subst hp
    refine (readLE_congr fun x h1 h2 => hk x ?_).trans hp0
    simp only at h1 h2
    omega
  · intro p hp _
    obtain ⟨h1, h2, h3, -⟩ := c.next_addr hp
    rw [h1, h3]
    exact hn h2
  · intro p hp h0 hst
    unfold staleOf at hst
    split at hst
    · exact h0 hst
    · rename_i hlast
      -- the block after the hole is no outer block
      cases hr : c.right with
      | nil => exact hlast (by unfold Ctx.last; rw [hr]; rfl)
      | cons b bs =>
        have hq : (⟨c.addr + c.hole, b.size, ⟨b.free, false, bs.isEmpty⟩, 0⟩ : PBlk) ∈ c.next 0 := by
          unfold Ctx.next
          rw [hr]
          exact List.mem_singleton.mpr rfl
        have hap := (c.outer_apart h.layout (by simp) hp).2 0 _ hq
        have hp48 := h.layout.placed_ok ((c.mem_placed_plug (by simp) (by simp)).mpr
          (Or.inr (Or.inr hp)))
        have hq48 := (h.layout.wf ⟨c.base, c.left ++ [⟨c.hole, false⟩] ++ c.right⟩
          (by simp [Ctx.plug])).sizes b (by simp [hr])
        simp only at hap
        omega
  · by_cases hxh : c.addr ≤ x ∧ x < c.addr + c.hole
    · exact hk x (by omega)
    · exact hko.quiet hx hxh (by simp) (by simp)

end Steps

end MAlloc.Heap
