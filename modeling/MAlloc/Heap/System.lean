/-
  The medium tier over whole runs.

  `HeapSys` is a segment heap, the world it lives in and the payloads its client holds. A client
  may ask for any number of bytes, give back a payload it holds, and write into one. The OS is
  the oracle of the world, so a mapping may fail at any `addSegment`.

  `HeapReached` is the invariant: the heap represents a layout whose used blocks are the
  payloads the client holds, and only a sole segment may be without one. It is preserved by
  every call, and it gives the two results about memory itself: `representation_of_run` (tags,
  flags, `prevSize`, bins) and `retention_of_run` (which segments stay mapped, and what the heap
  looks like when nothing is held).
-/
import MAlloc.Heap.Ops
import MAlloc.Lib.Run

namespace MAlloc.Heap

open Lib MediumBlock SegmentHeap SystemMemory

/-! ## The system -/

structure HeapSys where
  world : World
  heap : SegmentHeap := {}
  handed : List Span := []

inductive HeapCall where
  | allocate (bytes : Nat)
  | deallocate (payload : Nat)
  | write (addr : Nat) (value : UInt8)
  deriving DecidableEq, Repr

/-- One call. A client gives back only what it holds, and writes only into what it holds. -/
def heapStep (s : HeapSys) : HeapCall → Option HeapSys
  | .allocate bytes =>
    let r := SegmentHeap.allocate s.world s.heap bytes
    some ⟨r.2.1, r.2.2, match r.1 with
      | some p => ⟨p, payloadCapacity r.2.1.mem p⟩ :: s.handed
      | none => s.handed⟩
  | .deallocate payload =>
    match s.handed.find? fun u => decide (u.data = payload) with
    | some u =>
      let r := SegmentHeap.deallocate s.world s.heap payload
      some ⟨r.1, r.2, s.handed.erase u⟩
    | none => none
  | .write addr value =>
    if s.handed.any fun u => decide (u.Has addr) then
      some { s with world := { s.world with mem := Function.update s.world.mem addr value } }
    else none

def heapRun (w : World) (calls : List HeapCall) : Option HeapSys := runFrom heapStep ⟨w, {}, []⟩ calls

/-! ## The invariant -/

/-- The heap represents a layout whose used blocks are what the client holds. -/
def HeapReached (others : List Span) (s : HeapSys) : Prop :=
  ∃ segs, HeapOk s.world s.heap segs others ∧ Retained segs ∧ (used segs).Perm s.handed

theorem payloadCapacity_used {w : World} {h : SegmentHeap} {segs : List Seg} {others : List Span}
    (hok : HeapOk w h segs others) {u : Span} (hu : u ∈ used segs) :
    payloadCapacity w.mem u.data = u.size := by
  obtain ⟨p, hp, -, rfl⟩ := mem_used.mp hu
  obtain ⟨lists, hr⟩ := hok.rep
  have hpok := hok.layout.placed_ok hp
  have hb : ptrSub p.payload.data kBlockHeaderSize = p.addr :=
    (ptrSub_eq (show 16 ≤ p.addr + 16 by omega) (show p.addr + 16 < 2 ^ 64 by omega)).trans
      (Nat.add_sub_cancel _ _)
  unfold payloadCapacity
  rw [hb, (hr.tags p hp).size]
  change (p.size + (2 ^ 64 - 16)) % 2 ^ 64 = p.size - 16
  omega

/-- A write into a payload that is handed out changes no tag and no free node. -/
theorem HeapOk.write {w : World} {h : SegmentHeap} {segs : List Seg} {others : List Span}
    (hok : HeapOk w h segs others) {u : Span} (hu : u ∈ used segs) {m' : Mem}
    (hm : ∀ x, ¬ u.Has x → m' x = w.mem x) : HeapOk { w with mem := m' } h segs others := by
  obtain ⟨lists, hr⟩ := hok.rep
  refine ⟨ok_mem hok.world m', hok.mapped, hok.spans,
    ⟨lists, hr.congr (fun p hp x h1 h2 => ?_) (fun p hp hpf x h1 h2 => ?_)⟩, hok.full⟩
  · refine hm x fun hx => ?_
    have := (quiet_of_used hok.layout hu hx p hp).1
    omega
  · refine hm x fun hx => ?_
    have := (quiet_of_used hok.layout hu hx p hp).2 hpf
    omega

theorem heapStep_reached {others : List Span} (s : HeapSys) (e : HeapCall) (s' : HeapSys)
    (hs : HeapReached others s) (he : heapStep s e = some s') : HeapReached others s' := by
  obtain ⟨segs, hok, hret, hperm⟩ := hs
  cases e with
  | allocate bytes =>
    have hout := allocate_spec hok hret bytes
    simp only [heapStep, Option.some.injEq] at he
    subst he
    generalize SegmentHeap.allocate s.world s.heap bytes = r at *
    cases hout with
    | tooLarge => exact ⟨segs, hok, hret, hperm⟩
    | refused hok' => exact ⟨segs, hok', hret, hperm⟩
    | @served w' h' u segs' hsv hret' =>
      refine ⟨segs', hsv.ok, hret', hsv.used.trans ?_⟩
      have hu : u ∈ used segs' := hsv.used.mem_iff.mpr List.mem_cons_self
      simp only [payloadCapacity_used hsv.ok hu]
      exact hperm.cons u
  | deallocate payload =>
    simp only [heapStep] at he
    split at he
    · rename_i u hfind
      have hdata : u.data = payload := by simpa using List.find?_some hfind
      have hu : u ∈ used segs := hperm.mem_iff.mpr (List.mem_of_find?_eq_some hfind)
      obtain ⟨w', h', segs', hd, hok', hp', -, hret', -, -⟩ := deallocate_spec hok hret hu
      simp only [Option.some.injEq] at he
      subst he
      rw [← hdata, hd]
      refine ⟨segs', hok', hret', ?_⟩
      have := (hp'.symm.trans hperm).erase u
      rwa [List.erase_cons_head] at this
    · cases he
  | write addr value =>
    simp only [heapStep] at he
    split at he
    · rename_i hany
      cases he
      rw [List.any_eq_true] at hany
      obtain ⟨u, hu, hx⟩ := hany
      refine ⟨segs, hok.write (hperm.mem_iff.mpr hu) fun x hx' => ?_, hret, hperm⟩
      refine Function.update_of_ne ?_ _ _
      rintro rfl
      exact hx' (of_decide_eq_true hx)
    · cases he

/-- A heap that has no segment yet. -/
theorem heapOk_empty {w : World} (hw : w.Ok) : HeapOk w {} [] w.mapped :=
  ⟨hw, List.Perm.refl _, rfl, ⟨fun _ => [], ⟨⟨by simp, by simp⟩, by simp [placed], by simp [placed],
    fun _ => rfl, by simp [placed]⟩⟩, by simp⟩

theorem heapReached_start {w : World} (hw : w.Ok) : HeapReached w.mapped ⟨w, {}, []⟩ :=
  ⟨[], heapOk_empty hw, by simp [Retained], List.Perm.refl _⟩

theorem heapReached_of_run {w : World} (hw : w.Ok) {calls : List HeapCall} {s : HeapSys}
    (hrun : heapRun w calls = some s) : HeapReached w.mapped s :=
  run_invariant heapStep_reached (heapReached_start hw) hrun

/-! ## Reading memory -/

/-- The blocks a walk by `MediumBlock::size()` visits from `a` before it reaches `stop`. -/
def walkBlocks (m : Mem) (stop : Nat) : (fuel a : Nat) → List Nat
  | 0, _ => []
  | fuel + 1, a => if stop ≤ a then [] else a :: walkBlocks m stop fuel (a + size m a)

/-- The blocks of a segment; it has room for `size / 48` at most. -/
def blocksOf (m : Mem) (seg : Span) : List Nat :=
  walkBlocks m (seg.data + seg.size) (seg.size / kMinBlockSize) seg.data

/-- The blocks start at `a`, each where the one before it ends, and end at `stop`. -/
def Tiles (m : Mem) (stop : Nat) : Nat → List Nat → Prop
  | a, [] => a = stop
  | a, b :: bs => a = b ∧ Tiles m stop (a + size m a) bs

theorem walkBlocks_of_tiles {m : Mem} {stop fuel a : Nat} {bs : List Nat} (ht : Tiles m stop a bs)
    (hpos : ∀ b ∈ bs, 0 < size m b) (hf : bs.length ≤ fuel) : walkBlocks m stop fuel a = bs := by
  have hle : ∀ {a bs}, Tiles m stop a bs → a ≤ stop := by
    intro a bs
    induction bs generalizing a with
    | nil => exact Nat.le_of_eq
    | cons b bs ih =>
      intro h
      have := ih h.2
      omega
  induction fuel generalizing a bs with
  | zero =>
    rw [List.length_eq_zero_iff.mp (Nat.le_zero.mp hf)]
    rfl
  | succ fuel ih =>
    cases bs with
    | nil =>
      have : a = stop := ht
      simp [walkBlocks, this]
    | cons b bs =>
      obtain ⟨rfl, ht'⟩ := ht
      have h1 := hpos a List.mem_cons_self
      have h2 := hle ht'
      rw [walkBlocks, if_neg (by omega), ih ht' (fun b hb => hpos b (List.mem_cons_of_mem _ hb))
        (by simpa using hf)]

theorem tiles_place {m : Mem} {a prev : Nat} {first more : Bool} {bs : List Blk}
    (ht : ∀ p ∈ place a prev first more bs, HasTag m p.addr p.size p.flags) :
    Tiles m (a + total bs) a ((place a prev first more bs).map PBlk.addr) := by
  induction bs generalizing a prev first with
  | nil => simp [place, Tiles]
  | cons b bs ih =>
    have h1 := (ht _ List.mem_cons_self).size
    have h2 := ih fun p hp => ht p (List.mem_cons_of_mem _ hp)
    simp only [place, List.map_cons, Tiles, true_and]
    simp only at h1
    rw [h1, total_cons, ← Nat.add_assoc]
    exact h2

/-- The walk finds the placed blocks of a represented segment. -/
theorem Rep.blocksOf_span {m : Mem} {bins : Nat → Nat} {segs : List Seg} {lists : Nat → List Nat}
    {st : Nat} (hr : Rep m bins segs lists st) {s : Seg} (hs : s ∈ segs) :
    blocksOf m s.span = s.placed.map PBlk.addr := by
  have hin : ∀ p ∈ s.placed, p ∈ placed segs := fun p hp => mem_placed.mpr ⟨s, hs, hp⟩
  refine walkBlocks_of_tiles (tiles_place fun p hp => hr.tags p (hin p hp)) ?_ ?_
  · intro b hb
    obtain ⟨p, hp, rfl⟩ := List.mem_map.mp hb
    rw [(hr.tags p (hin p hp)).size]
    have := hr.layout.placed_ok (hin p hp)
    omega
  · have h1 := length_le_total fun b hb => ((hr.layout.wf s hs).sizes b hb).1
    rw [List.length_map, Seg.placed, place_length]
    change _ ≤ total s.blocks / 48
    omega

/-- What stands at each place of a segment. -/
theorem place_split {a prev : Nat} {first more : Bool} {bs : List Blk} {L R : List PBlk} {p : PBlk}
    (h : place a prev first more bs = L ++ p :: R) :
    p.flags.first = (first && L.isEmpty) ∧ p.flags.last = (R.isEmpty && !more) := by
  induction bs generalizing a prev first L with
  | nil => simp [place] at h
  | cons b bs ih =>
    cases L with
    | nil =>
      simp only [place, List.nil_append, List.cons.injEq] at h
      obtain ⟨rfl, rfl⟩ := h
      refine ⟨by simp, ?_⟩
      cases bs <;> simp [place]
    | cons q L =>
      simp only [place, List.cons_append, List.cons.injEq] at h
      simpa using ih h.2

/-- Of two neighbours the second records the size of the first, and they are not both free. -/
theorem place_neighbours {a prev : Nat} {first more : Bool} {bs : List Blk} {L R : List PBlk}
    {p q : PBlk} (h : place a prev first more bs = L ++ p :: q :: R) (hc : Coalesced bs) :
    q.prev = p.size ∧ (p.flags.free && q.flags.free) = false := by
  induction bs generalizing a prev first L with
  | nil => simp [place] at h
  | cons b bs ih =>
    cases L with
    | nil =>
      simp only [place, List.nil_append, List.cons.injEq] at h
      obtain ⟨rfl, h⟩ := h
      cases bs with
      | nil => simp [place] at h
      | cons d bs =>
        simp only [place, List.cons.injEq] at h
        obtain ⟨rfl, -⟩ := h
        exact ⟨rfl, (List.isChain_cons_cons.mp hc).1⟩
    | cons r L =>
      simp only [place, List.cons_append, List.cons.injEq] at h
      exact ih h.2 (List.isChain_cons.mp hc).2

/-! ## The representation, read from memory -/

/-- The blocks of all segments. -/
def allBlocks (m : Mem) (h : SegmentHeap) : List Nat := h.segments.flatMap (blocksOf m)

/-- One segment: its blocks tile it, the first and the last one carry their flags and no other
    does, and each block knows the size of the one before it. -/
structure SegmentTiled (m : Mem) (seg : Span) : Prop where
  tiles : Tiles m (seg.data + seg.size) seg.data (blocksOf m seg)
  sizes : ∀ b ∈ blocksOf m seg, size m b % 16 = 0 ∧ 48 ≤ size m b
  ends : ∀ l b r, blocksOf m seg = l ++ b :: r →
    (isFirst m b = true ↔ l = []) ∧ (isLast m b = true ↔ r = [])
  neighbours : ∀ l a b r, blocksOf m seg = l ++ a :: b :: r →
    prevSize m b = size m a ∧ ¬ (isFree m a = true ∧ isFree m b = true)

/-- The whole heap: every segment is tiled, the blocks without the free flag are the ones handed
    out, and the bins are doubly-linked lists that end and hold every free block once, in the bin
    of its size. -/
structure HeapInvariant (m : Mem) (h : SegmentHeap) (handed : List Span) : Prop where
  segments : ∀ seg ∈ h.segments, SegmentTiled m seg
  handed_out : (((allBlocks m h).filter fun b => !isFree m b).map payloadOf).Perm
    (handed.map Span.data)
  linked : ∀ i < kBinCount, DList (FreeNode.prev m) (FreeNode.next m) 0 (h.bins i)
    (binNodes m h.fuel (h.bins i))
  binned : ((List.range kBinCount).flatMap fun i => binNodes m h.fuel (h.bins i)).Perm
    (((allBlocks m h).filter fun b => isFree m b).map nodeOf)
  sorted : ∀ i < kBinCount, ∀ n ∈ binNodes m h.fuel (h.bins i),
    binIndex (size m (blockOfNode n)) = i

section Read
variable {w : World} {h : SegmentHeap} {segs : List Seg} {others : List Span}

theorem usedFrom_eq (a prev : Nat) (first more : Bool) (bs : List Blk) :
    usedFrom a bs = ((place a prev first more bs).filter fun p => !p.flags.free).map
      PBlk.payload := by
  induction bs generalizing a prev first with
  | nil => rfl
  | cons b bs ih =>
    rw [usedFrom, place, List.filter_cons, ih (a + b.size) b.size false]
    cases hb : b.free with
    | true => simp
    | false => simp [PBlk.payload]

theorem used_eq (segs : List Seg) :
    used segs = ((placed segs).filter fun p => !p.flags.free).map PBlk.payload := by
  unfold used placed
  rw [List.filter_flatMap, List.map_flatMap]
  congr
  funext s
  exact usedFrom_eq s.base 0 true false s.blocks

theorem HeapOk.allBlocks_eq (hok : HeapOk w h segs others) :
    allBlocks w.mem h = (placed segs).map PBlk.addr := by
  obtain ⟨lists, hr⟩ := hok.rep
  unfold allBlocks placed
  rw [hok.spans, List.flatMap_map, List.map_flatMap]
  exact List.flatMap_congr fun s hs => hr.blocksOf_span hs

theorem HeapOk.segmentTiled (hok : HeapOk w h segs others) {s : Seg} (hs : s ∈ segs) :
    SegmentTiled w.mem s.span := by
  obtain ⟨lists, hr⟩ := hok.rep
  have hin : ∀ p ∈ s.placed, p ∈ placed segs := fun p hp => mem_placed.mpr ⟨s, hs, hp⟩
  have hb := hr.blocksOf_span hs
  constructor
  · rw [hb]
    exact tiles_place fun p hp => hr.tags p (hin p hp)
  · rw [hb]
    intro b hb'
    obtain ⟨p, hp, rfl⟩ := List.mem_map.mp hb'
    have hok := hr.layout.placed_ok (hin p hp)
    rw [(hr.tags p (hin p hp)).size]
    omega
  · rw [hb]
    intro l b r he
    obtain ⟨L, R', hL, rfl, hR'⟩ := List.map_eq_append_iff.mp he
    obtain ⟨p, R, rfl, rfl, rfl⟩ := List.map_eq_cons_iff.mp hR'
    have htag := hr.tags p (hin p (by rw [hL]; simp))
    obtain ⟨hf, hl⟩ := place_split hL
    rw [htag.isFirst, htag.isLast, hf, hl]
    simp
  · rw [hb]
    intro l a b r he
    obtain ⟨L, R', hL, rfl, hR'⟩ := List.map_eq_append_iff.mp he
    obtain ⟨p, R'', rfl, rfl, hR''⟩ := List.map_eq_cons_iff.mp hR'
    obtain ⟨q, R, rfl, rfl, rfl⟩ := List.map_eq_cons_iff.mp hR''
    have hq := hin q (by rw [hL]; simp)
    have htp := hr.tags p (hin p (by rw [hL]; simp))
    have htq := hr.tags q hq
    obtain ⟨hprev, hfree⟩ := place_neighbours hL (hr.layout.wf s hs).coalesced
    have hqok := hr.layout.placed_ok hq
    rw [hr.prevs q hq (by omega), htp.size, htp.isFree, htq.isFree, hprev]
    refine ⟨rfl, fun hboth => ?_⟩
    rw [hboth.1, hboth.2] at hfree
    cases hfree

/-- The bins together are the nodes of the free blocks. -/
theorem Rep.bins_perm {m : Mem} {bins : Nat → Nat} {lists : Nat → List Nat} {st : Nat}
    (hr : Rep m bins segs lists st) : ((List.range 18).flatMap lists).Perm
      (((placed segs).filter fun p => p.flags.free).map PBlk.node) := by
  have hnd1 : ((List.range 18).flatMap lists).Nodup := by
    refine List.nodup_flatMap.mpr ⟨fun i _ => (hr.bin i).chain.nodup, ?_⟩
    refine List.nodup_range.imp fun {i j} hij => ?_
    refine List.disjoint_left.mpr fun n hi hj => hij (hr.bin_unique hi hj)
  have hnd2 : (((placed segs).filter fun p => p.flags.free).map PBlk.node).Nodup := by
    refine List.Nodup.map_on (fun p hp q hq e => ?_) (hr.layout.nodup.filter _)
    unfold PBlk.node at e
    exact hr.layout.eq_of_addr (List.mem_of_mem_filter hp) (List.mem_of_mem_filter hq) (by omega)
  refine (List.perm_ext_iff_of_nodup hnd1 hnd2).mpr fun n => ?_
  rw [List.mem_flatMap, List.mem_map]
  constructor
  · rintro ⟨i, -, hn⟩
    obtain ⟨p, hp, hpn, hpf, -⟩ := (hr.mem_lists i n).mp hn
    exact ⟨p, List.mem_filter.mpr ⟨hp, hpf⟩, hpn⟩
  · rintro ⟨p, hp, hpn⟩
    obtain ⟨hp, hpf⟩ := List.mem_filter.mp hp
    exact ⟨binIndex p.size, List.mem_range.mpr (binIndex_lt _),
      (hr.mem_lists _ n).mpr ⟨p, hp, hpn, hpf, rfl⟩⟩

theorem HeapOk.invariant (hok : HeapOk w h segs others) {handed : List Span}
    (hperm : (used segs).Perm handed) : HeapInvariant w.mem h handed := by
  obtain ⟨lists, hr⟩ := hok.rep
  have hwalk := hr.binNodes_eq hok.spans
  have hfree : ∀ p ∈ placed segs, isFree w.mem p.addr = p.flags.free := fun p hp =>
    (hr.tags p hp).isFree
  constructor
  · intro seg hseg
    rw [hok.spans] at hseg
    obtain ⟨s, hs, rfl⟩ := List.mem_map.mp hseg
    exact hok.segmentTiled hs
  · rw [hok.allBlocks_eq, List.filter_map, List.map_map]
    have h1 : (placed segs).filter ((fun b => !isFree w.mem b) ∘ PBlk.addr) =
        (placed segs).filter fun p => !p.flags.free :=
      List.filter_congr fun p hp => by simp [hfree p hp]
    rw [h1]
    have h2 := hperm.map Span.data
    rw [used_eq, List.map_map] at h2
    exact h2
  · intro i _
    rw [hwalk]
    exact hr.bin i
  · rw [hok.allBlocks_eq, List.filter_map, List.map_map]
    have h1 : (placed segs).filter ((fun b => isFree w.mem b) ∘ PBlk.addr) =
        (placed segs).filter fun p => p.flags.free :=
      List.filter_congr fun p hp => by simp [hfree p hp]
    simp only [hwalk]
    rw [h1]
    exact hr.bins_perm
  · intro i _ n hn
    rw [hwalk] at hn
    obtain ⟨p, hp, rfl, -, hpi⟩ := (hr.mem_lists i n).mp hn
    have hpok := hr.layout.placed_ok hp
    rw [blockOfNode_node (by omega), (hr.tags p hp).size, hpi]

end Read

/-- **The representation invariant holds after every run.** -/
theorem representation_of_run {w : World} (hw : w.Ok) {calls : List HeapCall} {s : HeapSys}
    (hrun : heapRun w calls = some s) : HeapInvariant s.world.mem s.heap s.handed := by
  obtain ⟨segs, hok, -, hperm⟩ := heapReached_of_run hw hrun
  exact hok.invariant hperm

/-- Three blocks, a write, frees with no free neighbour and with one, and a second segment. -/
theorem representation_of_run_roomyWorld :
    ∃ s, heapRun roomyWorld [.allocate 100, .allocate 5000, .allocate 70, .write 1048723 7,
        .deallocate 1048592, .deallocate 1053744, .allocate 3000000, .allocate 3000000,
        .deallocate 1048720] = some s ∧
      s.heap.segments.length = 2 ∧ s.handed.length = 2 ∧ HeapInvariant s.world.mem s.heap s.handed := by
  have hrun : (heapRun roomyWorld [.allocate 100, .allocate 5000, .allocate 70, .write 1048723 7,
      .deallocate 1048592, .deallocate 1053744, .allocate 3000000, .allocate 3000000,
      .deallocate 1048720]).map (fun s => (s.heap.segments.length, s.handed.length)) = some (2, 2) := by
    decide +kernel
  obtain ⟨s, hs, hv⟩ := Option.map_eq_some_iff.mp hrun
  obtain ⟨hsegs, hhanded⟩ := Prod.mk.inj hv
  exact ⟨s, hs, hsegs, hhanded, representation_of_run roomyWorld_ok hs⟩

/-! ## Retention -/

/-- One segment of full size, one free block as large, alone in its bin. -/
structure CanonicalEmpty (w : World) (h : SegmentHeap) (seg : Span) : Prop where
  sole : h.segments = [seg]
  full : seg.size = roundToPages w.page kSegmentSize
  block : blocksOf w.mem seg = [seg.data]
  size_eq : size w.mem seg.data = seg.size
  free : isFree w.mem seg.data = true
  bin : h.bins (binIndex seg.size) = nodeOf seg.data
  prev : FreeNode.prev w.mem (nodeOf seg.data) = 0
  next : FreeNode.next w.mem (nodeOf seg.data) = 0
  others : ∀ i, i ≠ binIndex seg.size → h.bins i = 0

section Retention
variable {w : World} {h : SegmentHeap} {segs : List Seg} {others : List Span}

theorem busy_iff_used {s : Seg} : Busy s ↔ usedFrom s.base s.blocks ≠ [] := by
  rw [usedFrom_eq _ 0 true false, Ne, List.map_eq_nil_iff, List.filter_eq_nil_iff]
  constructor
  · rintro ⟨b, hb, hbf⟩ hall
    obtain ⟨l, r, hlr⟩ := List.append_of_mem hb
    refine hall ⟨s.base + total l, b.size, ⟨b.free, true && l.isEmpty, r.isEmpty && !false⟩,
      lastSize 0 l⟩ ?_ (by simp [hbf])
    rw [hlr, place_append]
    simp [place]
  · intro hne
    push Not at hne
    obtain ⟨p, hp, hpf⟩ := hne
    obtain ⟨l, b, r, hb, rfl⟩ := mem_place hp
    exact ⟨b, by rw [hb]; simp, by simpa using hpf⟩

/-- A busy segment has a block whose payload is handed out. -/
theorem HeapOk.busy_block (hok : HeapOk w h segs others) {handed : List Span}
    (hperm : (used segs).Perm handed) {s : Seg} (hs : s ∈ segs) (hb : Busy s) :
    ∃ b ∈ blocksOf w.mem s.span, payloadOf b ∈ handed.map Span.data := by
  obtain ⟨lists, hr⟩ := hok.rep
  obtain ⟨u, hu⟩ := List.exists_mem_of_ne_nil _ (busy_iff_used.mp hb)
  obtain ⟨p, hp, -, rfl⟩ := (mem_usedFrom 0 true false).mp hu
  refine ⟨p.addr, ?_, ?_⟩
  · rw [hr.blocksOf_span hs]
    exact List.mem_map_of_mem hp
  · refine List.mem_map.mpr ⟨p.payload, hperm.mem_iff.mp ?_, rfl⟩
    exact List.mem_flatMap.mpr ⟨s, hs, hu⟩

/-- When nothing is handed out, what is left of a heap with a segment is canonical. -/
theorem HeapOk.canonical (hok : HeapOk w h segs others) (hret : Retained segs) (hne : segs ≠ [])
    (hu : used segs = []) : ∃ seg, CanonicalEmpty w h seg := by
  have hidle : ∀ s ∈ segs, ¬ Busy s := fun s hs hb => busy_iff_used.mp hb (by
    have := List.flatMap_eq_nil_iff.mp hu s hs
    exact this)
  have hone : ∃ s, segs = [s] := by
    match segs, hne with
    | [s], _ => exact ⟨s, rfl⟩
    | s :: t :: r, _ =>
      exact absurd (hret (by simp) s List.mem_cons_self) (hidle s List.mem_cons_self)
  obtain ⟨s, rfl⟩ := hone
  obtain ⟨lists, hr⟩ := hok.rep
  have hblocks := single_of_not_busy (hok.layout.wf s List.mem_cons_self)
    (hidle s List.mem_cons_self)
  have hplaced : s.placed = [⟨s.base, total s.blocks, ⟨true, true, true⟩, 0⟩] := by
    unfold Seg.placed
    rw [hblocks]
    simp [place]
  have hall : placed [s] = [⟨s.base, total s.blocks, ⟨true, true, true⟩, 0⟩] := by
    simp [placed, hplaced]
  have htag := hr.tags ⟨s.base, total s.blocks, ⟨true, true, true⟩, 0⟩ (by rw [hall]; simp)
  have hlists : ∀ i n, n ∈ lists i ↔ n = s.base + 32 ∧ i = binIndex (total s.blocks) := by
    intro i n
    rw [hr.mem_lists i n, hall]
    simp only [List.mem_singleton, exists_eq_left, PBlk.node, true_and]
    exact ⟨fun hx => ⟨hx.1.symm, hx.2.symm⟩, fun hx => ⟨hx.1.symm, hx.2.symm⟩⟩
  have hbin : lists (binIndex (total s.blocks)) = [s.base + 32] := by
    have hmem := hlists (binIndex (total s.blocks))
    have hnd := (hr.bin (binIndex (total s.blocks))).chain.nodup
    refine List.perm_singleton.mp ((List.perm_ext_iff_of_nodup hnd (by simp)).mpr fun n => ?_)
    rw [hmem n]
    simp
  have hd := hr.bin (binIndex (total s.blocks))
  rw [hbin] at hd
  obtain ⟨hhead, -, hprev, hnext⟩ := hd
  refine ⟨s.span, ⟨by rw [hok.spans]; rfl, hok.full s List.mem_cons_self, ?_, htag.size,
    htag.isFree, hhead, hprev, hnext, fun i hi => ?_⟩⟩
  · rw [hr.blocksOf_span List.mem_cons_self, hplaced]
    rfl
  · have hemp : lists i = [] := List.eq_nil_iff_forall_not_mem.mpr fun n hn =>
      hi ((hlists i n).mp hn).2
    have := hr.bin i
    rw [hemp] at this
    exact this

end Retention

/-- Segments do not all go: a heap that has one keeps one. -/
theorem heapStep_keeps_segment {others : List Span} {s s' : HeapSys} {e : HeapCall}
    (hs : HeapReached others s) (he : heapStep s e = some s') (hne : s.heap.segments ≠ []) :
    s'.heap.segments ≠ [] := by
  obtain ⟨segs, hok, hret, hperm⟩ := hs
  have hspans : ∀ {w h segs'}, HeapOk w h segs' others → segs' ≠ [] → h.segments ≠ [] :=
    fun hok' hne' h0 => hne' (List.map_eq_nil_iff.mp (hok'.spans.symm.trans h0))
  cases e with
  | allocate bytes =>
    have hout := allocate_spec hok hret bytes
    simp only [heapStep, Option.some.injEq] at he
    subst he
    generalize SegmentHeap.allocate s.world s.heap bytes = r at *
    cases hout with
    | tooLarge => exact hne
    | refused hok' =>
      refine hspans hok' fun h0 => hne ?_
      rw [hok.spans, h0]
      rfl
    | served hsv _ hne' => exact hspans hsv.ok hne'
  | deallocate payload =>
    simp only [heapStep] at he
    split at he
    · rename_i u hfind
      have hdata : u.data = payload := by simpa using List.find?_some hfind
      have hu : u ∈ used segs := hperm.mem_iff.mpr (List.mem_of_find?_eq_some hfind)
      obtain ⟨w', h', segs', hd, hok', -, -, -, hne', -⟩ := deallocate_spec hok hret hu
      cases he
      rw [← hdata, hd]
      exact hspans hok' hne'
    · cases he
  | write addr value =>
    simp only [heapStep] at he
    split at he
    · cases he
      exact hne
    · cases he

/-- **Retention.** After every run, when two segments are mapped each has a handed-out block;
    once a segment is mapped, one is mapped ever after; and when nothing is handed out any more
    the heap is one segment with one free block. -/
theorem retention_of_run {w : World} (hw : w.Ok) {calls calls' : List HeapCall} {s s' : HeapSys}
    (hrun : heapRun w calls = some s) (hrun' : runFrom heapStep s calls' = some s') :
    (2 ≤ s'.heap.segments.length → ∀ seg ∈ s'.heap.segments,
      ∃ b ∈ blocksOf s'.world.mem seg, payloadOf b ∈ s'.handed.map Span.data) ∧
    (s.heap.segments ≠ [] → s'.heap.segments ≠ []) ∧
    (s.heap.segments ≠ [] → s'.handed = [] → ∃ seg, CanonicalEmpty s'.world s'.heap seg) := by
  have hs := heapReached_of_run hw hrun
  have hboth : HeapReached w.mapped s' ∧ (s.heap.segments ≠ [] → s'.heap.segments ≠ []) := by
    refine run_invariant (P := fun t => HeapReached w.mapped t ∧
      (s.heap.segments ≠ [] → t.heap.segments ≠ [])) (fun t e t' ht he => ?_) ⟨hs, id⟩ hrun'
    exact ⟨heapStep_reached t e t' ht.1 he, fun h0 => heapStep_keeps_segment ht.1 he (ht.2 h0)⟩
  obtain ⟨⟨segs, hok, hret, hperm⟩, hkeep⟩ := hboth
  have hlen : s'.heap.segments.length = segs.length := by rw [hok.spans, List.length_map]
  refine ⟨fun h2 seg hseg => ?_, hkeep, fun h0 hemp => ?_⟩
  · rw [hok.spans] at hseg
    obtain ⟨t, ht, rfl⟩ := List.mem_map.mp hseg
    exact hok.busy_block hperm ht (hret (by omega) t ht)
  · refine hok.canonical hret (fun hnil => hkeep h0 ?_) ?_
    · rw [hok.spans, hnil]
      rfl
    · rw [hemp] at hperm
      exact hperm.eq_nil

/-- Two segments with blocks in both; the first goes when its block is freed, and the other one stays
    when all blocks are free. -/
theorem retention_of_run_roomyWorld :
    ∃ s s' s'', heapRun roomyWorld [.allocate 3000000] = some s ∧
      runFrom heapStep s [.allocate 3000000, .allocate 5000] = some s' ∧
      runFrom heapStep s' [.deallocate 1048592, .deallocate 19777248, .deallocate 16777232] = some s'' ∧
      s'.heap.segments.length = 2 ∧
      (∀ seg ∈ s'.heap.segments, ∃ b ∈ blocksOf s'.world.mem seg, payloadOf b ∈ s'.handed.map Span.data) ∧
      s''.handed = [] ∧ ∃ seg, CanonicalEmpty s''.world s''.heap seg := by
  have hrun : (heapRun roomyWorld [.allocate 3000000]).map (fun s => s.heap.segments.length) = some 1 := by
    decide +kernel
  obtain ⟨s, hs, hone⟩ := Option.map_eq_some_iff.mp hrun
  have hrun' : (heapRun roomyWorld ([.allocate 3000000] ++ [.allocate 3000000, .allocate 5000])).map
      (fun s => s.heap.segments.length) = some 2 := by decide +kernel
  obtain ⟨s', hs', htwo⟩ := Option.map_eq_some_iff.mp hrun'
  have hrun'' : (heapRun roomyWorld ([.allocate 3000000] ++ [.allocate 3000000, .allocate 5000] ++
      [.deallocate 1048592, .deallocate 19777248, .deallocate 16777232])).map HeapSys.handed = some [] := by
    decide +kernel
  obtain ⟨s'', hs'', hnone⟩ := Option.map_eq_some_iff.mp hrun''
  obtain ⟨_, h, hmid⟩ := run_append.mp hs'
  cases hs.symm.trans h
  obtain ⟨_, h', hend⟩ := run_append.mp hs''
  cases hs'.symm.trans h'
  have hne : s.heap.segments ≠ [] := List.ne_nil_of_length_pos (by rw [hone]; decide)
  exact ⟨s, s', s'', hs, hmid, hend, htwo, (retention_of_run roomyWorld_ok hs hmid).1 htwo.ge, hnone,
    (retention_of_run roomyWorld_ok hs (run_append.mpr ⟨s', hmid, hend⟩)).2.2 hne hnone⟩

end MAlloc.Heap
