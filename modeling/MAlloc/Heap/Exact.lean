/-
  How exactly the medium tier serves a request.

  A heap is read as a table of rows, one for each block a walk over the segments finds: where it
  is, its size, and whether its tag says free. `Exact` is the contract of
  `SegmentHeap::allocate` in these terms: when it answers null, when it asks the OS for a
  segment, and which row becomes which. `exact_of_run` proves it for every heap a run reaches.
-/
import MAlloc.Heap.System

namespace MAlloc.Heap

open Lib MediumBlock SegmentHeap SystemMemory

/-! ## The table of blocks -/

/-- A block as its tag describes it. -/
structure Row where
  addr : Nat
  size : Nat
  free : Bool
  deriving DecidableEq, Repr

def blockTable (m : Mem) (h : SegmentHeap) : List Row :=
  (allBlocks m h).map fun b => ⟨b, size m b, isFree m b⟩

/-- No free block has `t` bytes. -/
def NoFit (m : Mem) (h : SegmentHeap) (t : Nat) : Prop :=
  ∀ r ∈ blockTable m h, r.free = true → r.size < t

instance (m : Mem) (h : SegmentHeap) (t : Nat) : Decidable (NoFit m h t) :=
  inferInstanceAs (Decidable (∀ r ∈ blockTable m h, r.free = true → r.size < t))

/-- The rows of a sequence of blocks from address `a` on. -/
def rowsFrom (a : Nat) : List Blk → List Row
  | [] => []
  | b :: bs => ⟨a, b.size, b.free⟩ :: rowsFrom (a + b.size) bs

def rows (segs : List Seg) : List Row := segs.flatMap fun s => rowsFrom s.base s.blocks

theorem rowsFrom_append (a : Nat) (l r : List Blk) :
    rowsFrom a (l ++ r) = rowsFrom a l ++ rowsFrom (a + total l) r := by
  induction l generalizing a with
  | nil => rfl
  | cons b l ih => simp [rowsFrom, ih, Nat.add_assoc]

theorem rowsFrom_eq (a prev : Nat) (first more : Bool) (bs : List Blk) :
    rowsFrom a bs = (place a prev first more bs).map fun p => ⟨p.addr, p.size, p.flags.free⟩ := by
  induction bs generalizing a prev first with
  | nil => rfl
  | cons b bs ih => rw [rowsFrom, place, List.map_cons, ih (a + b.size) b.size false]

theorem rows_eq (segs : List Seg) :
    rows segs = (placed segs).map fun p => ⟨p.addr, p.size, p.flags.free⟩ := by
  unfold rows placed
  rw [List.map_flatMap]
  congr
  funext s
  exact rowsFrom_eq s.base 0 true false s.blocks

/-- The rows outside a hole do not depend on the filling. -/
theorem Ctx.rows_plug (c : Ctx) : ∃ X Y, ∀ mid, total mid = c.hole →
    rows (c.plug mid) = X ++ (rowsFrom c.addr mid ++ Y) := by
  refine ⟨rows c.before ++ rowsFrom c.base c.left,
    rowsFrom (c.addr + c.hole) c.right ++ rows c.after, fun mid ht => ?_⟩
  unfold rows Ctx.plug
  rw [List.flatMap_append, List.flatMap_cons]
  simp only [rowsFrom_append, List.append_assoc, ht, Ctx.addr, Nat.add_assoc]

section Table
variable {w : World} {h : SegmentHeap} {segs : List Seg} {others : List Span}

theorem HeapOk.blockTable_eq (hok : HeapOk w h segs others) : blockTable w.mem h = rows segs := by
  obtain ⟨lists, hr⟩ := hok.rep
  unfold blockTable
  rw [hok.allBlocks_eq, rows_eq, List.map_map]
  refine List.map_congr_left fun p hp => ?_
  have htag := hr.tags p hp
  simp only [Function.comp_apply, htag.size, htag.isFree]

/-- The search over the bins misses no block. -/
theorem HeapOk.findFit_none_iff (hok : HeapOk w h segs others) (t : Nat) :
    findFit w.mem h t = none ↔ NoFit w.mem h t := by
  obtain ⟨lists, hr⟩ := hok.rep
  unfold NoFit
  rw [hok.blockTable_eq, rows_eq]
  constructor
  · intro hf r hrow hfree
    obtain ⟨p, hp, rfl⟩ := List.mem_map.mp hrow
    exact hr.findFit_none hok.spans hf hp hfree
  · intro hno
    cases hf : findFit w.mem h t with
    | none => rfl
    | some a =>
      obtain ⟨p, hp, -, hpf, hps⟩ := hr.findFit_some hok.spans hf
      have hlt := hno _ (List.mem_map_of_mem hp) hpf
      exact absurd hps (Nat.not_le.mpr hlt)

/-- A row of the table is what its tag says. -/
theorem size_of_row {m : Mem} {r : Row} (hr : r ∈ blockTable m h) : size m r.addr = r.size := by
  obtain ⟨b, -, rfl⟩ := List.mem_map.mp hr
  rfl

end Table

/-! ## The contract -/

/-- `alignUp(bytes, 16) + 16`, at least 48, without wrapping. -/
def exactTotal (bytes : Nat) : Nat := max ((bytes + 15) / 16 * 16 + 16) 48

theorem totalFor_eq {bytes : Nat} (h : (bytes + 15) / 16 * 16 + 16 < 2 ^ 64) :
    totalFor bytes = exactTotal bytes := by
  have h1 : alignUp bytes kDefaultAlignment = (bytes + 15) / 16 * 16 := alignUp_16 (by omega)
  unfold totalFor exactTotal
  rw [h1]
  change max (((bytes + 15) / 16 * 16 + 16) % 2 ^ 64) 48 = max ((bytes + 15) / 16 * 16 + 16) 48
  omega

/-- The rows a request may be served from: those of the heap, and that of a new segment when none
    of them is large enough. -/
def offered (w : World) (h : SegmentHeap) (t : Nat) : List Row :=
  blockTable w.mem h ++
    if NoFit w.mem h t then
      (SystemMemory.map w kSegmentSize).1.toList.map fun r => ⟨r.data, r.size, true⟩
    else []

/-- What becomes of the chosen row. -/
def cut (r : Row) (t : Nat) : List Row :=
  if r.size - t < kMinBlockSize then [⟨r.addr, r.size, false⟩]
  else [⟨r.addr, t, false⟩, ⟨r.addr + t, r.size - t, true⟩]

/-- From the rows `old` the request for `bytes` was served by one, with no more than 32 bytes
    to spare. -/
structure Tight (old new : List Row) (m : Mem) (bytes payload : Nat) : Prop where
  carved : ∃ chosen rest, chosen.free = true ∧ exactTotal bytes ≤ chosen.size ∧
    payload = payloadOf chosen.addr ∧ old.Perm (chosen :: rest) ∧
    new.Perm (cut chosen (exactTotal bytes) ++ rest)
  fits : exactTotal bytes ≤ size m (blockOf payload)
  spare : size m (blockOf payload) ≤ exactTotal bytes + 32
  aligned : payload % 16 = 0
  capacity : payloadCapacity m payload = size m (blockOf payload) - 16
  enough : bytes ≤ payloadCapacity m payload

/-- `allocate(bytes)` from this heap. -/
structure Exact (w : World) (h : SegmentHeap) (bytes : Nat) : Prop where
  null_iff : (SegmentHeap.allocate w h bytes).1 = none ↔ kSegmentSize < exactTotal bytes ∨
    NoFit w.mem h (exactTotal bytes) ∧ (SystemMemory.map w kSegmentSize).1 = none
  grows : ¬ NoFit w.mem h (exactTotal bytes) →
    (SegmentHeap.allocate w h bytes).2.1.mapped = w.mapped ∧
      (SegmentHeap.allocate w h bytes).2.1.answers = w.answers ∧
      (SegmentHeap.allocate w h bytes).2.2.segments = h.segments
  finds : (addSegment w h).1 = true → exactTotal bytes ≤ kSegmentSize →
    findFit (addSegment w h).2.1.mem (addSegment w h).2.2 (exactTotal bytes) ≠ none
  tight : ∀ p, (SegmentHeap.allocate w h bytes).1 = some p →
    Tight (offered w h (exactTotal bytes))
      (blockTable (SegmentHeap.allocate w h bytes).2.1.mem (SegmentHeap.allocate w h bytes).2.2)
      (SegmentHeap.allocate w h bytes).2.1.mem bytes p

section Exact
variable {w : World} {h : SegmentHeap} {segs : List Seg} {others : List Span}

theorem addSegment_fst (w : World) (h : SegmentHeap) :
    (addSegment w h).1 = (SystemMemory.map w kSegmentSize).1.isSome := by
  unfold addSegment
  cases SystemMemory.map w kSegmentSize with
  | mk o w1 => cases o <;> rfl

theorem addSegment_none (hmap : (SystemMemory.map w kSegmentSize).1 = none) :
    addSegment w h = (false, (SystemMemory.map w kSegmentSize).2, h) := by
  unfold addSegment
  generalize SystemMemory.map w kSegmentSize = r at *
  obtain ⟨o, w1⟩ := r
  cases hmap
  rfl

/-- Serving from a free block that is large enough is tight. -/
theorem serve_tight (hok : HeapOk w h segs others) {bytes : Nat}
    (hwrap : (bytes + 15) / 16 * 16 + 16 < 2 ^ 64) {p : PBlk} (hp : p ∈ placed segs)
    (hpf : p.flags.free = true) (hle : exactTotal bytes ≤ p.size) :
    ∃ q w' h', serve w h p.addr (exactTotal bytes) = (some q, w', h') ∧
      w'.mapped = w.mapped ∧ w'.answers = w.answers ∧ h'.segments = h.segments ∧
      Tight (blockTable w.mem h) (blockTable w'.mem h') w'.mem bytes q := by
  have ht := totalFor_ok bytes
  have hbytes : bytes + 16 ≤ exactTotal bytes := by
    unfold exactTotal
    omega
  rw [totalFor_eq hwrap] at ht
  obtain ⟨c, mid, u, w', h', he, hseg, haddr, hhole, hud, hsegs', hmapped, hmid, hsv, -⟩ :=
    serve_spec hok hp hpf ht.1 ht.2 hle
  have hanswers : w'.answers = w.answers := by
    have := congrArg (fun r => r.2.1.answers) he
    exact this.symm
  refine ⟨u.data, w', h', he, hmapped, hanswers, hsegs', ?_⟩
  obtain ⟨X, Y, hXY⟩ := c.rows_plug
  have hold := hok.blockTable_eq
  have hnew := hsv.ok.blockTable_eq
  -- the filling, as rows
  have hcut : total mid = c.hole ∧
      rowsFrom c.addr mid = cut ⟨c.addr, c.hole, true⟩ (exactTotal bytes) := by
    unfold cut
    rcases hmid with ⟨rfl, hlt⟩ | ⟨rfl, hge⟩
    · rw [if_pos (show c.hole - exactTotal bytes < 48 by omega)]
      exact ⟨by simp, rfl⟩
    · rw [if_neg (show ¬ c.hole - exactTotal bytes < 48 by omega)]
      exact ⟨by simp; omega, rfl⟩
  rw [hseg, hXY _ (by simp)] at hold
  rw [hXY _ hcut.1, hcut.2] at hnew
  -- the block handed out: its tag, and its row
  obtain ⟨lists, hr⟩ := hsv.ok.rep
  have hu : u ∈ used (c.plug mid) := hsv.used.mem_iff.mpr List.mem_cons_self
  obtain ⟨b, hb, -, rfl⟩ := mem_used.mp hu
  have hbok := hsv.ok.layout.placed_ok hb
  have hba : b.addr = c.addr := by
    unfold PBlk.payload at hud
    simp only at hud
    omega
  have hblock : blockOf b.payload.data = b.addr :=
    (ptrSub_eq (show 16 ≤ b.addr + 16 by omega) (show b.addr + 16 < 2 ^ 64 by omega)).trans
      (Nat.add_sub_cancel _ _)
  have hsize : size w'.mem b.addr = b.size := (hr.tags b hb).size
  have hbounds : exactTotal bytes ≤ b.size ∧ b.size ≤ exactTotal bytes + 32 := by
    have hhead : ∃ r ∈ cut ⟨c.addr, c.hole, true⟩ (exactTotal bytes), r.addr = c.addr ∧
        exactTotal bytes ≤ r.size ∧ (r.size = exactTotal bytes ∨ r.size = c.hole) ∧
        r.size < exactTotal bytes + 48 := by
      unfold cut
      split
      · rename_i hlt
        change c.hole - exactTotal bytes < 48 at hlt
        exact ⟨_, List.mem_cons_self, rfl, hhole, Or.inr rfl, by simp only; omega⟩
      · exact ⟨_, List.mem_cons_self, rfl, Nat.le_refl _, Or.inl rfl, by simp only; omega⟩
    obtain ⟨r, hr', hra, hrt, -, hrs⟩ := hhead
    have hrow : r ∈ blockTable w'.mem h' := by
      rw [hnew]
      simp [hr']
    have hrsize := size_of_row hrow
    rw [hra, ← hba, hsize] at hrsize
    -- both are multiples of 16
    have h16 := ht.2
    omega
  have hcap := payloadCapacity_used hsv.ok hu
  have hpay : b.payload.size = b.size - 16 := rfl
  refine ⟨⟨⟨c.addr, c.hole, true⟩, X ++ Y, rfl, hhole, hud, ?_, ?_⟩, ?_, ?_, ?_, ?_, ?_⟩
  · rw [hold]
    exact List.perm_middle
  · rw [hnew]
    refine List.perm_append_comm_assoc _ _ _
  · rw [hblock, hsize]
    exact hbounds.1
  · rw [hblock, hsize]
    exact hbounds.2
  · rw [hud, ← hba]
    omega
  · rw [hcap, hblock, hsize]
    rfl
  · rw [hcap, hpay]
    omega

/-- The row of a wholly free new segment. -/
theorem rows_new (segs : List Seg) (a s : Nat) :
    rows (segs ++ [⟨a, [⟨s, true⟩]⟩]) = rows segs ++ [⟨a, s, true⟩] := by
  unfold rows
  simp [rowsFrom]

/-- **`SegmentHeap::allocate` keeps its contract** on a represented heap. -/
theorem HeapOk.exact (hok : HeapOk w h segs others) {bytes : Nat}
    (hwrap : (bytes + 15) / 16 * 16 + 16 < 2 ^ 64) : Exact w h bytes := by
  have htot := totalFor_eq hwrap
  have hadd : addSegment w h =
    ((addSegment w h).1, (addSegment w h).2.1, (addSegment w h).2.2) := rfl
  obtain ⟨lists, hr⟩ := hok.rep
  -- a search right after a segment was added
  have hfinds : (addSegment w h).1 = true → exactTotal bytes ≤ kSegmentSize →
      findFit (addSegment w h).2.1.mem (addSegment w h).2.2 (exactTotal bytes) ≠ none := by
    intro htrue hle hnone
    rcases addSegment_spec hok hadd with ⟨hb, -⟩ | ⟨-, a, -, hok1, -⟩
    · rw [htrue] at hb
      cases hb
    · rw [hok1.findFit_none_iff, NoFit, hok1.blockTable_eq, rows_new] at hnone
      have hlt := hnone ⟨a, segmentBytes w, true⟩ (by simp) rfl
      exact absurd ((segmentBytes_bounds w).1.trans_lt hlt) (Nat.not_lt.mpr hle)
  by_cases hbig : kSegmentSize < exactTotal bytes
  · have he : SegmentHeap.allocate w h bytes = (none, w, h) := by
      unfold SegmentHeap.allocate
      rw [htot, if_pos hbig]
    refine ⟨?_, ?_, hfinds, ?_⟩
    · rw [he]
      exact ⟨fun _ => Or.inl hbig, fun _ => rfl⟩
    · rw [he]
      exact fun _ => ⟨rfl, rfl, rfl⟩
    · intro p hp
      rw [he] at hp
      cases hp
  have hle := Nat.not_lt.mp hbig
  rw [← htot] at hbig
  cases hfit : findFit w.mem h (exactTotal bytes) with
  | some a =>
    have hno : ¬ NoFit w.mem h (exactTotal bytes) := by
      rw [← hok.findFit_none_iff, hfit]
      exact Option.some_ne_none a
    obtain ⟨p, hp, rfl, hpf, hps⟩ := hr.findFit_some hok.spans hfit
    obtain ⟨q, w', h', hs, hm, ha, hseg, htight⟩ := serve_tight hok hwrap hp hpf hps
    have he : SegmentHeap.allocate w h bytes = (some q, w', h') := by
      rw [allocate_of_some hbig (by rw [htot]; exact hfit), htot, hs]
    refine ⟨?_, ?_, hfinds, ?_⟩
    · rw [he]
      refine ⟨fun h0 => (by cases h0), fun h0 => ?_⟩
      rcases h0 with h0 | h0
      · rw [htot] at hbig
        exact absurd h0 hbig
      · exact absurd h0.1 hno
    · rw [he]
      exact fun _ => ⟨hm, ha, hseg⟩
    · rw [he]
      intro r hr'
      cases hr'
      unfold offered
      rw [if_neg hno, List.append_nil]
      exact htight
  | none =>
    have hno : NoFit w.mem h (exactTotal bytes) := (hok.findFit_none_iff _).mp hfit
    have halloc := allocate_of_none hbig (by rw [htot]; exact hfit)
    rcases addSegment_spec hok hadd with ⟨hb, -⟩ | ⟨hb, a, hmap, hok1, -⟩
    · have hmap : (SystemMemory.map w kSegmentSize).1 = none := by
        rw [addSegment_fst] at hb
        exact Option.not_isSome_iff_eq_none.mp (by simp [hb])
      rw [if_neg (by simp [hb])] at halloc
      refine ⟨?_, fun h0 => absurd hno h0, hfinds, ?_⟩
      · rw [halloc]
        exact ⟨fun _ => Or.inr ⟨hno, hmap⟩, fun _ => rfl⟩
      · rw [halloc]
        intro p hp
        cases hp
    · obtain ⟨block, hfit1⟩ := Option.ne_none_iff_exists'.mp (hfinds hb hle)
      obtain ⟨lists1, hr1⟩ := hok1.rep
      obtain ⟨p, hp, rfl, hpf, hps⟩ := hr1.findFit_some hok1.spans hfit1
      obtain ⟨q, w', h', hs, -, -, -, htight⟩ := serve_tight hok1 hwrap hp hpf hps
      have he : SegmentHeap.allocate w h bytes = (some q, w', h') := by
        rw [halloc, if_pos hb, htot, retry_of_some hfit1, hs]
      refine ⟨?_, fun h0 => absurd hno h0, hfinds, ?_⟩
      · rw [he, hmap]
        refine ⟨fun h0 => (by cases h0), fun h0 => ?_⟩
        rcases h0 with h0 | h0
        · exact absurd hle (Nat.not_le.mpr h0)
        · cases h0.2
      · rw [he]
        intro r hr'
        cases hr'
        have hoff : offered w h (exactTotal bytes) =
            blockTable (addSegment w h).2.1.mem (addSegment w h).2.2 := by
          unfold offered
          rw [if_pos hno, hmap, hok1.blockTable_eq, rows_new, hok.blockTable_eq]
          rfl
        rw [hoff]
        exact htight

end Exact

/-- **`allocate` is complete and tight** in every heap a run reaches. -/
theorem exact_of_run {w : World} (hw : w.Ok) {calls : List HeapCall} {s : HeapSys}
    (hrun : heapRun w calls = some s) {bytes : Nat}
    (hwrap : (bytes + 15) / 16 * 16 + 16 < 2 ^ 64) : Exact s.world s.heap bytes := by
  obtain ⟨segs, hok, -, -⟩ := heapReached_of_run hw hrun
  exact hok.exact hwrap

theorem exact_of_run_smallWorld :
    ∃ s, heapRun smallWorld [.allocate 100, .allocate 5000, .allocate 70, .deallocate 65680] = some s ∧
      Exact s.world s.heap 3000 := by
  have hsome : (heapRun smallWorld
      [.allocate 100, .allocate 5000, .allocate 70, .deallocate 65680]).isSome = true := by
    decide +kernel
  obtain ⟨s, hs⟩ := Option.isSome_iff_exists.mp hsome
  exact ⟨s, hs, exact_of_run smallWorld_ok hs (by decide)⟩

end MAlloc.Heap
