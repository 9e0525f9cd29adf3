/-
  `MappedRegion` of `SystemMemory.hpp`, and the containers that hold regions by value.

  A `MappedRegion` owns the region of its span; the empty span owns nothing. Here the owners are
  explicit: a move leaves the source empty, an assignment gives back what the target had, a
  destructor is `reset`. `std::vector::erase` move-assigns the tail down and destroys the last
  element; `push_back` may move every element into new storage first.

  The models of `SegmentHeap`, `PoolAllocator` and `LargeAllocator` keep plain lists of regions. The
  functions of this module are the same bodies written with the owners, and `releaseSegment_owned`,
  `addSegment_owned`, `refill_owned`, `emplace_owned` and `erase_owned` say that the plain lists lose
  nothing: region for region, the OS sees the same calls.
-/
import MAlloc.Model.LargeAllocator
import MAlloc.Model.Pools
import MAlloc.Model.SegmentHeap

namespace MAlloc

open Lib

/-- `region_`. -/
structure MappedRegion where
  region : Span := ⟨0, 0⟩
  deriving DecidableEq, Repr

namespace MappedRegion

def data (r : MappedRegion) : Nat := r.region.data

/-- `!region_.empty()`. -/
def valid (r : MappedRegion) : Bool := decide (r.region.size ≠ 0)

/-- `MappedRegion(size)`; `SystemMemory::map` answers a failure with the empty span. -/
def make (w : World) (size : Nat) : MappedRegion × World :=
  let r := SystemMemory.map w size
  (⟨r.1.getD ⟨0, 0⟩⟩, r.2)

/-- What `release` returns, and the owner after it. -/
def release (r : MappedRegion) : Span × MappedRegion := (r.region, {})

/-- `reset`, which is also the destructor. -/
def reset (w : World) (r : MappedRegion) : World × MappedRegion :=
  if r.valid then (SystemMemory.unmap w r.region, {}) else (w, r)

/-- The destructor. -/
def destroy (w : World) (r : MappedRegion) : World := (reset w r).1

/-- `MappedRegion(MappedRegion&& other)`: the new owner, and `other` after it. -/
def moveConstruct (other : MappedRegion) : MappedRegion × MappedRegion :=
  (⟨other.release.1⟩, other.release.2)

/-- `*this = std::move(other)` for two different owners: the world, `*this` and `other` after it. -/
def moveAssign (w : World) (self other : MappedRegion) : World × MappedRegion × MappedRegion :=
  ((reset w self).1, ⟨other.release.1⟩, other.release.2)

/-! ## Containers -/

/-- The destructor of a container. -/
def destroyAll (w : World) (regions : List MappedRegion) : World := regions.foldl destroy w

/-- A vector moves its elements into new storage and destroys the old ones. -/
def relocate (w : World) (regions : List MappedRegion) : World × List MappedRegion :=
  (destroyAll w (regions.map fun r => (moveConstruct r).2),
    regions.map fun r => (moveConstruct r).1)

/-- `push_back(std::move(r))` into a vector that is full: the world, the vector and `r` after it. -/
def pushBack (w : World) (regions : List MappedRegion) (r : MappedRegion) :
    World × List MappedRegion × MappedRegion :=
  let v := relocate w regions
  (v.1, v.2 ++ [(moveConstruct r).1], (moveConstruct r).2)

/-- `self` stands in front of `rest` in a vector: each element takes over the region of the next,
    and the last is destroyed. -/
def shiftDown (w : World) (self : MappedRegion) : List MappedRegion → World × List MappedRegion
  | [] => (destroy w self, [])
  | next :: rest =>
    let a := moveAssign w self next
    let v := shiftDown a.1 a.2.2 rest
    (v.1, a.2.1 :: v.2)

/-- `erase(begin() + i)`. -/
def eraseAt (w : World) : List MappedRegion → Nat → World × List MappedRegion
  | [], _ => (w, [])
  | r :: rest, 0 => shiftDown w r rest
  | r :: rest, i + 1 =>
    let v := eraseAt w rest i
    (v.1, r :: v.2)

/-- The owners of a list of regions. -/
def owners (regions : List Span) : List MappedRegion := regions.map MappedRegion.mk

section Containers
variable {w : World} {r : MappedRegion} {regions : List MappedRegion}

@[simp] theorem destroy_empty (w : World) : destroy w {} = w := rfl

theorem destroy_owner {s : Span} (h : 0 < s.size) : destroy w ⟨s⟩ = SystemMemory.unmap w s := by
  unfold destroy reset valid
  rw [if_pos (decide_eq_true (show s.size ≠ 0 by omega))]

theorem moveConstruct_eq (r : MappedRegion) : moveConstruct r = (r, {}) := rfl

theorem destroyAll_moved (w : World) (regions : List MappedRegion) :
    destroyAll w (regions.map fun r => (moveConstruct r).2) = w := by
  induction regions with
  | nil => rfl
  | cons r rest ih => exact ih

/-- Growing a vector gives no region back. -/
theorem pushBack_eq (w : World) (regions : List MappedRegion) (r : MappedRegion) :
    pushBack w regions r = (w, regions ++ [r], {}) := by
  unfold pushBack relocate
  rw [destroyAll_moved]
  simp only [moveConstruct_eq, List.map_id']

/-- Only the region that was erased is given back: what comes after it moves down whole. -/
theorem shiftDown_eq (w : World) (r : MappedRegion) (rest : List MappedRegion) :
    shiftDown w r rest = (destroy w r, rest) := by
  induction rest generalizing w r with
  | nil => rfl
  | cons next rest ih =>
    unfold shiftDown
    dsimp only
    rw [ih]
    rfl

theorem eraseAt_eq {i : Nat} (h : regions[i]? = some r) :
    eraseAt w regions i = (destroy w r, regions.eraseIdx i) := by
  induction regions generalizing i with
  | nil => cases h
  | cons q rest ih =>
    cases i with
    | zero =>
      obtain rfl : q = r := by simpa using h
      exact shiftDown_eq w q rest
    | succ i =>
      unfold eraseAt
      rw [ih (by simpa using h)]
      rfl

end Containers

end MappedRegion

/-! ## The bodies with their owners -/

namespace Owned

open MappedRegion SegmentHeap PoolAllocator

/-- `SegmentHeap::addSegment`; the local `segment` is destroyed on both ways out. -/
def addSegment (w : World) (bins : Nat → Nat) (segments : List MappedRegion) :
    Bool × World × (Nat → Nat) × List MappedRegion :=
  let r := make w kSegmentSize
  let segment := r.1
  if segment.valid = false then (false, destroy r.2 segment, bins, segments)
  else
    let q := insertFree (initSegment r.2.mem segment.data segment.region.size) bins segment.data
    let v := pushBack { r.2 with mem := q.1 } segments segment
    (true, destroy v.1 v.2.2, q.2, v.2.1)

/-- `SegmentHeap::releaseSegment`. -/
def releaseSegment (w : World) (bins : Nat → Nat) (segments : List MappedRegion) (block : Nat) :
    World × (Nat → Nat) × List MappedRegion :=
  let keep : World × (Nat → Nat) × List MappedRegion :=
    let r := insertFree w.mem bins block
    ({ w with mem := r.1 }, r.2, segments)
  if segments.length ≤ 1 then keep
  else
    match segments.findIdx? fun r => decide (r.data = block) with
    | some i =>
      let v := eraseAt w segments i
      (v.1, bins, v.2)
    | none => keep

/-- `PoolAllocator::refill`: the result, the world, cursor and end of the new run, and `runs`. -/
def refill (w : World) (bumpCursor bumpEnd : Nat) (runs : List MappedRegion) :
    Bool × World × Nat × Nat × List MappedRegion :=
  let r := make w kRunSize
  let run := r.1
  if run.valid = false then (false, destroy r.2 run, bumpCursor, bumpEnd, runs)
  else
    let v := pushBack r.2 runs run
    (true, destroy v.1 v.2.2, run.data, run.data + run.region.size, v.2.1)

/-- `LargeAllocator::allocate`: `emplace` moves the region into a node, and destroys the node when
    the key is there. -/
def allocateLarge (w : World) (regions : List (Nat × MappedRegion)) (bytes : Nat) :
    Option Nat × World × List (Nat × MappedRegion) :=
  let r := make w ((bytes + LargeAllocator.kPayloadOffset) % 2 ^ 64)
  let region := r.1
  if region.valid = false then (none, destroy r.2 region, regions)
  else
    let payload := region.data + LargeAllocator.kPayloadOffset
    let node := moveConstruct region
    match regions.lookup payload with
    | none => (some payload, destroy r.2 node.2, (payload, node.1) :: regions)
    | some _ => (some payload, destroy (destroy r.2 node.1) node.2, regions)

/-- `LargeAllocator::deallocate`. -/
def deallocateLarge (w : World) (regions : List (Nat × MappedRegion)) (payload : Nat) :
    Bool × World × List (Nat × MappedRegion) :=
  match regions.lookup payload with
  | none => (false, w, regions)
  | some region => (true, destroy w region, regions.filter fun e => decide (e.1 ≠ payload))

/-- The nodes of a list of large regions. -/
def nodes (regions : LargeAllocator) : List (Nat × MappedRegion) :=
  regions.map fun e => (e.1, ⟨e.2⟩)

end Owned

section Owned
variable {w : World}

open MappedRegion SegmentHeap PoolAllocator SystemMemory

/-- What `MappedRegion(size)` holds. -/
theorem make_cases (w : World) (size : Nat) :
    (∃ w', map w size = (none, w') ∧ make w size = ({}, w')) ∨
    ∃ r w', map w size = (some r, w') ∧ 0 < r.size ∧ make w size = (⟨r⟩, w') := by
  unfold make
  generalize hm : map w size = q
  obtain ⟨o, w'⟩ := q
  rcases map_cases hm with ⟨rfl, -⟩ | ⟨r, rfl, -, hg, -⟩
  · exact Or.inl ⟨w', rfl, rfl⟩
  · exact Or.inr ⟨r, w', rfl, hg.2.2.1, rfl⟩

theorem valid_owner {s : Span} (h : 0 < s.size) : (⟨s⟩ : MappedRegion).valid = true :=
  decide_eq_true (show s.size ≠ 0 by omega)

theorem addSegment_owned (w : World) (h : SegmentHeap) :
    Owned.addSegment w h.bins (owners h.segments) =
      ((addSegment w h).1, (addSegment w h).2.1, (addSegment w h).2.2.bins,
        owners (addSegment w h).2.2.segments) := by
  unfold Owned.addSegment addSegment
  rcases make_cases w kSegmentSize with ⟨w', hm, hk⟩ | ⟨r, w', hm, hr, hk⟩
  · rw [hm, hk]
    rfl
  · rw [hm, hk]
    dsimp only
    rw [valid_owner hr, if_neg (by simp), pushBack_eq]
    simp [owners, MappedRegion.data]

theorem refill_owned (w : World) (shard : Shard) :
    Owned.refill w shard.bumpCursor shard.bumpEnd (owners shard.runs) =
      ((refill w shard).1, (refill w shard).2.1, (refill w shard).2.2.bumpCursor,
        (refill w shard).2.2.bumpEnd, owners (refill w shard).2.2.runs) := by
  unfold Owned.refill refill
  rcases make_cases w kRunSize with ⟨w', hm, hk⟩ | ⟨r, w', hm, hr, hk⟩
  · rw [hm, hk]
    rfl
  · rw [hm, hk]
    dsimp only
    rw [valid_owner hr, if_neg (by simp), pushBack_eq]
    simp [owners, MappedRegion.data]

/-- The loop of `releaseSegment` stops at the region `find?` returns. -/
theorem findIdx?_owners (l : List Span) (block : Nat) :
    (l.find? (fun s => decide (s.data = block)) = none ∧
      (owners l).findIdx? (fun r => decide (r.data = block)) = none) ∨
    ∃ i s, l.find? (fun s => decide (s.data = block)) = some s ∧
      (owners l).findIdx? (fun r => decide (r.data = block)) = some i ∧ l[i]? = some s ∧
      l.erase s = l.eraseIdx i := by
  induction l with
  | nil => exact Or.inl ⟨rfl, rfl⟩
  | cons q l ih =>
    have hcons : owners (q :: l) = ⟨q⟩ :: owners l := rfl
    rw [hcons, List.findIdx?_cons, List.find?_cons]
    by_cases hq : q.data = block
    · refine Or.inr ⟨0, q, ?_, ?_, rfl, ?_⟩
      · rw [decide_eq_true hq]
      · exact if_pos (decide_eq_true hq)
      · rw [List.erase_cons_head, List.eraseIdx_zero, List.tail_cons]
    · have hdec : decide ((⟨q⟩ : MappedRegion).data = block) = false := decide_eq_false hq
      rw [hdec, decide_eq_false hq, if_neg Bool.false_ne_true]
      dsimp only
      rcases ih with ⟨h1, h2⟩ | ⟨i, s, h1, h2, h3, h4⟩
      · exact Or.inl ⟨h1, by rw [h2]; rfl⟩
      · have hne : q ≠ s := by
          rintro rfl
          exact hq (by simpa using List.find?_some h1)
        refine Or.inr ⟨i + 1, s, h1, by rw [h2]; rfl, h3, ?_⟩
        rw [List.erase_cons_tail (by simpa using hne), h4, List.eraseIdx_cons_succ]

/-- **`vector::erase` in the middle**: the model, which erases the region from a list, is the code. -/
theorem releaseSegment_owned {h : SegmentHeap} (hpos : ∀ s ∈ h.segments, 0 < s.size) (block : Nat) :
    Owned.releaseSegment w h.bins (owners h.segments) block =
      ((releaseSegment w h block).1, (releaseSegment w h block).2.bins,
        owners (releaseSegment w h block).2.segments) := by
  have hlen : (owners h.segments).length = h.segments.length := List.length_map _
  unfold Owned.releaseSegment releaseSegment
  rw [hlen]
  by_cases h1 : h.segments.length ≤ 1
  · rw [if_pos h1, if_pos h1]
  · rw [if_neg h1, if_neg h1]
    rcases findIdx?_owners h.segments block with ⟨hf, hi⟩ | ⟨i, s, hf, hi, hs, he⟩
    · rw [hf, hi]
    · rw [hf, hi]
      dsimp only
      have hown : (owners h.segments)[i]? = some ⟨s⟩ := by
        unfold owners
        rw [List.getElem?_map, hs]
        rfl
      rw [eraseAt_eq hown, destroy_owner (hpos s (List.mem_of_getElem? hs)), he]
      unfold owners
      rw [List.eraseIdx_map]

theorem lookup_nodes (regions : LargeAllocator) (payload : Nat) :
    (Owned.nodes regions).lookup payload = (regions.lookup payload).map MappedRegion.mk := by
  induction regions with
  | nil => rfl
  | cons e regions ih =>
    unfold Owned.nodes at ih ⊢
    rw [List.map_cons, List.lookup_cons, List.lookup_cons]
    split
    · rfl
    · exact ih

theorem allocateLarge_owned (w : World) (regions : LargeAllocator) (bytes : Nat) :
    Owned.allocateLarge w (Owned.nodes regions) bytes =
      ((LargeAllocator.allocate w regions bytes).1, (LargeAllocator.allocate w regions bytes).2.1,
        Owned.nodes (LargeAllocator.allocate w regions bytes).2.2) := by
  unfold Owned.allocateLarge LargeAllocator.allocate
  generalize (bytes + LargeAllocator.kPayloadOffset) % 2 ^ 64 = n
  rcases make_cases w n with ⟨w', hm, hk⟩ | ⟨r, w', hm, hr, hk⟩
  · rw [hm, hk]
    rfl
  · rw [hm, hk]
    dsimp only
    rw [valid_owner hr, if_neg (by simp), lookup_nodes]
    unfold LargeAllocator.emplace MappedRegion.data
    cases hl : regions.lookup (r.data + LargeAllocator.kPayloadOffset) with
    | none =>
      dsimp only [Option.map]
      rfl
    | some q =>
      dsimp only [Option.map]
      rw [moveConstruct_eq, destroy_empty, destroy_owner hr]

theorem deallocateLarge_owned {regions : LargeAllocator} (hpos : ∀ e ∈ regions, 0 < e.2.size)
    (payload : Nat) :
    Owned.deallocateLarge w (Owned.nodes regions) payload =
      ((LargeAllocator.deallocate w regions payload).1,
        (LargeAllocator.deallocate w regions payload).2.1,
        Owned.nodes (LargeAllocator.deallocate w regions payload).2.2) := by
  unfold Owned.deallocateLarge LargeAllocator.deallocate
  rw [lookup_nodes]
  cases hl : regions.lookup payload with
  | none => rfl
  | some r =>
    have hmem : (payload, r) ∈ regions := by
      obtain ⟨l₁, l₂, rfl, -⟩ := List.lookup_eq_some_iff.mp hl
      simp
    dsimp only [Option.map]
    rw [destroy_owner (hpos _ hmem)]
    unfold Owned.nodes
    rw [List.filter_map]
    rfl

/-- A container that is destroyed gives back exactly its regions. -/
theorem destroyAll_ok {l rest : List Span} (hw : w.Ok) (hm : w.mapped.Perm (l ++ rest)) :
    (destroyAll w (owners l)).Ok ∧ (destroyAll w (owners l)).mapped.Perm rest ∧
      (destroyAll w (owners l)).granted = w.granted := by
  induction l generalizing w with
  | nil => exact ⟨hw, hm, rfl⟩
  | cons r l ih =>
    have hr : r ∈ w.mapped := hm.mem_iff.mpr (List.mem_append_left _ List.mem_cons_self)
    have hd : destroy w ⟨r⟩ = unmap w r := destroy_owner (hw.pos r hr).2
    have hm' : (unmap w r).mapped.Perm (l ++ rest) := by
      have := hm.erase r
      rwa [List.cons_append, List.erase_cons_head] at this
    have he : destroyAll w (owners (r :: l)) = destroyAll (unmap w r) (owners l) := by
      rw [← hd]
      rfl
    rw [he]
    exact ih (unmap_ok hw hr) hm'

end Owned

end MAlloc
