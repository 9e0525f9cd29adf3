/-
  The medium tier: `SegmentHeap.cpp`, a boundary-tag heap whose tags and free-list nodes
  live in the segments themselves.

  A block at `a` has its tag `sizeAndFlags` at `a` and `prevSize` at `a + 8`; a free block
  has a `FreeNode` (`prev`, `next`) at `a + 32`. `bins` holds the head node of each of the
  18 lists, `segments` the mapped regions.

  The search loops of `findFit` follow `next` links in memory. `binNodes` collects the nodes
  one bin visits; its `fuel` is the number of smallest blocks the segments could hold, which
  no list of a reachable heap exceeds.
-/
import MAlloc.Model.BlockHeader
import MAlloc.Model.SystemMemory

namespace MAlloc

open Lib

/-- `bins_` and `segments_`. -/
structure SegmentHeap where
  bins : Nat → Nat := fun _ => 0
  segments : List Span := []

/-! ## MediumBlock -/

namespace MediumBlock

abbrev kFreeFlag : Nat := 1
abbrev kFirstFlag : Nat := 2
abbrev kLastFlag : Nat := 4
abbrev kFlagMask : Nat := 15

def sizeAndFlags (m : Mem) (block : Nat) : Nat := readLE m block 8

def prevSize (m : Mem) (block : Nat) : Nat := readLE m (block + 8) 8

def size (m : Mem) (block : Nat) : Nat := sizeAndFlags m block &&& not64 kFlagMask

def isFree (m : Mem) (block : Nat) : Bool := decide (sizeAndFlags m block &&& kFreeFlag ≠ 0)

def isFirst (m : Mem) (block : Nat) : Bool := decide (sizeAndFlags m block &&& kFirstFlag ≠ 0)

def isLast (m : Mem) (block : Nat) : Bool := decide (sizeAndFlags m block &&& kLastFlag ≠ 0)

def setSizeAndFlags (m : Mem) (block v : Nat) : Mem := writeLE m block 8 v

def setPrevSize (m : Mem) (block v : Nat) : Mem := writeLE m (block + 8) 8 v

def setSize (m : Mem) (block size : Nat) : Mem :=
  setSizeAndFlags m block (sizeAndFlags m block &&& kFlagMask ||| size)

def setFlag (m : Mem) (block flag : Nat) (value : Bool) : Mem :=
  setSizeAndFlags m block
    (if value then sizeAndFlags m block ||| flag else sizeAndFlags m block &&& not64 flag)

end MediumBlock

/-! ## FreeNode -/

namespace FreeNode

def prev (m : Mem) (node : Nat) : Nat := readLE m node 8

def next (m : Mem) (node : Nat) : Nat := readLE m (node + 8) 8

def setPrev (m : Mem) (node v : Nat) : Mem := writeLE m node 8 v

def setNext (m : Mem) (node v : Nat) : Mem := writeLE m (node + 8) 8 v

end FreeNode

namespace SegmentHeap

open MediumBlock

abbrev kSegmentSize : Nat := 4 * 1024 * 1024
abbrev kBlockHeaderSize : Nat := 16
abbrev kNodeOffset : Nat := 32
abbrev kMinBlockSize : Nat := 48
abbrev kBinCount : Nat := 18

/-- `std::bit_width(size)` is `Nat.size`. -/
def binIndex (size : Nat) : Nat :=
  min (if size.size > 6 then size.size - 6 else 0) (kBinCount - 1)

def blockOf (payload : Nat) : Nat := ptrSub payload kBlockHeaderSize

def payloadOf (block : Nat) : Nat := block + kBlockHeaderSize

def nodeOf (block : Nat) : Nat := block + kNodeOffset

def blockOfNode (node : Nat) : Nat := ptrSub node kNodeOffset

def nextBlock (m : Mem) (block : Nat) : Nat := block + size m block

def prevBlock (m : Mem) (block : Nat) : Nat := ptrSub block (prevSize m block)

def insertFree (m : Mem) (bins : Nat → Nat) (block : Nat) : Mem × (Nat → Nat) :=
  let index := binIndex (size m block)
  let node := nodeOf block
  let m := FreeNode.setNext (FreeNode.setPrev m node 0) node (bins index)
  let m := if FreeNode.next m node ≠ 0 then FreeNode.setPrev m (FreeNode.next m node) node else m
  (setFlag m block kFreeFlag true, Function.update bins index node)

def removeFree (m : Mem) (bins : Nat → Nat) (block : Nat) : Mem × (Nat → Nat) :=
  let node := nodeOf block
  let r : Mem × (Nat → Nat) :=
    if FreeNode.prev m node ≠ 0 then
      (FreeNode.setNext m (FreeNode.prev m node) (FreeNode.next m node), bins)
    else (m, Function.update bins (binIndex (size m block)) (FreeNode.next m node))
  let m := r.1
  let m := if FreeNode.next m node ≠ 0 then
      FreeNode.setPrev m (FreeNode.next m node) (FreeNode.prev m node)
    else m
  (setFlag m block kFreeFlag false, r.2)

/-- The nodes a walk along `next` from `node` visits. -/
def binNodes (m : Mem) : (fuel node : Nat) → List Nat
  | 0, _ => []
  | fuel + 1, node => if node = 0 then [] else node :: binNodes m fuel (FreeNode.next m node)

/-- How many smallest blocks the segments could hold. -/
def fuel (h : SegmentHeap) : Nat := (h.segments.map Span.size).sum / kMinBlockSize

/-- The two loops of the source: bins upwards from `binIndex(totalSize)`, each from its head,
    first fit. -/
def findFit (m : Mem) (h : SegmentHeap) (totalSize : Nat) : Option Nat :=
  (List.range' (binIndex totalSize) (kBinCount - binIndex totalSize)).findSome? fun index =>
    (((binNodes m h.fuel (h.bins index)).map blockOfNode).find? fun block =>
      decide (totalSize ≤ size m block))

/-- The writes of `addSegment` before `insertFree`. -/
def initSegment (m : Mem) (block bytes : Nat) : Mem :=
  let m := setSizeAndFlags m block 0
  let m := setSize m block bytes
  let m := setFlag m block kFirstFlag true
  let m := setFlag m block kLastFlag true
  setPrevSize m block 0

def addSegment (w : World) (h : SegmentHeap) : Bool × World × SegmentHeap :=
  match SystemMemory.map w kSegmentSize with
  | (none, w) => (false, w, h)
  | (some segment, w) =>
    let r := insertFree (initSegment w.mem segment.data segment.size) h.bins segment.data
    (true, { w with mem := r.1 }, { bins := r.2, segments := h.segments ++ [segment] })

def splitBlock (m : Mem) (bins : Nat → Nat) (block totalSize : Nat) : Mem × (Nat → Nat) :=
  let remainder := size m block - totalSize
  if remainder < kMinBlockSize then (m, bins)
  else
    let rest := block + totalSize
    let m := setSizeAndFlags m rest 0
    let m := setSize m rest remainder
    let m := setFlag m rest kLastFlag (isLast m block)
    let m := setPrevSize m rest totalSize
    let m := setSize m block totalSize
    let m := setFlag m block kLastFlag false
    let m := if isLast m rest = false then setPrevSize m (nextBlock m rest) remainder else m
    insertFree m bins rest

/-- `releaseSegment`; erasing a region from the vector unmaps it. -/
def releaseSegment (w : World) (h : SegmentHeap) (block : Nat) : World × SegmentHeap :=
  let keep : World × SegmentHeap :=
    let r := insertFree w.mem h.bins block
    ({ w with mem := r.1 }, { h with bins := r.2 })
  if h.segments.length ≤ 1 then keep
  else
    match h.segments.find? fun s => decide (s.data = block) with
    | some s => (SystemMemory.unmap w s, { h with segments := h.segments.erase s })
    | none => keep

/-- The first two lines of `allocate`: the size of the block that serves a request, its tag
    included. -/
def totalFor (bytes : Nat) : Nat :=
  max ((alignUp bytes kDefaultAlignment + kBlockHeaderSize) % 2 ^ 64) kMinBlockSize

/-- The last three lines of `allocate`. -/
def serve (w : World) (h : SegmentHeap) (block total : Nat) : Option Nat × World × SegmentHeap :=
  let r := removeFree w.mem h.bins block
  let r := splitBlock r.1 r.2 block total
  (some (payloadOf block), { w with mem := r.1 }, { h with bins := r.2 })

/-- The second search of `allocate`, after a segment was added. -/
def retry (w : World) (h : SegmentHeap) (total : Nat) : Option Nat × World × SegmentHeap :=
  match findFit w.mem h total with
  | some block => serve w h block total
  | none => (none, w, h)

def allocate (w : World) (h : SegmentHeap) (bytes : Nat) : Option Nat × World × SegmentHeap :=
  let total := totalFor bytes
  if total > kSegmentSize then (none, w, h)
  else
    match findFit w.mem h total with
    | some block => serve w h block total
    | none =>
      let r := addSegment w h
      if r.1 then retry r.2.1 r.2.2 total else (none, r.2)

/-- The first branch of `deallocate`: absorb a free right neighbour. -/
def mergeNext (m : Mem) (bins : Nat → Nat) (block : Nat) : Mem × (Nat → Nat) :=
  if isLast m block then (m, bins)
  else
    let next := nextBlock m block
    if isFree m next then
      let r := removeFree m bins next
      let m := setSize r.1 block (size r.1 block + size r.1 next)
      (setFlag m block kLastFlag (isLast m next), r.2)
    else (m, bins)

/-- The second branch: be absorbed by a free left neighbour; the block that remains. -/
def mergePrev (m : Mem) (bins : Nat → Nat) (block : Nat) : Nat × Mem × (Nat → Nat) :=
  if isFirst m block then (block, m, bins)
  else
    let prev := prevBlock m block
    if isFree m prev then
      let r := removeFree m bins prev
      let m := setSize r.1 prev (size r.1 prev + size r.1 block)
      (prev, setFlag m prev kLastFlag (isLast m block), r.2)
    else (block, m, bins)

def deallocate (w : World) (h : SegmentHeap) (payload : Nat) : World × SegmentHeap :=
  let r := mergeNext w.mem h.bins (blockOf payload)
  let q := mergePrev r.1 r.2 (blockOf payload)
  let block := q.1
  let m := q.2.1
  let m := if isLast m block = false then setPrevSize m (nextBlock m block) (size m block) else m
  let w := { w with mem := m }
  let h := { h with bins := q.2.2 }
  if isFirst m block && isLast m block then releaseSegment w h block
  else
    let r := insertFree m h.bins block
    ({ w with mem := r.1 }, { h with bins := r.2 })

def payloadCapacity (m : Mem) (payload : Nat) : Nat :=
  (size m (ptrSub payload kBlockHeaderSize) + (2 ^ 64 - kBlockHeaderSize)) % 2 ^ 64

end SegmentHeap

end MAlloc
