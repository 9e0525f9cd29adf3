/-
  The small tier: `FreeList.hpp`, `PoolAllocator.cpp` and `ThreadCache.cpp`.

  A shard keeps an intrusive free list (the link is the first eight bytes of a free
  block) and a bump region inside the last run it mapped. Each function here is the body of
  one critical section, or one thread-local part of `ThreadCache`; the calls of
  `ThreadCache` are put together from these parts, so that a system with several threads can
  interleave the same parts.
-/
import MAlloc.Model.BlockHeader
import MAlloc.Model.SystemMemory

namespace MAlloc

open Lib

/-! ## FreeList -/

/-- `head_` and `size_`; `size_` is a `std::size_t`. -/
structure FreeList where
  head : Nat := 0
  size : Nat := 0
  deriving DecidableEq, Repr

namespace FreeList

/-- The link of a node. -/
def next (m : Mem) (node : Nat) : Nat := readLE m node 8

def push (m : Mem) (l : FreeList) (block : Nat) : Mem × FreeList :=
  (writeLE m block 8 l.head, { head := block, size := (l.size + 1) % 2 ^ 64 })

def pop (m : Mem) (l : FreeList) : Option Nat × FreeList :=
  if l.head = 0 then (none, l)
  else (some l.head, { head := next m l.head, size := (l.size + (2 ^ 64 - 1)) % 2 ^ 64 })

end FreeList

/-! ## PoolAllocator -/

structure Shard where
  freeList : FreeList := {}
  bumpCursor : Nat := 0
  bumpEnd : Nat := 0
  runs : List Span := []

/-- `shards_`, by class index. -/
abbrev PoolAllocator := Nat → Shard

namespace PoolAllocator

abbrev kRunSize : Nat := 64 * 1024

def blockStride (classIndex : Nat) : Nat :=
  alignUp ((kHeaderSize + SizeClassTable.classSize classIndex) % 2 ^ 64) kDefaultAlignment

def refill (w : World) (shard : Shard) : Bool × World × Shard :=
  match SystemMemory.map w kRunSize with
  | (none, w) => (false, w, shard)
  | (some run, w) =>
    (true, w, { shard with
      bumpCursor := run.data
      bumpEnd := run.data + run.size
      runs := shard.runs ++ [run] })

/-- The runs of all shards, in the order in which the destructor unmaps them: an array is destroyed from
    its end, a vector from its beginning. -/
def runsOf (pools : PoolAllocator) : List Span :=
  (List.range SizeClassTable.kClassCount).reverse.flatMap fun k => (pools k).runs

/-- The bump allocation that ends `takeBlock`. -/
def bump (shard : Shard) (stride : Nat) : Nat × Shard :=
  (shard.bumpCursor, { shard with bumpCursor := shard.bumpCursor + stride })

def takeBlock (w : World) (shard : Shard) (stride : Nat) : Option Nat × World × Shard :=
  match FreeList.pop w.mem shard.freeList with
  | (some block, freeList) => (some block, w, { shard with freeList := freeList })
  | (none, _) =>
    if shard.bumpCursor = 0 ∨ shard.bumpEnd - shard.bumpCursor < stride then
      match refill w shard with
      | (false, w, shard) => (none, w, shard)
      | (true, w, shard) => (some (bump shard stride).1, w, (bump shard stride).2)
    else (some (bump shard stride).1, w, (bump shard stride).2)

/-- The `while` loop of `allocateBatch` with `room` slots left; the blocks it stores, in
    order. -/
def takeBatch (stride : Nat) : (room : Nat) → World → Shard → List Nat × World × Shard
  | 0, w, shard => ([], w, shard)
  | room + 1, w, shard =>
    match takeBlock w shard stride with
    | (none, w, shard) => ([], w, shard)
    | (some block, w, shard) =>
      let rest := takeBatch stride room w shard
      (block :: rest.1, rest.2)

/-- The `for` loop of `freeBatch`. -/
def pushBatch : List Nat → Mem → FreeList → Mem × FreeList
  | [], m, l => (m, l)
  | block :: blocks, m, l =>
    pushBatch blocks (FreeList.push m l block).1 (FreeList.push m l block).2

def allocateBlock (w : World) (pools : PoolAllocator) (classIndex : Nat) :
    Option Nat × World × PoolAllocator :=
  let r := takeBlock w (pools classIndex) (blockStride classIndex)
  (r.1, r.2.1, Function.update pools classIndex r.2.2)

def freeBlock (w : World) (pools : PoolAllocator) (classIndex block : Nat) :
    World × PoolAllocator :=
  let shard := pools classIndex
  let r := FreeList.push w.mem shard.freeList block
  ({ w with mem := r.1 }, Function.update pools classIndex { shard with freeList := r.2 })

def allocateBatch (w : World) (pools : PoolAllocator) (classIndex room : Nat) :
    List Nat × World × PoolAllocator :=
  let r := takeBatch (blockStride classIndex) room w (pools classIndex)
  (r.1, r.2.1, Function.update pools classIndex r.2.2)

def freeBatch (w : World) (pools : PoolAllocator) (classIndex : Nat) (blocks : List Nat) :
    World × PoolAllocator :=
  let shard := pools classIndex
  let r := pushBatch blocks w.mem shard.freeList
  ({ w with mem := r.1 }, Function.update pools classIndex { shard with freeList := r.2 })

end PoolAllocator

/-! ## ThreadCache -/

abbrev kCapacity : Nat := 64
abbrev kBatchSize : Nat := 16

structure ClassCache where
  slots : Nat → Nat := fun _ => 0
  count : Nat := 0

namespace ClassCache

/-- The blocks in the slots `[0, n)`. -/
def below (cache : ClassCache) (n : Nat) : List Nat := (List.range n).map cache.slots

/-- The blocks in the slots `[from, from + n)`. -/
def window (cache : ClassCache) (start n : Nat) : List Nat :=
  (List.range n).map fun i => cache.slots (start + i)

/-- `allocateBatch` has stored `blocks` in the first slots. -/
def stored (cache : ClassCache) (blocks : List Nat) : ClassCache :=
  { cache with slots := fun i => if i < blocks.length then blocks.getD i 0 else cache.slots i }

/-- `--cache.count; return cache.slots[cache.count]`. -/
def take (cache : ClassCache) : Nat × ClassCache :=
  (cache.slots (cache.count - 1), { cache with count := cache.count - 1 })

/-- `cache.slots[cache.count] = block; ++cache.count`. -/
def put (cache : ClassCache) (block : Nat) : ClassCache :=
  { slots := Function.update cache.slots cache.count block, count := cache.count + 1 }

end ClassCache

/-- `caches_`, by class index. -/
abbrev ThreadCache := Nat → ClassCache

namespace ThreadCache

def empty : ThreadCache := fun _ => {}

def allocateBlock (cache : ThreadCache) (w : World) (pools : PoolAllocator) (classIndex : Nat) :
    Option Nat × ThreadCache × World × PoolAllocator :=
  if (cache classIndex).count = 0 then
    let r := PoolAllocator.allocateBatch w pools classIndex kBatchSize
    let filled : ClassCache :=
      { (cache classIndex).stored r.1 with count := r.1.length }
    if filled.count = 0 then
      (none, Function.update cache classIndex filled, r.2)
    else
      (some filled.take.1, Function.update cache classIndex filled.take.2, r.2)
  else
    (some (cache classIndex).take.1, Function.update cache classIndex (cache classIndex).take.2,
      w, pools)

def freeBlock (cache : ThreadCache) (w : World) (pools : PoolAllocator) (classIndex block : Nat) :
    ThreadCache × World × PoolAllocator :=
  if (cache classIndex).count = kCapacity then
    let keep := kCapacity - kBatchSize
    let r := PoolAllocator.freeBatch w pools classIndex ((cache classIndex).window keep kBatchSize)
    let kept : ClassCache := { cache classIndex with count := keep }
    (Function.update cache classIndex (kept.put block), r)
  else
    (Function.update cache classIndex ((cache classIndex).put block), w, pools)

/-- The loop of the destructor over the classes from `classIndex` on, its central state alive. -/
def flushFrom (cache : ThreadCache) : (classes classIndex : Nat) → World → PoolAllocator →
    World × PoolAllocator
  | 0, _, w, pools => (w, pools)
  | classes + 1, classIndex, w, pools =>
    let r := if 0 < (cache classIndex).count then
        PoolAllocator.freeBatch w pools classIndex
          ((cache classIndex).below (cache classIndex).count)
      else (w, pools)
    flushFrom cache classes (classIndex + 1) r.1 r.2

/-- `~ThreadCache`. -/
def flush (cache : ThreadCache) (w : World) (pools : PoolAllocator) : World × PoolAllocator :=
  flushFrom cache SizeClassTable.kClassCount 0 w pools

end ThreadCache

end MAlloc
