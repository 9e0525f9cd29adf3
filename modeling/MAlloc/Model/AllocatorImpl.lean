/-
  `AllocatorImpl.cpp`: the three tiers under one header, the shims, and the public calls.

  `Tiers` is what the tiers of one allocator keep, with the memory they live in and the thread
  caches. A call is made by a thread `t`. `std::abort` ends the process: `aborted` is set and the
  call goes no further. The error handler is the list of what it was told.
-/
import MAlloc.Model.DebugLayer
import MAlloc.Model.LargeAllocator
import MAlloc.Model.Pools
import MAlloc.Model.SegmentHeap
import MAlloc.Model.StatisticsCollector

namespace MAlloc

open Lib

/-- `ma::AllocatorConfig`, as far as the code reads it. -/
structure AllocatorConfig where
  enableGuardBytes : Bool := false
  enablePoisoning : Bool := false
  enableLeakTracking : Bool := false
  enableThreadCache : Bool := true
  abortOnError : Bool := false
  deriving DecidableEq, Repr

structure RawAllocation where
  user : Nat
  reserved : Nat
  deriving DecidableEq, Repr

/-- The header `rawAllocate` writes. -/
def rawHeader (size : Nat) (tier : Tier) : BlockHeader := ⟨size, tier.code, kStateAllocated, 0⟩

/-- The tiers of a `CentralState`, the memory, and the `tlsCaches` slot of each thread for it.
    `cacheFaults` says at which creations of a slot `std::bad_alloc` is thrown. -/
structure Tiers where
  world : World
  pools : PoolAllocator := fun _ => {}
  segments : SegmentHeap := {}
  large : LargeAllocator := []
  tlsCaches : Nat → Option ThreadCache := fun _ => none
  cacheFaults : List Bool := []

namespace Tiers

open SizeClassTable

abbrev mem (T : Tiers) : Mem := T.world.mem

def setMem (T : Tiers) (m : Mem) : Tiers := { T with world := { T.world with mem := m } }

@[simp] theorem setMem_mem (T : Tiers) (m : Mem) : (T.setMem m).mem = m := rfl

@[simp] theorem setMem_setMem (T : Tiers) (m m' : Mem) : (T.setMem m).setMem m' = T.setMem m' := rfl

/-- `threadCache()`: the slot of the thread, made when it is first needed. -/
def threadCache (T : Tiers) (enabled : Bool) (t : Nat) : Option ThreadCache × Tiers :=
  if enabled then
    match T.tlsCaches t with
    | some cache => (some cache, T)
    | none =>
      if T.cacheFaults.headD false then (none, { T with cacheFaults := T.cacheFaults.tail })
      else (some ThreadCache.empty, { T with
        tlsCaches := Function.update T.tlsCaches t (some ThreadCache.empty)
        cacheFaults := T.cacheFaults.tail })
  else (none, T)

/-- The block that serves a small request: from the cache, or from the pools. -/
def takeSmall (T : Tiers) (enabled : Bool) (t classIndex : Nat) : Option Nat × Tiers :=
  match T.threadCache enabled t with
  | (some cache, T) =>
    let r := ThreadCache.allocateBlock cache T.world T.pools classIndex
    (r.1, { T with
      world := r.2.2.1, pools := r.2.2.2
      tlsCaches := Function.update T.tlsCaches t (some r.2.1) })
  | (none, T) =>
    let r := PoolAllocator.allocateBlock T.world T.pools classIndex
    (r.1, { T with world := r.2.1, pools := r.2.2 })

/-- A small block goes back: to the cache, or to the pools. -/
def giveSmall (T : Tiers) (enabled : Bool) (t classIndex block : Nat) : Tiers :=
  match T.threadCache enabled t with
  | (some cache, T) =>
    let r := ThreadCache.freeBlock cache T.world T.pools classIndex block
    { T with world := r.2.1, pools := r.2.2, tlsCaches := Function.update T.tlsCaches t (some r.1) }
  | (none, T) =>
    let r := PoolAllocator.freeBlock T.world T.pools classIndex block
    { T with world := r.1, pools := r.2 }

/-- The end of each branch of `rawAllocate`: null is out of memory; otherwise the header is
    written, and the pointer behind it returned with the tier's `reserved`. -/
def finishRaw (T : Tiers) (size : Nat) (tier : Tier) (reserved : Tiers → Nat → Nat) :
    Option Nat → Except Error RawAllocation × Tiers
  | none => (.error .OutOfMemory, T)
  | some payload =>
    let user := userPointerOf payload
    let T := T.setMem (BlockHeader.store T.mem (headerOf user) (rawHeader size tier))
    (.ok ⟨user, reserved T payload⟩, T)

/-- `segments.payloadCapacity(payload) - kHeaderSize`. -/
def reservedMedium (T : Tiers) (payload : Nat) : Nat :=
  (SegmentHeap.payloadCapacity T.mem payload + (2 ^ 64 - kHeaderSize)) % 2 ^ 64

/-- `large.payloadCapacity(payload) - kHeaderSize`. -/
def reservedLarge (T : Tiers) (payload : Nat) : Nat :=
  (LargeAllocator.payloadCapacity T.large payload + (2 ^ 64 - kHeaderSize)) % 2 ^ 64

def rawAllocateSmall (T : Tiers) (enabled : Bool) (t size classIndex : Nat) :
    Except Error RawAllocation × Tiers :=
  let r := T.takeSmall enabled t classIndex
  r.2.finishRaw size .Small (fun _ _ => classSize classIndex) r.1

def rawAllocateMedium (T : Tiers) (size : Nat) : Except Error RawAllocation × Tiers :=
  let r := SegmentHeap.allocate T.world T.segments ((size + kHeaderSize) % 2 ^ 64)
  Tiers.finishRaw { T with world := r.2.1, segments := r.2.2 } size .Medium reservedMedium r.1

def rawAllocateLarge (T : Tiers) (size : Nat) : Except Error RawAllocation × Tiers :=
  let r := LargeAllocator.allocate T.world T.large ((size + kHeaderSize) % 2 ^ 64)
  Tiers.finishRaw { T with world := r.2.1, large := r.2.2 } size .Large reservedLarge r.1

def rawAllocate (T : Tiers) (enabled : Bool) (t size : Nat) : Except Error RawAllocation × Tiers :=
  if size ≤ kSmallMax then T.rawAllocateSmall enabled t size (classIndex size)
  else if size ≤ kMediumMax then T.rawAllocateMedium size
  else T.rawAllocateLarge size

/-- The small branch of `rawDeallocate`, the class already computed. -/
def rawDeallocateSmall (T : Tiers) (enabled : Bool) (t header classIndex : Nat) :
    Except Error Nat × Tiers :=
  let T := T.setMem (BlockHeader.setState T.mem header kStateFreed)
  (.ok (classSize classIndex), T.giveSmall enabled t classIndex header)

def rawDeallocateMedium (T : Tiers) (header : Nat) : Except Error Nat × Tiers :=
  let T := T.setMem (BlockHeader.setState T.mem header kStateFreed)
  let r := SegmentHeap.deallocate T.world T.segments header
  (.ok (T.reservedMedium header), { T with world := r.1, segments := r.2 })

def rawDeallocateLarge (T : Tiers) (header : Nat) : Except Error Nat × Tiers :=
  let r := LargeAllocator.deallocate T.world T.large header
  if r.1 then (.ok (T.reservedLarge header), { T with world := r.2.1, large := r.2.2 })
  else (.error .InvalidPointer, { T with world := r.2.1, large := r.2.2 })

/-- `rawDeallocate`, with the header in front of `raw` read. -/
def rawDeallocateBy (T : Tiers) (enabled : Bool) (t raw : Nat) (header : BlockHeader) :
    Except Error Nat × Tiers :=
  match header.tierValue with
  | some .Small =>
    T.rawDeallocateSmall enabled t (headerOf raw) (classIndex header.payloadSize)
  | some .Medium => T.rawDeallocateMedium (headerOf raw)
  | some .Large => T.rawDeallocateLarge (headerOf raw)
  | _ => (.error .InvalidPointer, T)

def rawDeallocate (T : Tiers) (enabled : Bool) (t raw : Nat) : Except Error Nat × Tiers :=
  T.rawDeallocateBy enabled t raw (BlockHeader.load T.mem (headerOf raw))

/-- Thread `t` exits: its cache is flushed and gone. -/
def exit (T : Tiers) (t : Nat) : Tiers :=
  match T.tlsCaches t with
  | none => T
  | some cache =>
    let r := ThreadCache.flush cache T.world T.pools
    { T with world := r.1, pools := r.2, tlsCaches := Function.update T.tlsCaches t none }

end Tiers

/-! ## The public calls -/

structure AllocatorImpl where
  config : AllocatorConfig
  tiers : Tiers
  stats : StatisticsCollector := {}
  debug : DebugLayer := {}
  reports : List (Error × Nat) := []
  aborted : Bool := false

namespace AllocatorImpl

abbrev kMaxRequest : Nat := 2 ^ 46
abbrev kMaxAlignment : Nat := 2 ^ 30

def report (s : AllocatorImpl) (error : Error) (ptr : Nat) : AllocatorImpl :=
  { s with reports := s.reports ++ [(error, ptr)], aborted := s.aborted || s.config.abortOnError }

/-- `report(error, ptr); return std::unexpected(error);`. -/
def fail {α : Type} (s : AllocatorImpl) (error : Error) (ptr : Nat) :
    Except Error α × AllocatorImpl := (.error error, s.report error ptr)

def poisonNew (cfg : AllocatorConfig) (T : Tiers) (user size : Nat) : Tiers :=
  if cfg.enablePoisoning then T.setMem (DebugLayer.poisonOnAllocate T.mem user size) else T

/-- The part of `allocate` that gets the memory: tier, guards, poison. -/
def acquire (cfg : AllocatorConfig) (T : Tiers) (t size : Nat) :
    Except Error RawAllocation × Tiers :=
  if cfg.enableGuardBytes then
    match T.rawAllocate cfg.enableThreadCache t (DebugLayer.guardedSize size) with
    | (.error e, T) => (.error e, T)
    | (.ok raw, T) =>
      let g := DebugLayer.applyGuards T.mem raw.user size
      (.ok ⟨g.1, raw.reserved⟩, poisonNew cfg (T.setMem g.2) g.1 size)
  else
    match T.rawAllocate cfg.enableThreadCache t size with
    | (.error e, T) => (.error e, T)
    | (.ok raw, T) => (.ok raw, poisonNew cfg T raw.user size)

/-- The user address `alignedAllocate` computes from the raw one. -/
def alignedAddressOf (address alignment : Nat) : Nat :=
  let alignedAddress := alignUp address alignment
  if alignedAddress = address then (alignedAddress + alignment) % 2 ^ 64 else alignedAddress

def alignedShim (size offset : Nat) : BlockHeader :=
  ⟨size, Tier.AlignedShim.code, kStateAllocated, offset % 2 ^ 32⟩

/-- The part of `alignedAllocate` that gets the memory: tier, shim, poison. -/
def acquireAligned (cfg : AllocatorConfig) (T : Tiers) (t alignment size : Nat) :
    Except Error RawAllocation × Tiers :=
  match T.rawAllocate cfg.enableThreadCache t ((size + alignment) % 2 ^ 64) with
  | (.error e, T) => (.error e, T)
  | (.ok raw, T) =>
    let user := alignedAddressOf raw.user alignment
    let shim := alignedShim size (ptrSub user raw.user)
    let T := T.setMem (BlockHeader.store T.mem (headerOf user) shim)
    (.ok ⟨user, raw.reserved⟩, poisonNew cfg T user size)

/-- `stats.recordAllocation`, and `track` when leaks are tracked. -/
def enroll (s : AllocatorImpl) (user size reserved : Nat) : AllocatorImpl :=
  let s := { s with stats := s.stats.recordAllocation size reserved }
  if s.config.enableLeakTracking then { s with debug := s.debug.track user size } else s

/-- What both allocation calls do with the memory they asked for. -/
def finish (s : AllocatorImpl) (size : Nat) :
    Except Error RawAllocation × Tiers → Except Error Nat × AllocatorImpl
  | (.error e, T) => { s with tiers := T }.fail e 0
  | (.ok raw, T) => (.ok raw.user, { s with tiers := T }.enroll raw.user size raw.reserved)

/-- `size == 0` counts as 1. -/
def atLeastOne (size : Nat) : Nat := if size = 0 then 1 else size

def allocate (s : AllocatorImpl) (t size : Nat) : Except Error Nat × AllocatorImpl :=
  let size := atLeastOne size
  if size > kMaxRequest then s.fail .SizeOverflow 0
  else s.finish size (acquire s.config s.tiers t size)

def alignedAllocate (s : AllocatorImpl) (t alignment size : Nat) : Except Error Nat × AllocatorImpl :=
  if isPowerOfTwo alignment = false ∨ alignment > kMaxAlignment then s.fail .InvalidAlignment 0
  else if alignment ≤ kDefaultAlignment then s.allocate t size
  else
    let size := atLeastOne size
    if size > kMaxRequest then s.fail .SizeOverflow 0
    else s.finish size (acquireAligned s.config s.tiers t alignment size)

/-- `header->state = kStateFreed; rawDeallocate(ptr - header->offset)` of the two shims. -/
def releaseShim (cfg : AllocatorConfig) (T : Tiers) (t ptr : Nat) : Except Error Nat × Tiers :=
  let T := T.setMem (BlockHeader.setState T.mem (headerOf ptr) kStateFreed)
  T.rawDeallocate cfg.enableThreadCache t
    (ptrSub ptr (BlockHeader.load T.mem (headerOf ptr)).offset)

def poisonOld (cfg : AllocatorConfig) (T : Tiers) (ptr requested : Nat) : Tiers :=
  if cfg.enablePoisoning then T.setMem (DebugLayer.poisonOnFree T.mem ptr requested) else T

/-- The `switch` of `deallocate` without the guard check. -/
def release (cfg : AllocatorConfig) (T : Tiers) (t ptr : Nat) (header : BlockHeader) :
    Except Error Nat × Tiers :=
  let T := poisonOld cfg T ptr header.payloadSize
  match header.tierValue with
  | some .DebugShim => releaseShim cfg T t ptr
  | some .AlignedShim => releaseShim cfg T t ptr
  | _ => T.rawDeallocate cfg.enableThreadCache t ptr

/-- The guard check of a debug shim fails. -/
def corrupt (cfg : AllocatorConfig) (m : Mem) (ptr : Nat) (header : BlockHeader) : Bool :=
  header.tierValue = some .DebugShim && cfg.enableGuardBytes &&
    !DebugLayer.verifyGuards m ptr header.payloadSize

/-- `stats.recordFree`, and `untrack` when leaks are tracked. -/
def discharge (s : AllocatorImpl) (ptr requested reserved : Nat) : AllocatorImpl :=
  let s := { s with stats := s.stats.recordFree requested reserved }
  if s.config.enableLeakTracking then { s with debug := s.debug.untrack ptr } else s

/-- The second half of `deallocate`: the header is that of an allocated block. -/
def giveBack (s : AllocatorImpl) (t ptr : Nat) (header : BlockHeader) :
    Except Error Unit × AllocatorImpl :=
  let bad := corrupt s.config s.tiers.mem ptr header
  let s := if bad then s.report .HeapCorruption ptr else s
  if bad && s.config.abortOnError then (.error .HeapCorruption, s)
  else
    match release s.config s.tiers t ptr header with
    | (.error e, T) => { s with tiers := T }.fail e ptr
    | (.ok reserved, T) =>
      (.ok (), { s with tiers := T }.discharge ptr header.payloadSize reserved)

/-- What `deallocate` does once the registry has let the pointer pass and the header is read. -/
def deallocateBy (s : AllocatorImpl) (t ptr : Nat) (header : BlockHeader) :
    Except Error Unit × AllocatorImpl :=
  if header.hasValidTier = false ∨ (header.state ≠ kStateAllocated ∧ header.state ≠ kStateFreed) then
    s.fail .InvalidPointer ptr
  else if header.state = kStateFreed then s.fail .DoubleFree ptr
  else s.giveBack t ptr header

def deallocate (s : AllocatorImpl) (t ptr : Nat) : Except Error Unit × AllocatorImpl :=
  if ptr = 0 then (.ok (), s)
  else if s.config.enableLeakTracking && !s.debug.isTracked ptr then
    s.fail (if s.debug.wasFreed ptr then .DoubleFree else .InvalidPointer) ptr
  else s.deallocateBy t ptr (BlockHeader.load s.tiers.mem (headerOf ptr))

/-- The size a header in front of a user pointer says. -/
def sizeIn (header : BlockHeader) : Nat :=
  if header.hasValidTier = false ∨ header.state ≠ kStateAllocated then 0 else header.payloadSize

def allocationSize (s : AllocatorImpl) (ptr : Nat) : Nat :=
  if ptr = 0 then 0
  else if s.config.enableLeakTracking && !s.debug.isTracked ptr then 0
  else sizeIn (BlockHeader.load s.tiers.mem (headerOf ptr))

/-- `std::memcpy(dst, src, bytes)`. -/
def copied (s : AllocatorImpl) (dst src bytes : Nat) : AllocatorImpl :=
  { s with tiers := s.tiers.setMem (copy s.tiers.mem dst src bytes) }

/-- The end of `reallocate`, with the fresh block: copy, free the old block. -/
def moveInto (s : AllocatorImpl) (t ptr fresh bytes : Nat) : Except Error (Option Nat) × AllocatorImpl :=
  match (s.copied fresh ptr bytes).deallocate t ptr with
  | (.error e, s) => (.error e, s)
  | (.ok (), s) => (.ok (some fresh), s)

/-- `reallocate`; the null pointer it returns on success for `newSize == 0` is `none`. -/
def reallocate (s : AllocatorImpl) (t ptr newSize : Nat) :
    Except Error (Option Nat) × AllocatorImpl :=
  if ptr = 0 then
    match s.allocate t newSize with
    | (.error e, s) => (.error e, s)
    | (.ok user, s) => (.ok (some user), s)
  else if newSize = 0 then
    match s.deallocate t ptr with
    | (.error e, s) => (.error e, s)
    | (.ok (), s) => (.ok none, s)
  else
    let oldSize := s.allocationSize ptr
    if oldSize = 0 then s.fail .InvalidPointer ptr
    else
      match s.allocate t newSize with
      | (.error e, s) => (.error e, s)
      | (.ok fresh, s) => s.moveInto t ptr fresh (min oldSize newSize)

def liveAllocationCount (s : AllocatorImpl) : Nat := s.debug.liveCount

end AllocatorImpl

end MAlloc
