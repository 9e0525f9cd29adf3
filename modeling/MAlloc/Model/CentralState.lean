/-
  Several allocators in one process: `CentralState.hpp`, and the `tlsCaches` of `AllocatorImpl.cpp`.

  A `CentralState` stands at an address and has a control block, here an `id` that is never given
  twice. A thread keeps one `ThreadCache` object for each address at which it has met a
  `CentralState`; the object's `weak_ptr` names the control block. Where a `CentralState` was
  destroyed, a new one may stand.

  Only the small tier is here: nothing else goes through the caches.
-/
import MAlloc.Model.AllocatorImpl
import MAlloc.Model.MappedRegion

namespace MAlloc

open Lib SizeClassTable

structure CentralState where
  address : Nat
  id : Nat
  enableThreadCache : Bool
  pools : PoolAllocator := fun _ => {}

/-- A `ThreadCache` object: `central_` and `caches_`. -/
structure CacheObject where
  central : Nat
  caches : ThreadCache := ThreadCache.empty

/-- `centrals` are the ones alive, `created` counts the control blocks made. The entries of
    `tlsCaches t` are thread `t`'s map; `cacheFaults` says at which creations of an object
    `std::bad_alloc` is thrown. -/
structure Process where
  world : World
  centrals : List CentralState := []
  created : Nat := 0
  tlsCaches : Nat → List (Nat × CacheObject) := fun _ => []
  cacheFaults : List Bool := []

namespace Process

abbrev mem (P : Process) : Mem := P.world.mem

def setMem (P : Process) (m : Mem) : Process := { P with world := { P.world with mem := m } }

/-- `central_.lock()`; null is `none`. -/
def lock (P : Process) (id : Nat) : Option CentralState :=
  P.centrals.find? fun c => decide (c.id = id)

def expired (P : Process) (o : CacheObject) : Bool := (P.lock o.central).isNone

/-- The pools of one `CentralState`, and memory, after a call of them. -/
def setPools (P : Process) (id : Nat) (r : World × PoolAllocator) : Process :=
  { P with
    world := r.1
    centrals := P.centrals.map fun c => if c.id = id then { c with pools := r.2 } else c }

/-- `central_->pools`. -/
def poolsOf (P : Process) (id : Nat) : PoolAllocator :=
  match P.lock id with
  | some c => c.pools
  | none => fun _ => {}

/-- `tlsCaches[address]` of thread `t` is set. -/
def store (P : Process) (t address : Nat) (o : CacheObject) : Process :=
  let others := (P.tlsCaches t).filter fun e => decide (e.1 ≠ address)
  { P with tlsCaches := Function.update P.tlsCaches t ((address, o) :: others) }

/-- `~ThreadCache`. -/
def destroyCache (P : Process) (o : CacheObject) : Process :=
  match P.lock o.central with
  | none => P
  | some c => P.setPools c.id (ThreadCache.flush o.caches P.world c.pools)

/-- `slot = std::make_unique<ThreadCache>(central_)`: the old object goes when the new one is there. -/
def renew (P : Process) (t : Nat) (c : CentralState) : Option CacheObject × Process :=
  if P.cacheFaults.headD false then (none, { P with cacheFaults := P.cacheFaults.tail })
  else
    let fresh : CacheObject := ⟨c.id, ThreadCache.empty⟩
    let stored := { P with cacheFaults := P.cacheFaults.tail }.store t c.address fresh
    match (P.tlsCaches t).lookup c.address with
    | some old => (some fresh, stored.destroyCache old)
    | none => (some fresh, stored)

def threadCache (P : Process) (t : Nat) (c : CentralState) : Option CacheObject × Process :=
  if c.enableThreadCache then
    match (P.tlsCaches t).lookup c.address with
    | some o => if P.expired o then P.renew t c else (some o, P)
    | none => P.renew t c
  else (none, P)

/-- A block of class `k`, from the thread's cache or from the pools. -/
def takeSmall (P : Process) (t : Nat) (c : CentralState) (k : Nat) : Option Nat × Process :=
  match P.threadCache t c with
  | (some o, P) =>
    let r := ThreadCache.allocateBlock o.caches P.world (P.poolsOf c.id) k
    (r.1, (P.setPools c.id r.2.2).store t c.address { o with caches := r.2.1 })
  | (none, P) =>
    let r := PoolAllocator.allocateBlock P.world (P.poolsOf c.id) k
    (r.1, P.setPools c.id r.2)

/-- A block of class `k` goes back, to the thread's cache or to the pools. -/
def giveSmall (P : Process) (t : Nat) (c : CentralState) (k block : Nat) : Process :=
  match P.threadCache t c with
  | (some o, P) =>
    let r := ThreadCache.freeBlock o.caches P.world (P.poolsOf c.id) k block
    (P.setPools c.id r.2).store t c.address { o with caches := r.1 }
  | (none, P) => P.setPools c.id (PoolAllocator.freeBlock P.world (P.poolsOf c.id) k block)

/-- The header of a block is written; null stays null. -/
def handOut (size : Nat) : Option Nat × Process → Option Nat × Process
  | (none, P) => (none, P)
  | (some block, P) =>
    let user := userPointerOf block
    (some user, P.setMem (BlockHeader.store P.mem (headerOf user) (rawHeader size .Small)))

/-- The small branch of `rawAllocate`. -/
def allocateSmall (P : Process) (t : Nat) (c : CentralState) (size : Nat) : Option Nat × Process :=
  handOut size (P.takeSmall t c (classIndex size))

/-- The small branch of `rawDeallocate`; the class is read from the header. -/
def deallocateSmall (P : Process) (t : Nat) (c : CentralState) (user : Nat) : Process :=
  let k := classIndex (BlockHeader.load P.mem (headerOf user)).payloadSize
  (P.setMem (BlockHeader.setState P.mem (headerOf user) kStateFreed)).giveSmall t c k (headerOf user)

/-- `std::make_shared<CentralState>`, placed at `address`. -/
def create (P : Process) (address : Nat) (enableThreadCache : Bool) : Process :=
  { P with
    centrals := ⟨address, P.created, enableThreadCache, fun _ => {}⟩ :: P.centrals
    created := P.created + 1 }

/-- The last `shared_ptr` goes: the `CentralState` is destroyed. -/
def destroy (P : Process) (c : CentralState) : Process :=
  { P with
    world := MappedRegion.destroyAll P.world (MappedRegion.owners (PoolAllocator.runsOf c.pools))
    centrals := P.centrals.filter fun d => decide (d.id ≠ c.id) }

/-- `tlsCaches[address]` of thread `t` leaves the map. -/
def takeOut (P : Process) (t address : Nat) : Process :=
  let others := (P.tlsCaches t).filter fun e => decide (e.1 ≠ address)
  { P with tlsCaches := Function.update P.tlsCaches t others }

/-- A thread's map is destroyed, entry by entry: here the one for `address`. -/
def dropCache (P : Process) (t address : Nat) (o : CacheObject) : Process :=
  (P.takeOut t address).destroyCache o

end Process

end MAlloc
