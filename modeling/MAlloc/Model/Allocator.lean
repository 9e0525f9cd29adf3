/-
  `Allocator.cpp`: the object users hold. `MemoryResource.hpp` and `StlAllocator.hpp` over it.

  `impl` is null once the object has been moved from, and then a call does nothing.
-/
import MAlloc.Model.Statistics
import MAlloc.Model.StlAllocator

namespace MAlloc

/-- The number of leaks `~AllocatorImpl` prints, if it prints. -/
def AllocatorImpl.leakMessage (s : AllocatorImpl) : Option Nat :=
  if s.config.enableLeakTracking then
    let leaks := s.debug.liveCount
    if leaks > 0 then some leaks else none
  else none

/-- `ma::Allocator`. -/
structure Allocator where
  impl : Option AllocatorImpl

namespace Allocator

def allocate (a : Allocator) (t size : Nat) : Nat × Allocator :=
  match a.impl with
  | none => (0, a)
  | some s =>
    let r := s.allocate t size
    (valueOrNull r.1, ⟨some r.2⟩)

def deallocate (a : Allocator) (t ptr : Nat) : Allocator :=
  match a.impl with
  | none => a
  | some s => ⟨some (s.deallocate t ptr).2⟩

def reallocate (a : Allocator) (t ptr newSize : Nat) : Nat × Allocator :=
  match a.impl with
  | none => (0, a)
  | some s =>
    let r := s.reallocate t ptr newSize
    (valueOrNull (r.1.map fun fresh => fresh.getD 0), ⟨some r.2⟩)

def alignedAllocate (a : Allocator) (t alignment size : Nat) : Nat × Allocator :=
  match a.impl with
  | none => (0, a)
  | some s =>
    let r := s.alignedAllocate t alignment size
    (valueOrNull r.1, ⟨some r.2⟩)

def tryAllocate (a : Allocator) (t size : Nat) : Except Error Nat × Allocator :=
  match a.impl with
  | none => (.error .OutOfMemory, a)
  | some s =>
    let r := s.allocate t size
    (r.1, ⟨some r.2⟩)

def tryDeallocate (a : Allocator) (t ptr : Nat) : Except Error Unit × Allocator :=
  match a.impl with
  | none => (.error .InvalidPointer, a)
  | some s =>
    let r := s.deallocate t ptr
    (r.1, ⟨some r.2⟩)

def tryAlignedAllocate (a : Allocator) (t alignment size : Nat) : Except Error Nat × Allocator :=
  match a.impl with
  | none => (.error .OutOfMemory, a)
  | some s =>
    let r := s.alignedAllocate t alignment size
    (r.1, ⟨some r.2⟩)

def allocationSize (a : Allocator) (ptr : Nat) : Nat :=
  match a.impl with
  | none => 0
  | some s => s.allocationSize ptr

def statistics (a : Allocator) : StatisticsSnapshot :=
  match a.impl with
  | none => ⟨0, 0, 0, 0, 0, 0, 0, 0, 0, 0⟩
  | some s => s.statistics

def liveAllocationCount (a : Allocator) : Nat :=
  match a.impl with
  | none => 0
  | some s => s.liveAllocationCount

/-- `Allocator(Allocator&& other)`: the new object, and what is left of the other. -/
def moved (other : Allocator) : Allocator × Allocator := (other, ⟨none⟩)

/-- What both adapters do with a request; a null pointer is thrown as `std::bad_alloc`, here `none`. -/
def allocateOrThrow (a : Allocator) (t bytes alignment : Nat) : Option Nat × Allocator :=
  let r := if alignment > 16 then a.alignedAllocate t alignment bytes else a.allocate t bytes
  if r.1 = 0 then (none, r.2) else (some r.1, r.2)

end Allocator

namespace MemoryResource

def doAllocate (a : Allocator) (t bytes alignment : Nat) : Option Nat × Allocator :=
  a.allocateOrThrow t bytes alignment

def doDeallocate (a : Allocator) (t ptr : Nat) : Allocator := a.deallocate t ptr

end MemoryResource

namespace StlAllocator

/-- `allocate(count)` through the `Allocator` the adapter points to. -/
def allocateFrom (T : ElementType) (a : Allocator) (t count : Nat) : Option Nat × Allocator :=
  if count > (2 ^ 64 - 1) / T.sizeof then (none, a)
  else a.allocateOrThrow t (bytes T count) T.alignof

def deallocate (a : Allocator) (t ptr : Nat) : Allocator := a.deallocate t ptr

/-- Over an implementation it is `allocate`. -/
theorem allocateFrom_some (T : ElementType) (s : AllocatorImpl) (t count : Nat) :
    allocateFrom T ⟨some s⟩ t count = ((allocate T s t count).1, ⟨some (allocate T s t count).2⟩) := by
  unfold allocateFrom allocate Allocator.allocateOrThrow orThrow
  split
  · rfl
  · by_cases ha : T.alignof > 16
    · rw [if_pos ha, if_pos ha]
      dsimp only [Allocator.alignedAllocate]
      split <;> rfl
    · rw [if_neg ha, if_neg ha]
      dsimp only [Allocator.allocate]
      split <;> rfl

end StlAllocator

end MAlloc
