/-
  `StlAllocator.hpp`: the adapter for containers, over the pointer interface of `Allocator`.
-/
import MAlloc.Model.AllocatorImpl

namespace MAlloc

/-- The element type `T`, as far as the adapter looks at it. -/
structure ElementType where
  sizeof : Nat
  alignof : Nat
  sizeof_pos : 1 ≤ sizeof

/-- `impl_->allocate(size).value_or(nullptr)`. -/
def valueOrNull : Except Error Nat → Nat
  | .ok ptr => ptr
  | .error _ => 0

namespace StlAllocator

/-- `count * sizeof(T)`. -/
def bytes (T : ElementType) (count : Nat) : Nat := count * T.sizeof % 2 ^ 64

/-- The end of `allocate`: a null pointer is thrown as `std::bad_alloc`, here `none`. -/
def orThrow (r : Except Error Nat × AllocatorImpl) : Option Nat × AllocatorImpl :=
  if valueOrNull r.1 = 0 then (none, r.2) else (some (valueOrNull r.1), r.2)

/-- `allocate(count)`. -/
def allocate (T : ElementType) (s : AllocatorImpl) (t count : Nat) : Option Nat × AllocatorImpl :=
  if count > (2 ^ 64 - 1) / T.sizeof then (none, s)
  else if T.alignof > 16 then orThrow (s.alignedAllocate t T.alignof (bytes T count))
  else orThrow (s.allocate t (bytes T count))

end StlAllocator

end MAlloc
