/-
  `LargeAllocator.cpp`: a region of its own for every request.

  `regions_` is an association list from the payload to its region. Its insertions and the
  lookups of an `std::unordered_map` do not depend on the order.
-/
import MAlloc.Model.SystemMemory

namespace MAlloc

open Lib

/-- `regions_`. -/
abbrev LargeAllocator := List (Nat × Span)

namespace LargeAllocator

abbrev kPayloadOffset : Nat := 16

/-- `regions_.emplace(payload, std::move(region))`: an entry that is there stays, and the region
    moved in is unmapped with its node. -/
def emplace (w : World) (regions : LargeAllocator) (payload : Nat) (region : Span) :
    World × LargeAllocator :=
  match regions.lookup payload with
  | none => (w, (payload, region) :: regions)
  | some _ => (SystemMemory.unmap w region, regions)

def allocate (w : World) (regions : LargeAllocator) (bytes : Nat) :
    Option Nat × World × LargeAllocator :=
  match SystemMemory.map w ((bytes + kPayloadOffset) % 2 ^ 64) with
  | (none, w) => (none, w, regions)
  | (some region, w) =>
    (some (region.data + kPayloadOffset), emplace w regions (region.data + kPayloadOffset) region)

/-- `regions_.erase(payload) > 0`; the region is unmapped with its entry. -/
def deallocate (w : World) (regions : LargeAllocator) (payload : Nat) :
    Bool × World × LargeAllocator :=
  match regions.lookup payload with
  | none => (false, w, regions)
  | some region =>
    (true, SystemMemory.unmap w region, regions.filter fun e => decide (e.1 ≠ payload))

def payloadCapacity (regions : LargeAllocator) (payload : Nat) : Nat :=
  match regions.lookup payload with
  | none => 0
  | some region => (region.size + (2 ^ 64 - kPayloadOffset)) % 2 ^ 64

/-- The regions held. -/
def held (regions : LargeAllocator) : List Span := regions.map Prod.snd

end LargeAllocator

end MAlloc
