/-
  `DebugLayer.hpp`: guard bytes, poison and the leak registry.

  `live_` is an association list with one entry for each key, `freed_` a list without
  duplicates; the insertions are taken not to throw.
-/
import MAlloc.Model.BlockHeader

namespace MAlloc

open Lib

structure DebugLayer where
  live : List (Nat × Nat) := []
  freed : List Nat := []
  deriving DecidableEq, Repr

namespace DebugLayer

abbrev kFrontGuardSize : Nat := 32
abbrev kRearGuardSize : Nat := 32
abbrev kGuardPattern : UInt8 := 0xFB
abbrev kAllocPoison : UInt8 := 0xCD
abbrev kFreePoison : UInt8 := 0xDD

def guardedSize (requested : Nat) : Nat := (requested + kFrontGuardSize + kRearGuardSize) % 2 ^ 64

/-- The header `applyGuards` writes in front of the user pointer. -/
def debugShim (requested : Nat) : BlockHeader :=
  ⟨requested, Tier.DebugShim.code, kStateAllocated, kFrontGuardSize⟩

def applyGuards (m : Mem) (raw requested : Nat) : Nat × Mem :=
  let user := raw + kFrontGuardSize
  let m := fill m raw (kFrontGuardSize - kHeaderSize) kGuardPattern
  let m := fill m (user + requested) kRearGuardSize kGuardPattern
  (user, BlockHeader.store m (headerOf user) (debugShim requested))

/-- The address of `rear[i]`: `requested` may be anything, and the sum wraps. -/
def rearAt (user requested i : Nat) : Nat := (user + requested + i) % 2 ^ 64

theorem rearAt_eq {user requested i : Nat} (h : user + requested + i < 2 ^ 64) :
    rearAt user requested i = user + requested + i := Nat.mod_eq_of_lt h

def verifyGuards (m : Mem) (user requested : Nat) : Bool :=
  ((List.range (kFrontGuardSize - kHeaderSize)).all fun i =>
      decide (m (ptrSub user kFrontGuardSize + i) = kGuardPattern)) &&
    (List.range kRearGuardSize).all fun i => decide (m (rearAt user requested i) = kGuardPattern)

def poisonOnAllocate (m : Mem) (ptr size : Nat) : Mem := fill m ptr size kAllocPoison

def poisonOnFree (m : Mem) (ptr size : Nat) : Mem := fill m ptr size kFreePoison

/-! ## The registry -/

/-- `live_.insert_or_assign(user, size); freed_.erase(user)`. -/
def track (d : DebugLayer) (user size : Nat) : DebugLayer where
  live := (user, size) :: d.live.filter fun e => decide (e.1 ≠ user)
  freed := d.freed.filter fun p => decide (p ≠ user)

def isTracked (d : DebugLayer) (user : Nat) : Bool := d.live.any fun e => decide (e.1 = user)

def wasFreed (d : DebugLayer) (user : Nat) : Bool := d.freed.any fun p => decide (p = user)

/-- The result of `untrack` is discarded by its caller. -/
def untrack (d : DebugLayer) (user : Nat) : DebugLayer :=
  if d.isTracked user then
    { live := d.live.filter fun e => decide (e.1 ≠ user)
      freed := user :: d.freed.filter fun p => decide (p ≠ user) }
  else d

def liveCount (d : DebugLayer) : Nat := d.live.length

end DebugLayer

end MAlloc
