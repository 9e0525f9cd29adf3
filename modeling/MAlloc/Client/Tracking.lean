/-
  The leak registry under any interleaving.

  A step is one critical section of the registry (`track`, `isTracked`, `wasFreed`, `untrack`), or one
  of the tier that hands out or takes back a block, with the thread-local code in front of it. A
  thread's `TrackPc` is the critical section it stands before. A pointer has an owner from the end of the
  call that made it to the beginning of the `deallocate` it is passed to; owners may pass pointers on
  and write into their blocks. `reallocate` is taken as the calls it consists of.

  Blocks and owners agree in every run (`Kept`): what is owned, or what a call works on, is live. The
  registry agrees with the owners (`Booked`) as long as no `untrack` meets a pointer that has been
  handed out again, `Calm`.
-/
import MAlloc.Client.System
import MAlloc.Lib.Run
import Mathlib.Data.Fintype.Basic
import Mathlib.Data.List.Nodup

namespace MAlloc.Client

open Lib AllocatorImpl DebugLayer

/-! ## The system -/

/-- The critical section a thread stands before. -/
inductive TrackPc where
  | idle
  /-- The arguments are fine; the tier is asked for a block. -/
  | asking (r : Request)
  /-- The block is there; `track`. -/
  | tracking (ptr size : Nat)
  /-- `deallocate` has begun; `isTracked`. -/
  | checking (ptr : Nat)
  /-- Not tracked; `wasFreed`. -/
  | doubting (ptr : Nat)
  /-- Tracked; the tier takes the block back. -/
  | freeing (ptr : Nat)
  /-- The block is gone; `untrack`. -/
  | untracking (ptr : Nat)
  deriving DecidableEq, Repr

/-- The live block a call works on. -/
def TrackPc.block : TrackPc → Option Nat
  | .tracking ptr _ => some ptr
  | .checking ptr => some ptr
  | .freeing ptr => some ptr
  | _ => none

/-- The pointer a `deallocate` has not untracked yet. -/
def TrackPc.entry : TrackPc → Option Nat
  | .checking ptr => some ptr
  | .freeing ptr => some ptr
  | .untracking ptr => some ptr
  | _ => none

structure Owned (n : Nat) where
  ptr : Nat
  size : Nat
  owner : Fin n
  deriving DecidableEq, Repr

def Owned.range {n : Nat} (o : Owned n) : Span := ⟨o.ptr, o.size⟩

/-- `results` are what the calls of `deallocate` have returned. -/
structure TrackSys (n : Nat) where
  impl : AllocatorImpl
  pcs : Fin n → TrackPc := fun _ => .idle
  owned : List (Owned n) := []
  results : List (Except Error Unit) := []

inductive TrackEvent (n : Nat) where
  | request (t : Fin n) (r : Request)
  | deallocate (t : Fin n) (ptr : Nat)
  | advance (t : Fin n)
  | pass (ptr : Nat) (t : Fin n)
  | write (addr : Nat) (value : UInt8)
  | exit (t : Fin n)
  deriving DecidableEq, Repr

/-- `deallocate` between the registry and the registry: header, guards, tier, `recordFree`. -/
def takeBack (s : AllocatorImpl) (t ptr : Nat) : Except Error Unit × AllocatorImpl :=
  let header := BlockHeader.load s.tiers.mem (headerOf ptr)
  if header.hasValidTier = false ∨ (header.state ≠ kStateAllocated ∧ header.state ≠ kStateFreed) then
    s.fail .InvalidPointer ptr
  else if header.state = kStateFreed then s.fail .DoubleFree ptr
  else
    let bad := corrupt s.config s.tiers.mem ptr header
    let s := if bad then s.report .HeapCorruption ptr else s
    if bad && s.config.abortOnError then (.error .HeapCorruption, s)
    else
      match release s.config s.tiers t ptr header with
      | (.error e, T) => { s with tiers := T }.fail e ptr
      | (.ok reserved, T) =>
        (.ok (), { s with tiers := T, stats := s.stats.recordFree header.payloadSize reserved })

namespace TrackSys

variable {n : Nat}

abbrev mem (s : TrackSys n) : Mem := s.impl.tiers.mem

def pointers (s : TrackSys n) : List Nat := s.owned.map Owned.ptr

def goto (s : TrackSys n) (t : Fin n) (pc : TrackPc) : TrackSys n :=
  { s with pcs := Function.update s.pcs t pc }

/-- `deallocate` returns. -/
def returns (s : TrackSys n) (t : Fin n) (impl : AllocatorImpl) (result : Except Error Unit) :
    TrackSys n :=
  { s.goto t .idle with impl := impl, results := result :: s.results }

/-- `allocate` returns. -/
def serves (s : TrackSys n) (t : Fin n) (impl : AllocatorImpl) (ptr size : Nat) : TrackSys n :=
  { s.goto t .idle with impl := impl, owned := ⟨ptr, size, t⟩ :: s.owned }

/-- The tier is asked for a block. -/
def ask (s : TrackSys n) (t : Fin n) (r : Request) : TrackSys n :=
  match r.acquire s.impl.config s.impl.tiers t with
  | (.error e, T) => { s.goto t .idle with impl := { s.impl with tiers := T }.report e 0 }
  | (.ok raw, T) =>
    let impl := { s.impl with tiers := T, stats := s.impl.stats.recordAllocation r.size raw.reserved }
    if s.impl.config.enableLeakTracking then
      { s.goto t (.tracking raw.user r.size) with impl := impl }
    else s.serves t impl raw.user r.size

/-- The tier takes a block back. -/
def free (s : TrackSys n) (t : Fin n) (ptr : Nat) : TrackSys n :=
  match takeBack s.impl t ptr with
  | (.error e, impl) => s.returns t impl (.error e)
  | (.ok (), impl) =>
    if s.impl.config.enableLeakTracking then { s.goto t (.untracking ptr) with impl := impl }
    else s.returns t impl (.ok ())

/-- `debug_.wasFreed(ptr) ? Error::DoubleFree : Error::InvalidPointer`. -/
def doubt (s : TrackSys n) (ptr : Nat) : Error :=
  if s.impl.debug.wasFreed ptr then .DoubleFree else .InvalidPointer

/-- The critical section thread `t` stands before. -/
def advance (s : TrackSys n) (t : Fin n) : Option (TrackSys n) :=
  match s.pcs t with
  | .idle => none
  | .asking r => some (s.ask t r)
  | .tracking ptr size =>
    some (s.serves t { s.impl with debug := s.impl.debug.track ptr size } ptr size)
  | .checking ptr =>
    some (s.goto t (if s.impl.debug.isTracked ptr then .freeing ptr else .doubting ptr))
  | .doubting ptr => some (s.returns t (s.impl.report (s.doubt ptr) ptr) (.error (s.doubt ptr)))
  | .freeing ptr => some (s.free t ptr)
  | .untracking ptr =>
    some (s.returns t { s.impl with debug := s.impl.debug.untrack ptr } (.ok ()))

/-- `allocate` or `alignedAllocate` begins. -/
def request (s : TrackSys n) (t : Fin n) (r : Request) : TrackSys n :=
  match r.verdict with
  | some e => { s with impl := s.impl.report e 0 }
  | none => s.goto t (.asking r)

/-- `deallocate` of what thread `t` owns begins. -/
def deallocate (s : TrackSys n) (t : Fin n) (ptr : Nat) : TrackSys n :=
  { s.goto t (if s.impl.config.enableLeakTracking then .checking ptr else .freeing ptr) with
    owned := s.owned.filter fun o => decide (o.ptr ≠ ptr) }

/-- The pointer goes to thread `t`. -/
def pass (s : TrackSys n) (ptr : Nat) (t : Fin n) : TrackSys n :=
  { s with owned := s.owned.map fun o => if o.ptr = ptr then { o with owner := t } else o }

def Owns (s : TrackSys n) (t : Fin n) (ptr : Nat) : Prop := ∃ o ∈ s.owned, o.ptr = ptr ∧ o.owner = t

instance (s : TrackSys n) (t : Fin n) (ptr : Nat) : Decidable (s.Owns t ptr) :=
  inferInstanceAs (Decidable (∃ o ∈ s.owned, _))

def step (s : TrackSys n) (e : TrackEvent n) : Option (TrackSys n) :=
  if s.impl.aborted then none
  else
    match e with
    | .request t r => if s.pcs t = .idle then some (s.request t r) else none
    | .deallocate t ptr =>
      if s.pcs t = .idle ∧ s.Owns t ptr then some (s.deallocate t ptr) else none
    | .advance t => s.advance t
    | .pass ptr t => some (s.pass ptr t)
    | .write addr value =>
      if s.owned.any fun o => decide (o.range.Has addr) then
        some { s with impl := { s.impl with
          tiers := s.impl.tiers.setMem (Function.update s.mem addr value) } }
      else none
    | .exit t =>
      if s.pcs t = .idle then some { s with impl := { s.impl with tiers := s.impl.tiers.exit t } }
      else none

def start (n : Nat) (cfg : AllocatorConfig) (w : World) (faults : List Bool) : TrackSys n where
  impl := { config := cfg, tiers := { world := w, cacheFaults := faults } }

/-- No call is in progress. -/
def Quiet (s : TrackSys n) : Prop := ∀ t, s.pcs t = .idle

instance (s : TrackSys n) : Decidable s.Quiet := inferInstanceAs (Decidable (∀ t, s.pcs t = .idle))

/-- **The registry is exact**: frees of owned pointers succeed, no live pointer counts as freed, and
    between calls the registry has the live pointers. -/
structure Exact (s : TrackSys n) : Prop where
  succeeds : ∀ r ∈ s.results, r = .ok ()
  unfreed : ∀ p ∈ s.pointers, s.impl.debug.wasFreed p = false
  keys : s.Quiet → ∀ p, s.impl.debug.isTracked p = true ↔ p ∈ s.pointers
  count : s.Quiet → s.impl.liveAllocationCount = s.pointers.length

/-- An `untrack` that comes now does not meet a pointer that somebody owns again, or that another
    `deallocate` is about to look up. -/
def Harmless (s : TrackSys n) : TrackPc → Prop
  | .untracking p => p ∉ s.pointers ∧ ∀ u, s.pcs u ≠ .checking p
  | _ => True

instance (s : TrackSys n) : (pc : TrackPc) → Decidable (s.Harmless pc)
  | .untracking p => inferInstanceAs (Decidable (p ∉ s.pointers ∧ ∀ u, s.pcs u ≠ .checking p))
  | .idle => isTrue trivial
  | .asking _ => isTrue trivial
  | .tracking _ _ => isTrue trivial
  | .checking _ => isTrue trivial
  | .doubting _ => isTrue trivial
  | .freeing _ => isTrue trivial

def Calm (s : TrackSys n) : TrackEvent n → Prop
  | .advance t => s.Harmless (s.pcs t)
  | _ => True

instance (s : TrackSys n) : (e : TrackEvent n) → Decidable (s.Calm e)
  | .advance t => inferInstanceAs (Decidable (s.Harmless (s.pcs t)))
  | .request _ _ => isTrue trivial
  | .deallocate _ _ => isTrue trivial
  | .pass _ _ => isTrue trivial
  | .write _ _ => isTrue trivial
  | .exit _ => isTrue trivial

end TrackSys

/-! ## The calls in one piece -/

section Pieces
variable {s : AllocatorImpl} {live : List Alloc} {a : Alloc}

/-- What `deallocate` does with a tracked pointer is what its steps do one after the other. -/
theorem deallocate_eq_steps (ht : s.config.enableLeakTracking = true) {t ptr : Nat} (h0 : ptr ≠ 0)
    (hp : s.debug.isTracked ptr = true) : s.deallocate t ptr =
      match takeBack s t ptr with
      | (.error e, s) => (.error e, s)
      | (.ok (), s) => (.ok (), { s with debug := s.debug.untrack ptr }) := by
  unfold AllocatorImpl.deallocate AllocatorImpl.deallocateBy AllocatorImpl.giveBack takeBack
  rw [if_neg h0, ht, hp, if_neg (by simp)]
  dsimp only
  split
  · rfl
  split
  · rfl
  generalize corrupt s.config s.tiers.mem ptr (BlockHeader.load s.tiers.mem (headerOf ptr)) = b
  have hcfg : (if b then s.report .HeapCorruption ptr else s).config = s.config := by
    split <;> rfl
  generalize (if b then s.report .HeapCorruption ptr else s) = s1 at hcfg ⊢
  cases b && s1.config.abortOnError with
  | true => rfl
  | false =>
    simp only [Bool.false_eq_true, if_false]
    generalize release s1.config s1.tiers t ptr (BlockHeader.load s.tiers.mem (headerOf ptr)) = q
    obtain ⟨res, T⟩ := q
    cases res with
    | error e => rfl
    | ok reserved =>
      unfold AllocatorImpl.discharge
      dsimp only
      rw [hcfg, if_pos ht]

/-- So is what a request does. -/
theorem run_eq_steps (ht : s.config.enableLeakTracking = true) (t : Nat) {r : Request}
    (hv : r.verdict = none) : r.run s t =
      match r.acquire s.config s.tiers t with
      | (.error e, T) => { s with tiers := T }.fail e 0
      | (.ok raw, T) => (.ok raw.user, { s with
          tiers := T
          stats := s.stats.recordAllocation r.size raw.reserved
          debug := s.debug.track raw.user r.size }) := by
  rw [Request.run_eq, hv]
  dsimp only
  generalize r.acquire s.config s.tiers t = q
  obtain ⟨res, T⟩ := q
  cases res with
  | error e => rfl
  | ok raw =>
    unfold AllocatorImpl.finish AllocatorImpl.enroll
    dsimp only
    rw [if_pos ht]

/-- **The tier takes a live block back.** -/
theorem takeBack_spec (h : Live s.tiers live) (ha : a ∈ live) (hg : a.Guarded s.tiers.mem) (t : Nat) :
    ∃ T', takeBack s t a.ptr = (.ok (), { s with
        tiers := T', stats := s.stats.recordFree a.size a.raw.reserved }) ∧
      Released s.tiers live a T' := by
  obtain ⟨T', he, hrel⟩ := release_spec h ha s.config t
  refine ⟨T', ?_, hrel⟩
  have hhead : BlockHeader.load s.tiers.mem (headerOf a.ptr) = a.header := by
    rw [h.headerOf_ptr ha]
    exact (h.ok a ha).header
  unfold takeBack
  rw [hhead]
  dsimp only
  rw [a.header_valid, a.header_state, if_neg (by simp), if_neg (by decide), corrupt_eq_false h ha hg]
  simp only [Bool.false_eq_true, if_false, Bool.false_and, he, a.header_size]

end Pieces

/-! ## Blocks and owners -/

/-- What is owned, and what calls work on, are different live allocations. -/
structure Kept {n : Nat} (T : Tiers) (pcs : Fin n → TrackPc) (owned : List (Owned n)) (live : List Alloc) :
    Prop where
  memory : Live T live
  guards : ∀ a ∈ live, a.Guarded T.mem
  backed : ∀ o ∈ owned, ∃ a ∈ live, a.ptr = o.ptr ∧ a.size = o.size
  sized : ∀ t p k, pcs t = .tracking p k → ∃ a ∈ live, a.ptr = p ∧ a.size = k
  worked : ∀ t, ∀ p ∈ (pcs t).block, p ∈ live.map Alloc.ptr
  single : (owned.map Owned.ptr).Nodup
  apart : ∀ t, ∀ p ∈ (pcs t).block, p ∉ owned.map Owned.ptr
  once : ∀ t u, ∀ p ∈ (pcs t).block, p ∈ (pcs u).block → t = u
  fine : ∀ t r, pcs t = .asking r → r.verdict = none

section Kept
variable {n : Nat} {T T' : Tiers} {pcs : Fin n → TrackPc} {owned : List (Owned n)} {live : List Alloc}
  {a : Alloc} {t : Fin n} {pc : TrackPc} {p k : Nat}

/-- Memory changes off the live blocks, or where it does not matter. -/
theorem Kept.frame (h : Kept T pcs owned live) (hl : Live T' live) (hg : ∀ a ∈ live, a.Guarded T'.mem) :
    Kept T' pcs owned live := { h with memory := hl, guards := hg }

theorem Kept.keeps (h : Kept T pcs owned live) (hl : Live T' live) (hk : T.world.Keeps T'.world (spans live)) :
    Kept T' pcs owned live := by
  refine h.frame hl fun a ha => ?_
  refine (h.guards a ha).congr (hl.ok a ha).placed (hl.fits ha) fun x hx _ => ?_
  exact hk.bytes a.raw.span (List.mem_map_of_mem (List.mem_map_of_mem ha)) x hx.1 hx.2

/-- A thread goes on with the block it works on, or without it. -/
theorem Kept.goto (h : Kept T pcs owned live) (hb : ∀ p ∈ pc.block, p ∈ (pcs t).block)
    (hs : ∀ p k, pc = .tracking p k → pcs t = .tracking p k)
    (hf : ∀ r, pc = .asking r → r.verdict = none) : Kept T (Function.update pcs t pc) owned live := by
  have hsub : ∀ u, ∀ p ∈ (Function.update pcs t pc u).block, p ∈ (pcs u).block := by
    refine (Function.forall_update_iff pcs fun u pc => ∀ p ∈ pc.block, p ∈ (pcs u).block).mpr ⟨hb, ?_⟩
    exact fun u _ p hp => hp
  have hsz : ∀ u p k, Function.update pcs t pc u = .tracking p k → pcs u = .tracking p k := by
    refine (Function.forall_update_iff pcs fun u pc =>
      ∀ p k, pc = .tracking p k → pcs u = .tracking p k).mpr ⟨hs, ?_⟩
    exact fun u _ p k hp => hp
  exact { h with
    sized := fun u p k hp => h.sized u p k (hsz u p k hp)
    worked := fun u p hp => h.worked u p (hsub u p hp)
    apart := fun u p hp => h.apart u p (hsub u p hp)
    once := fun u v p hp hq => h.once u v p (hsub u p hp) (hsub v p hq)
    fine := (Function.forall_update_iff pcs fun _ pc => ∀ r, pc = .asking r → r.verdict = none).mpr
      ⟨hf, fun u _ => h.fine u⟩ }

theorem Kept.owned_mem (h : Kept T pcs owned live) (hp : p ∈ owned.map Owned.ptr) :
    p ∈ live.map Alloc.ptr := by
  obtain ⟨o, ho, rfl⟩ := List.mem_map.mp hp
  obtain ⟨a, ha, hptr, -⟩ := h.backed o ho
  exact List.mem_map.mpr ⟨a, ha, hptr⟩

/-- The tier has handed out a block. -/
theorem Kept.asked (h : Kept T pcs owned live) (hl : Live T' (a :: live))
    (hk : T.world.Keeps T'.world (spans live) [a.raw.span]) (hg : a.Guarded T'.mem) :
    Kept T' (Function.update pcs t (.tracking a.ptr a.size)) owned (a :: live) := by
  have hnew : a.ptr ∉ live.map Alloc.ptr := (List.nodup_cons.mp hl.ptr_nodup).1
  refine ⟨hl, ?_, ?_, ?_, ?_, h.single, ?_, ?_, ?_⟩
  · refine List.forall_mem_cons.mpr ⟨hg, fun d hd => ?_⟩
    have hin := List.mem_cons_of_mem a hd
    refine (h.guards d hd).congr (hl.ok d hin).placed (hl.fits hin) fun x hx _ => ?_
    exact hk.bytes d.raw.span (List.mem_map_of_mem (List.mem_map_of_mem hd)) x hx.1 hx.2
  · intro o ho
    obtain ⟨d, hd, he⟩ := h.backed o ho
    exact ⟨d, List.mem_cons_of_mem _ hd, he⟩
  · refine (Function.forall_update_iff pcs fun u pc => ∀ p k, pc = .tracking p k →
      ∃ d ∈ a :: live, d.ptr = p ∧ d.size = k).mpr ⟨?_, fun u _ p k hp => ?_⟩
    · rintro p k ⟨⟩
      exact ⟨a, List.mem_cons_self, rfl, rfl⟩
    · obtain ⟨d, hd, he⟩ := h.sized u p k hp
      exact ⟨d, List.mem_cons_of_mem _ hd, he⟩
  · refine (Function.forall_update_iff pcs fun u pc => ∀ p ∈ pc.block,
      p ∈ (a :: live).map Alloc.ptr).mpr ⟨?_, fun u _ p hp => List.mem_cons_of_mem _ (h.worked u p hp)⟩
    rintro p ⟨⟩
    exact List.mem_cons_self
  · refine (Function.forall_update_iff pcs fun u pc => ∀ p ∈ pc.block,
      p ∉ owned.map Owned.ptr).mpr ⟨?_, fun u _ => h.apart u⟩
    rintro p ⟨⟩ hp
    exact hnew (h.owned_mem hp)
  · intro u v p hu hv
    by_cases hut : u = t
    · by_cases hvt : v = t
      · exact hut.trans hvt.symm
      · rw [hut, Function.update_self] at hu
        rw [Function.update_of_ne hvt] at hv
        cases hu
        exact absurd (h.worked v _ hv) hnew
    · rw [Function.update_of_ne hut] at hu
      by_cases hvt : v = t
      · rw [hvt, Function.update_self] at hv
        cases hv
        exact absurd (h.worked u _ hu) hnew
      · rw [Function.update_of_ne hvt] at hv
        exact h.once u v p hu hv
  · exact (Function.forall_update_iff pcs fun _ pc => ∀ r, pc = .asking r → r.verdict = none).mpr
      ⟨nofun, fun u _ => h.fine u⟩

/-- `allocate` returns: the thread owns the block it worked on. -/
theorem Kept.served (h : Kept T pcs owned live) (hpc : pcs t = .tracking p k) :
    Kept T (Function.update pcs t .idle) (⟨p, k, t⟩ :: owned) live := by
  have hblock : p ∈ (pcs t).block := by rw [hpc]; exact rfl
  have hidle : Kept T (Function.update pcs t .idle) owned live := h.goto nofun nofun nofun
  refine { hidle with backed := ?_, single := ?_, apart := ?_ }
  · exact List.forall_mem_cons.mpr ⟨h.sized t p k hpc, h.backed⟩
  · exact List.nodup_cons.mpr ⟨h.apart t p hblock, h.single⟩
  · refine (Function.forall_update_iff pcs fun u pc => ∀ q ∈ pc.block,
      q ∉ ((⟨p, k, t⟩ : Owned n) :: owned).map Owned.ptr).mpr ⟨nofun, fun u hu q hq hin => ?_⟩
    rcases List.mem_cons.mp hin with rfl | hin
    · exact hu (h.once u t _ hq hblock)
    · exact h.apart u q hq hin

/-- `deallocate` begins: the owner gives the pointer away, and the call works on it. -/
theorem Kept.passed (h : Kept T pcs owned live) (hp : p ∈ owned.map Owned.ptr)
    (hb : ∀ q ∈ pc.block, q = p) (hs : ∀ q k, pc ≠ .tracking q k) (hf : ∀ r, pc ≠ .asking r) :
    Kept T (Function.update pcs t pc) (owned.filter fun o => decide (o.ptr ≠ p)) live := by
  have hsub : ∀ q, q ∈ (owned.filter fun o => decide (o.ptr ≠ p)).map Owned.ptr →
      q ∈ owned.map Owned.ptr ∧ q ≠ p := by
    intro q hq
    obtain ⟨o, ho, rfl⟩ := List.mem_map.mp hq
    obtain ⟨ho, hne⟩ := List.mem_filter.mp ho
    exact ⟨List.mem_map_of_mem ho, of_decide_eq_true hne⟩
  refine ⟨h.memory, h.guards, fun o ho => h.backed o (List.mem_of_mem_filter ho), ?_, ?_, ?_, ?_, ?_, ?_⟩
  · refine (Function.forall_update_iff pcs fun u pc => ∀ q k, pc = .tracking q k →
      ∃ d ∈ live, d.ptr = q ∧ d.size = k).mpr ⟨fun q k hq => absurd hq (hs q k), fun u _ => h.sized u⟩
  · refine (Function.forall_update_iff pcs fun u pc => ∀ q ∈ pc.block,
      q ∈ live.map Alloc.ptr).mpr ⟨fun q hq => ?_, fun u _ => h.worked u⟩
    rw [hb q hq]
    exact h.owned_mem hp
  · exact h.single.sublist (List.filter_sublist.map _)
  · refine (Function.forall_update_iff pcs fun u pc => ∀ q ∈ pc.block,
      q ∉ (owned.filter fun o => decide (o.ptr ≠ p)).map Owned.ptr).mpr
        ⟨fun q hq hin => (hsub q hin).2 (hb q hq), fun u _ q hq hin => ?_⟩
    exact h.apart u q hq (hsub q hin).1
  · intro u v q hu hv
    by_cases hut : u = t
    · by_cases hvt : v = t
      · exact hut.trans hvt.symm
      · rw [hut, Function.update_self] at hu
        rw [Function.update_of_ne hvt] at hv
        exact absurd (hb q hu ▸ hp) (h.apart v q hv)
    · rw [Function.update_of_ne hut] at hu
      by_cases hvt : v = t
      · rw [hvt, Function.update_self] at hv
        exact absurd (hb q hv ▸ hp) (h.apart u q hu)
      · rw [Function.update_of_ne hvt] at hv
        exact h.once u v q hu hv
  · exact (Function.forall_update_iff pcs fun _ pc => ∀ r, pc = .asking r → r.verdict = none).mpr
      ⟨fun r hr => absurd hr (hf r), fun u _ => h.fine u⟩

/-- The tier has taken the block back. -/
theorem Kept.freed (h : Kept T pcs owned live) (hpc : pcs t = .freeing a.ptr)
    (hrel : Released T live a T') : Kept T' (Function.update pcs t (.untracking a.ptr)) owned (live.erase a) := by
  have hblock : a.ptr ∈ (pcs t).block := by rw [hpc]; exact rfl
  have hstay : ∀ d ∈ live, d.ptr ≠ a.ptr → d ∈ live.erase a := fun d hd hne =>
    (List.mem_erase_of_ne fun he => hne (congrArg Alloc.ptr he)).mpr hd
  have hne : ∀ u, u ≠ t → ∀ p ∈ (pcs u).block, p ≠ a.ptr := by
    rintro u hu p hp rfl
    exact hu (h.once u t _ hp hblock)
  have hidle : Kept T (Function.update pcs t (.untracking a.ptr)) owned live := h.goto nofun nofun nofun
  refine ⟨hrel.live', fun d hd => ?_, fun o ho => ?_, ?_, ?_, h.single, hidle.apart, hidle.once, hidle.fine⟩
  · have hin := List.mem_of_mem_erase hd
    refine (h.guards d hin).congr (hrel.live'.ok d hd).placed (hrel.live'.fits hd) fun x hx _ => ?_
    exact hrel.keeps.bytes d.raw.span (List.mem_map_of_mem (List.mem_map_of_mem hd)) x hx.1 hx.2
  · obtain ⟨d, hd, hptr, hsize⟩ := h.backed o ho
    refine ⟨d, hstay d hd fun he => h.apart t a.ptr hblock ?_, hptr, hsize⟩
    rw [← he, hptr]
    exact List.mem_map_of_mem ho
  · refine (Function.forall_update_iff pcs fun u pc => ∀ p k, pc = .tracking p k →
      ∃ d ∈ live.erase a, d.ptr = p ∧ d.size = k).mpr ⟨nofun, fun u hu p k hp => ?_⟩
    obtain ⟨d, hd, hptr, hsize⟩ := h.sized u p k hp
    refine ⟨d, hstay d hd ?_, hptr, hsize⟩
    rw [hptr]
    exact hne u hu p (by rw [hp]; exact rfl)
  · refine (Function.forall_update_iff pcs fun u pc => ∀ p ∈ pc.block,
      p ∈ (live.erase a).map Alloc.ptr).mpr ⟨nofun, fun u hu p hp => ?_⟩
    obtain ⟨d, hd, rfl⟩ := List.mem_map.mp (h.worked u p hp)
    exact List.mem_map_of_mem (hstay d hd (hne u hu _ hp))

/-- An owner writes into its block. -/
theorem Kept.write (h : Kept T pcs owned live) (ha : a ∈ live) {x : Nat} (hx : a.range.Has x) (v : UInt8) :
    Kept (T.setMem (Function.update T.mem x v)) pcs owned live := by
  have hoff : ∀ y, ¬ a.range.Has y → Function.update T.mem x v y = T.mem y := by
    intro y hy
    apply Function.update_of_ne
    rintro rfl
    exact hy hx
  refine h.frame (h.memory.write ha hoff) fun d hd => ?_
  refine (h.guards d hd).congr (h.memory.ok d hd).placed (h.memory.fits hd) fun y hy hyd => hoff y ?_
  rcases h.memory.eq_or_apart ha hd with rfl | hap
  · exact hyd
  · exact fun hya => hap.not_has ((Alloc.range_inside h.memory ha).has hya) hy

end Kept

/-! ## The registry and the owners -/

section Books
variable {d : DebugLayer} {p q k : Nat}

theorem isTracked_track_iff : (d.track q k).isTracked p = true ↔ p = q ∨ d.isTracked p = true := by
  unfold DebugLayer.track DebugLayer.isTracked
  rw [List.any_cons, Bool.or_eq_true, decide_eq_true_eq, List.any_filter]
  by_cases hp : p = q
  · simp [hp]
  · simp only [List.any_eq_true, Bool.and_eq_true, decide_eq_true_eq, hp, false_or, Ne.symm hp]
    grind

theorem isTracked_untrack_iff : (d.untrack q).isTracked p = true ↔ d.isTracked p = true ∧ p ≠ q := by
  unfold DebugLayer.untrack
  split
  · unfold DebugLayer.isTracked
    simp only [List.any_filter, List.any_eq_true, Bool.and_eq_true, decide_eq_true_eq]
    grind
  · rename_i hq
    constructor
    · rintro hp
      refine ⟨hp, ?_⟩
      rintro rfl
      exact hq hp
    · exact And.left

theorem wasFreed_track_iff : (d.track q k).wasFreed p = true ↔ d.wasFreed p = true ∧ p ≠ q := by
  unfold DebugLayer.track DebugLayer.wasFreed
  simp only [List.any_filter, List.any_eq_true, Bool.and_eq_true, decide_eq_true_eq]
  grind

theorem wasFreed_of_untrack (h : (d.untrack q).wasFreed p = true) : d.wasFreed p = true ∨ p = q := by
  unfold DebugLayer.untrack at h
  split at h
  · unfold DebugLayer.wasFreed at h ⊢
    simp only [List.any_cons, List.any_filter, List.any_eq_true, Bool.or_eq_true, Bool.and_eq_true,
      decide_eq_true_eq] at h ⊢
    grind
  · exact Or.inl h

/-- One entry for each key of `live_`, and none of them in `freed_`. -/
structure KeysOk (d : DebugLayer) : Prop where
  nodup : (d.live.map Prod.fst).Nodup
  unfreed : ∀ p, d.isTracked p = true → d.wasFreed p = false

theorem mem_keys : p ∈ d.live.map Prod.fst ↔ d.isTracked p = true := by
  rw [isTracked_iff, List.mem_map]
  constructor
  · rintro ⟨⟨x, m⟩, hx, rfl⟩
    exact ⟨m, hx⟩
  · rintro ⟨m, hm⟩
    exact ⟨_, hm, rfl⟩

theorem keys_filter (d : DebugLayer) (q : Nat) :
    ((d.live.filter fun e => decide (e.1 ≠ q)).map Prod.fst) =
      (d.live.map Prod.fst).filter fun p => decide (p ≠ q) := by
  rw [List.filter_map]
  rfl

theorem KeysOk.track (h : KeysOk d) (q k : Nat) : KeysOk (d.track q k) := by
  constructor
  · change (q :: (d.live.filter fun e => decide (e.1 ≠ q)).map Prod.fst).Nodup
    rw [keys_filter]
    refine List.nodup_cons.mpr ⟨fun hq => ?_, h.nodup.filter _⟩
    exact of_decide_eq_true (List.mem_filter.mp hq).2 rfl
  · intro p hp
    refine Bool.eq_false_iff.mpr fun hf => ?_
    obtain ⟨hf, hne⟩ := wasFreed_track_iff.mp hf
    have hold := h.unfreed p ((isTracked_track_iff.mp hp).resolve_left hne)
    rw [hold] at hf
    cases hf

theorem KeysOk.untrack (h : KeysOk d) (q : Nat) : KeysOk (d.untrack q) := by
  constructor
  · unfold DebugLayer.untrack
    split
    · dsimp only
      rw [keys_filter]
      exact h.nodup.filter _
    · exact h.nodup
  · intro p hp
    obtain ⟨hp, hne⟩ := isTracked_untrack_iff.mp hp
    refine Bool.eq_false_iff.mpr fun hf => ?_
    have hold := (wasFreed_of_untrack hf).resolve_right hne
    rw [h.unfreed p hp] at hold
    cases hold

end Books

/-- What is owned, or about to be looked up, is tracked; and what is tracked is owned, or a
    `deallocate` is still to untrack it. -/
structure Booked {n : Nat} (d : DebugLayer) (pcs : Fin n → TrackPc) (owned : List (Owned n)) : Prop where
  keys : KeysOk d
  listed : ∀ p ∈ owned.map Owned.ptr, d.isTracked p = true
  looked : ∀ t p, pcs t = .checking p → d.isTracked p = true
  known : ∀ p, d.isTracked p = true → p ∈ owned.map Owned.ptr ∨ ∃ t, p ∈ (pcs t).entry
  sure : ∀ t p, pcs t ≠ .doubting p

section Booked
variable {n : Nat} {d : DebugLayer} {pcs : Fin n → TrackPc} {owned : List (Owned n)} {t : Fin n}
  {pc : TrackPc} {p k : Nat}

/-- A thread goes on and leaves the registry as it is. -/
theorem Booked.goto (h : Booked d pcs owned) (hl : ∀ p, pc ≠ .checking p) (hs : ∀ p, pc ≠ .doubting p)
    (he : ∀ p ∈ (pcs t).entry, p ∈ pc.entry) : Booked d (Function.update pcs t pc) owned := by
  refine ⟨h.keys, h.listed, ?_, fun p hp => ?_, ?_⟩
  · refine (Function.forall_update_iff pcs fun u pc => ∀ p, pc = .checking p → d.isTracked p = true).mpr
      ⟨fun p hp => absurd hp (hl p), fun u _ => h.looked u⟩
  · rcases h.known p hp with hown | ⟨u, hu⟩
    · exact Or.inl hown
    · refine Or.inr ⟨u, ?_⟩
      by_cases hut : u = t
      · rw [hut] at hu ⊢
        rw [Function.update_self]
        exact he p hu
      · rw [Function.update_of_ne hut]
        exact hu
  · exact (Function.forall_update_iff pcs fun u pc => ∀ p, pc ≠ .doubting p).mpr ⟨hs, fun u _ => h.sure u⟩

/-- `track`, and `allocate` returns. -/
theorem Booked.served (h : Booked d pcs owned) (hpc : (pcs t).entry = none) :
    Booked (d.track p k) (Function.update pcs t .idle) (⟨p, k, t⟩ :: owned) := by
  have hidle : Booked d (Function.update pcs t .idle) owned := h.goto nofun nofun (by rw [hpc]; nofun)
  refine ⟨h.keys.track p k, fun q hq => ?_, fun u q hu => ?_, fun q hq => ?_, hidle.sure⟩
  · rcases List.mem_cons.mp hq with rfl | hq
    · exact isTracked_track_iff.mpr (Or.inl rfl)
    · exact isTracked_track (h.listed q hq)
  · exact isTracked_track (hidle.looked u q hu)
  · rcases isTracked_track_iff.mp hq with rfl | hq
    · exact Or.inl List.mem_cons_self
    · exact (hidle.known q hq).imp (List.mem_cons_of_mem _) id

/-- `deallocate` begins. -/
theorem Booked.passed (h : Booked d pcs owned) (hpc : (pcs t).entry = none) (hp : p ∈ owned.map Owned.ptr) :
    Booked d (Function.update pcs t (.checking p)) (owned.filter fun o => decide (o.ptr ≠ p)) := by
  refine ⟨h.keys, fun q hq => ?_, ?_, fun q hq => ?_, ?_⟩
  · obtain ⟨o, ho, rfl⟩ := List.mem_map.mp hq
    exact h.listed _ (List.mem_map_of_mem (List.mem_of_mem_filter ho))
  · refine (Function.forall_update_iff pcs fun u pc => ∀ q, pc = .checking q → d.isTracked q = true).mpr
      ⟨?_, fun u _ => h.looked u⟩
    rintro q ⟨⟩
    exact h.listed p hp
  · by_cases hqp : q = p
    · refine Or.inr ⟨t, ?_⟩
      rw [Function.update_self, hqp]
      exact rfl
    · rcases h.known q hq with hown | ⟨u, hu⟩
      · obtain ⟨o, ho, rfl⟩ := List.mem_map.mp hown
        exact Or.inl (List.mem_map_of_mem (List.mem_filter.mpr ⟨ho, decide_eq_true hqp⟩))
      · refine Or.inr ⟨u, ?_⟩
        have hut : u ≠ t := by
          rintro rfl
          rw [hpc] at hu
          cases hu
        rw [Function.update_of_ne hut]
        exact hu
  · exact (Function.forall_update_iff pcs fun u pc => ∀ q, pc ≠ .doubting q).mpr ⟨nofun, fun u _ => h.sure u⟩

/-- `untrack`, when nobody minds. -/
theorem Booked.untracked (h : Booked d pcs owned) (hpc : pcs t = .untracking p)
    (hown : p ∉ owned.map Owned.ptr) (hlook : ∀ u, pcs u ≠ .checking p) :
    Booked (d.untrack p) (Function.update pcs t .idle) owned := by
  refine ⟨h.keys.untrack p, fun q hq => ?_, ?_, fun q hq => ?_, ?_⟩
  · refine isTracked_untrack_iff.mpr ⟨h.listed q hq, ?_⟩
    rintro rfl
    exact hown hq
  · refine (Function.forall_update_iff pcs fun u pc => ∀ q, pc = .checking q →
      (d.untrack p).isTracked q = true).mpr ⟨nofun, fun u _ q hu => ?_⟩
    refine isTracked_untrack_iff.mpr ⟨h.looked u q hu, ?_⟩
    rintro rfl
    exact hlook u hu
  · obtain ⟨hq, hne⟩ := isTracked_untrack_iff.mp hq
    refine (h.known q hq).imp id ?_
    rintro ⟨u, hu⟩
    refine ⟨u, ?_⟩
    have hut : u ≠ t := by
      rintro rfl
      rw [hpc] at hu
      cases hu
      exact hne rfl
    rw [Function.update_of_ne hut]
    exact hu
  · exact (Function.forall_update_iff pcs fun u pc => ∀ q, pc ≠ .doubting q).mpr ⟨nofun, fun u _ => h.sure u⟩

end Booked

/-! ## Runs -/

namespace TrackSys

variable {n : Nat}

structure Steady (s : TrackSys n) : Prop where
  tracks : s.impl.config.enableLeakTracking = true
  kept : ∃ live, Kept s.impl.tiers s.pcs s.owned live
  booked : Booked s.impl.debug s.pcs s.owned
  succeeds : ∀ r ∈ s.results, r = .ok ()

variable {s s' : TrackSys n} {t : Fin n} {p k : Nat}

/-- The tier is asked for a block. -/
theorem ask_steady (h : s.Steady) {r : Request} (hpc : s.pcs t = .asking r) :
    (s.ask t r).Steady := by
  obtain ⟨live, hk⟩ := h.kept
  have hnone : (s.pcs t).entry = none := by rw [hpc]; rfl
  have hout := Request.acquire_spec s.impl.config hk.memory t (hk.fine t r hpc)
  unfold ask
  generalize r.acquire s.impl.config s.impl.tiers t = q at hout ⊢
  cases hout with
  | refused hl hkeep href =>
    refine ⟨h.tracks, ⟨live, (hk.keeps hl hkeep).goto nofun nofun nofun⟩, ?_, h.succeeds⟩
    exact h.booked.goto nofun nofun (by rw [hnone]; nofun)
  | @served T' a hl hshape hsize hkeep hpoison hguard hnew =>
    dsimp only
    rw [if_pos h.tracks, ← hsize]
    refine ⟨h.tracks, ⟨a :: live, hk.asked hl hkeep hguard⟩, ?_, h.succeeds⟩
    exact h.booked.goto nofun nofun (by rw [hnone]; nofun)

/-- The tier takes a block back. -/
theorem free_steady (h : s.Steady) (hpc : s.pcs t = .freeing p) : (s.free t p).Steady := by
  obtain ⟨live, hk⟩ := h.kept
  have hblock : p ∈ (s.pcs t).block := by rw [hpc]; exact rfl
  obtain ⟨a, ha, rfl⟩ := List.mem_map.mp (hk.worked t p hblock)
  obtain ⟨T', he, hrel⟩ := takeBack_spec hk.memory ha (hk.guards a ha) t
  unfold free
  rw [he]
  dsimp only
  rw [if_pos h.tracks]
  refine ⟨h.tracks, ⟨_, hk.freed hpc hrel⟩, ?_, h.succeeds⟩
  exact h.booked.goto nofun nofun (by rw [hpc]; exact fun _ hp => hp)

/-- A critical section. -/
theorem advance_steady (h : s.Steady) (hc : s.Calm (.advance t))
    (hs : s.advance t = some s') : s'.Steady := by
  obtain ⟨live, hk⟩ := h.kept
  unfold advance at hs
  unfold Calm at hc
  dsimp only at hc
  split at hs
  · cases hs
  · rename_i r hpc
    cases hs
    exact ask_steady h hpc
  · rename_i ptr size hpc
    cases hs
    exact ⟨h.tracks, ⟨live, hk.served hpc⟩, h.booked.served (by rw [hpc]; rfl), h.succeeds⟩
  · rename_i ptr hpc
    cases hs
    rw [h.booked.looked t ptr hpc, if_pos rfl]
    refine ⟨h.tracks, ⟨live, hk.goto (by rw [hpc]; exact fun _ hp => hp) nofun nofun⟩, ?_, h.succeeds⟩
    exact h.booked.goto nofun nofun (by rw [hpc]; exact fun _ hp => hp)
  · rename_i ptr hpc
    exact absurd hpc (h.booked.sure t ptr)
  · rename_i ptr hpc
    cases hs
    exact free_steady h hpc
  · rename_i ptr hpc
    cases hs
    rw [hpc] at hc
    refine ⟨h.tracks, ⟨live, hk.goto nofun nofun nofun⟩, h.booked.untracked hpc hc.1 hc.2, ?_⟩
    exact List.forall_mem_cons.mpr ⟨rfl, h.succeeds⟩

/-- **Every calm step preserves the invariant.** -/
theorem step_steady (h : s.Steady) {e : TrackEvent n} (hc : s.Calm e) (hs : s.step e = some s') : s'.Steady := by
  obtain ⟨live, hk⟩ := h.kept
  unfold step at hs
  split at hs
  · cases hs
  cases e with
  | request t r =>
    dsimp only at hs
    split at hs
    · rename_i hpc
      cases hs
      unfold request
      cases hv : r.verdict with
      | some e => exact ⟨h.tracks, ⟨live, hk⟩, h.booked, h.succeeds⟩
      | none =>
        refine ⟨h.tracks, ⟨live, hk.goto nofun nofun ?_⟩, h.booked.goto nofun nofun ?_, h.succeeds⟩
        · rintro r' ⟨⟩
          exact hv
        · rw [hpc]
          nofun
    · cases hs
  | deallocate t ptr =>
    dsimp only at hs
    split at hs
    · rename_i hpc
      obtain ⟨hpc, o, ho, rfl, -⟩ := hpc
      cases hs
      unfold deallocate
      rw [if_pos h.tracks]
      have hp : o.ptr ∈ s.owned.map Owned.ptr := List.mem_map_of_mem ho
      refine ⟨h.tracks, ⟨live, hk.passed hp ?_ nofun nofun⟩, h.booked.passed (by rw [hpc]; rfl) hp, h.succeeds⟩
      rintro q ⟨⟩
      rfl
    · cases hs
  | advance t => exact advance_steady h hc hs
  | pass ptr t =>
    cases hs
    have hptr : (s.pass ptr t).owned.map Owned.ptr = s.owned.map Owned.ptr := by
      unfold pass
      rw [List.map_map]
      refine List.map_congr_left fun o _ => ?_
      dsimp only [Function.comp]
      split <;> rfl
    refine ⟨h.tracks, ⟨live, { hk with backed := fun o ho => ?_, single := ?_, apart := ?_ }⟩,
      { h.booked with listed := ?_, known := ?_ }, h.succeeds⟩
    · obtain ⟨o', ho', rfl⟩ := List.mem_map.mp ho
      obtain ⟨a, ha, h1, h2⟩ := hk.backed o' ho'
      refine ⟨a, ha, ?_⟩
      split <;> exact ⟨h1, h2⟩
    · rw [hptr]
      exact hk.single
    · rw [hptr]
      exact hk.apart
    · rw [hptr]
      exact h.booked.listed
    · rw [hptr]
      exact h.booked.known
  | write addr value =>
    dsimp only at hs
    split at hs
    · rename_i hany
      cases hs
      obtain ⟨o, ho, hx⟩ := List.any_eq_true.mp hany
      obtain ⟨a, ha, hptr, hsize⟩ := hk.backed o ho
      have hin : a.range.Has addr := by
        have hx := of_decide_eq_true hx
        unfold Alloc.range
        rw [hptr, hsize]
        exact hx
      refine ⟨h.tracks, ⟨live, hk.write ha hin value⟩, h.booked, h.succeeds⟩
    · cases hs
  | exit t =>
    dsimp only at hs
    split at hs
    · cases hs
      obtain ⟨hok, hkeep, -⟩ := Raw.exit_spec hk.memory.raw t
      have hl : Live (s.impl.tiers.exit t) live := ⟨hok, hk.memory.ok_keeps (fun _ hd => hd) hkeep⟩
      exact ⟨h.tracks, ⟨live, hk.keeps hl hkeep⟩, h.booked, h.succeeds⟩
    · cases hs

/-- An allocator that has just been made. -/
theorem start_steady {cfg : AllocatorConfig} (ht : cfg.enableLeakTracking = true) (m : Mem) (page : PageSize)
    (answers : List (Option Nat)) (faults : List Bool) :
    (start n cfg (World.boot m page answers) faults).Steady := by
  have hl := (start_good cfg m page answers faults).memory
  exact ⟨ht, ⟨[], ⟨hl, nofun, nofun, nofun, nofun, List.nodup_nil, nofun, nofun, nofun⟩⟩,
    ⟨⟨List.nodup_nil, fun _ _ => rfl⟩, nofun, nofun, nofun, nofun⟩, nofun⟩

theorem Steady.exact (h : s.Steady) : s.Exact := by
  obtain ⟨live, hk⟩ := h.kept
  have hkeys : s.Quiet → ∀ p, s.impl.debug.isTracked p = true ↔ p ∈ s.pointers := by
    intro hq p
    refine ⟨fun hp => (h.booked.known p hp).resolve_right ?_, h.booked.listed p⟩
    rintro ⟨t, ht⟩
    rw [hq t] at ht
    cases ht
  refine ⟨h.succeeds, fun p hp => h.booked.keys.unfreed p (h.booked.listed p hp), hkeys, fun hq => ?_⟩
  -- two lists without duplicates and with the same members
  have hperm : (s.impl.debug.live.map Prod.fst).Perm s.pointers :=
    (List.perm_ext_iff_of_nodup h.booked.keys.nodup hk.single).mpr fun p => mem_keys.trans (hkeys hq p)
  have hlen := hperm.length_eq
  rw [List.length_map] at hlen
  exact hlen

end TrackSys

/-- **The registry is exact in every calm run.** -/
theorem tracking_of_run {n : Nat} {cfg : AllocatorConfig} {m : Mem} {page : PageSize}
    {answers : List (Option Nat)} {faults : List Bool} {events : List (TrackEvent n)} {s : TrackSys n}
    (ht : cfg.enableLeakTracking = true)
    (hcalm : Along TrackSys.step TrackSys.Calm (TrackSys.start n cfg (World.boot m page answers) faults) events)
    (hrun : runFrom TrackSys.step (TrackSys.start n cfg (World.boot m page answers) faults) events = some s) :
    s.Exact := by
  have hstart := TrackSys.start_steady (n := n) ht m page answers faults
  have hinv := run_along (P := TrackSys.Steady) (fun _ _ _ hc h hs => TrackSys.step_steady h hc hs) hcalm
    hstart hrun
  exact hinv.exact

/-- One thread frees a block and is about to untrack it; another one is handed the block. -/
def handedOver : List (TrackEvent 2) :=
  [.request 0 (.allocate 100), .advance 0, .advance 0, .deallocate 0 65552, .advance 0, .advance 0,
    .request 1 (.allocate 100), .advance 1]

/-- The first thread untracks the block, and then the other one tracks it. -/
theorem tracking_of_run_handedOver : ∃ s, runFrom TrackSys.step
      (TrackSys.start 2 { enableLeakTracking := true, enableThreadCache := false } smallWorld [])
      (handedOver ++ [.advance 0, .advance 1]) = some s ∧ s.Exact ∧ s.Quiet ∧ s.pointers = [65552] := by
  have hrun : (runFrom TrackSys.step
      (TrackSys.start 2 { enableLeakTracking := true, enableThreadCache := false } smallWorld [])
      (handedOver ++ [.advance 0, .advance 1])).map
        (fun s => (s.pointers, decide s.Quiet)) = some ([65552], true) := by
    decide +kernel
  obtain ⟨s, hs, hv⟩ := Option.map_eq_some_iff.mp hrun
  obtain ⟨hp, hq⟩ := Prod.mk.inj hv
  exact ⟨s, hs, tracking_of_run rfl (by decide +kernel) hs, of_decide_eq_true hq, hp⟩

/-- The other one tracks it first: it owns a pointer that the registry calls freed, and cannot free
    it. -/
theorem tracked_before_untrack : ∃ s s', runFrom TrackSys.step
      (TrackSys.start 2 { enableLeakTracking := true, enableThreadCache := false } smallWorld [])
      (handedOver ++ [.advance 1, .advance 0]) = some s ∧
    s.Quiet ∧ s.pointers = [65552] ∧ s.impl.liveAllocationCount = 0 ∧ s.impl.debug.wasFreed 65552 = true ∧
    ¬ s.Exact ∧
    runFrom TrackSys.step s [.deallocate 1 65552, .advance 1, .advance 1] = some s' ∧
    .error .DoubleFree ∈ s'.results ∧ ¬ s'.Exact := by
  have hrun : (runFrom TrackSys.step
      (TrackSys.start 2 { enableLeakTracking := true, enableThreadCache := false } smallWorld [])
      (handedOver ++ [.advance 1, .advance 0])).map
        (fun s => (decide (s.Quiet ∧ s.pointers = [65552] ∧ s.impl.liveAllocationCount = 0 ∧
            s.impl.debug.wasFreed 65552 = true),
          (runFrom TrackSys.step s [.deallocate 1 65552, .advance 1, .advance 1]).map fun s =>
            s.results.head?)) = some (true, some (some (.error .DoubleFree))) := by
    decide +kernel
  obtain ⟨s, hs, hv⟩ := Option.map_eq_some_iff.mp hrun
  obtain ⟨hall, hv⟩ := Prod.mk.inj hv
  obtain ⟨hq, hp, hc, hf⟩ := of_decide_eq_true hall
  obtain ⟨s', hs', hr⟩ := Option.map_eq_some_iff.mp hv
  have hbad : .error .DoubleFree ∈ s'.results := List.mem_of_mem_head? hr
  refine ⟨s, s', hs, hq, hp, hc, hf, fun h => ?_, hs', hbad, fun h => ?_⟩
  · have := h.unfreed 65552 (by rw [hp]; exact List.mem_cons_self)
    rw [hf] at this
    cases this
  · cases h.succeeds _ hbad

end MAlloc.Client
