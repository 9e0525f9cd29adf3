/-
  What a refused request leaves, and why it was refused.

  `Unspoilt T T' t`: the tiers are as they were, except for what the OS will answer next and for
  an empty cache that thread `t` may have got. `Exhausted T enabled t size`: the tier for `size`
  bytes has no block to serve the request from, and the OS has refused it a mapping.
  `rawAllocate_error` says that an error of `rawAllocate` is both.
-/
import MAlloc.Heap.Exact
import MAlloc.Raw.Alloc

namespace MAlloc.Raw

open Lib SystemMemory SizeClassTable PoolAllocator SegmentHeap

/-- Memory and the page tables are the same. -/
structure SameWorld (w w' : World) : Prop where
  mem : w'.mem = w.mem
  mapped : w'.mapped = w.mapped
  page : w'.page = w.page

structure Unspoilt (T T' : Tiers) (t : Nat) : Prop where
  world : SameWorld T.world T'.world
  pools : T'.pools = T.pools
  segments : T'.segments = T.segments
  large : T'.large = T.large
  caches : T'.tlsCaches = T.tlsCaches ∨
    T.tlsCaches t = none ∧ T'.tlsCaches = Function.update T.tlsCaches t (some ThreadCache.empty)

/-- The shard has no block to give. -/
def Dry (w : World) (shard : Shard) (stride : Nat) : Prop :=
  shard.freeList.head = 0 ∧
    (shard.bumpCursor = 0 ∨ shard.bumpEnd - shard.bumpCursor < stride) ∧
    (SystemMemory.map w kRunSize).1 = none

def Exhausted (T : Tiers) (enabled : Bool) (t size : Nat) : Prop :=
  if size ≤ kSmallMax then
    (∀ cache, (T.threadCache enabled t).1 = some cache → (cache (classIndex size)).count = 0) ∧
      Dry T.world (T.pools (classIndex size)) (blockStride (classIndex size))
  else if size ≤ kMediumMax then
    Heap.NoFit T.mem T.segments (Heap.exactTotal (size + 16)) ∧
      (SystemMemory.map T.world kSegmentSize).1 = none
  else (SystemMemory.map T.world (size + 32)).1 = none

theorem map_refused {w : World} {size : Nat} (h : (SystemMemory.map w size).1 = none) :
    SameWorld w (SystemMemory.map w size).2 := by
  generalize hr : SystemMemory.map w size = r at *
  obtain ⟨o, w'⟩ := r
  rcases map_cases hr with ⟨-, hm, hmp, hpg, -⟩ | ⟨q, rfl, -⟩
  · exact ⟨hm, hmp.1, hpg⟩
  · cases h

section Small
variable {w w' : World} {shard shard' : Shard} {stride : Nat}

theorem takeBlock_none (h : takeBlock w shard stride = (none, w', shard')) :
    shard' = shard ∧ SameWorld w w' ∧ Dry w shard stride := by
  unfold takeBlock at h
  have hpop : FreeList.pop w.mem shard.freeList = if shard.freeList.head = 0 then
      (none, shard.freeList) else (some shard.freeList.head, ⟨FreeList.next w.mem shard.freeList.head,
        (shard.freeList.size + (2 ^ 64 - 1)) % 2 ^ 64⟩) := rfl
  by_cases h0 : shard.freeList.head = 0
  · rw [hpop, if_pos h0] at h
    dsimp only at h
    by_cases hb : shard.bumpCursor = 0 ∨ shard.bumpEnd - shard.bumpCursor < stride
    · rw [if_pos hb] at h
      have hsame := @map_refused w kRunSize
      unfold Dry
      unfold refill at h
      generalize SystemMemory.map w kRunSize = r at *
      obtain ⟨o, w1⟩ := r
      cases o with
      | none =>
        cases h
        exact ⟨rfl, hsame rfl, h0, hb, rfl⟩
      | some run => cases h
    · rw [if_neg hb] at h
      cases h
  · rw [hpop, if_neg h0] at h
    cases h

/-- A batch that stays empty has met the refusal at its first block. -/
theorem takeBatch_nil {room : Nat} (h : takeBatch stride (room + 1) w shard = ([], w', shard')) :
    shard' = shard ∧ SameWorld w w' ∧ Dry w shard stride := by
  unfold takeBatch at h
  generalize hr : takeBlock w shard stride = r at h
  obtain ⟨o, w1, shard1⟩ := r
  cases o with
  | none =>
    cases h
    exact takeBlock_none hr
  | some block => cases h

theorem stored_nil (cache : ClassCache) (h : cache.count = 0) :
    ({ cache.stored [] with count := ([] : List Nat).length } : ClassCache) = cache := by
  obtain ⟨slots, count⟩ := cache
  cases h
  unfold ClassCache.stored
  simp

theorem cache_none {cache cache' : ThreadCache} {pools pools' : PoolAllocator} {c : Nat}
    (h : ThreadCache.allocateBlock cache w pools c = (none, cache', w', pools')) :
    cache' = cache ∧ pools' = pools ∧ SameWorld w w' ∧ (cache c).count = 0 ∧
      Dry w (pools c) (blockStride c) := by
  unfold ThreadCache.allocateBlock at h
  by_cases h0 : (cache c).count = 0
  · rw [if_pos h0] at h
    dsimp only at h
    generalize hr : PoolAllocator.allocateBatch w pools c kBatchSize = r at h
    obtain ⟨blocks, w1, pools1⟩ := r
    dsimp only at h
    by_cases hlen : blocks.length = 0
    · rw [if_pos hlen] at h
      cases h
      rw [List.length_eq_zero_iff] at hlen
      subst hlen
      unfold PoolAllocator.allocateBatch at hr
      generalize hb : takeBatch (blockStride c) kBatchSize w (pools c) = b at hr
      obtain ⟨blocks, w2, shard⟩ := b
      cases hr
      obtain ⟨rfl, hw, hdry⟩ := takeBatch_nil hb
      refine ⟨?_, Function.update_eq_self _ _, hw, h0, hdry⟩
      rw [stored_nil _ h0]
      exact Function.update_eq_self _ _
    · rw [if_neg hlen] at h
      cases h
  · rw [if_neg h0] at h
    cases h

theorem pool_none {pools pools' : PoolAllocator} {c : Nat}
    (h : PoolAllocator.allocateBlock w pools c = (none, w', pools')) :
    pools' = pools ∧ SameWorld w w' ∧ Dry w (pools c) (blockStride c) := by
  unfold PoolAllocator.allocateBlock at h
  generalize hr : takeBlock w (pools c) (blockStride c) = r at h
  obtain ⟨o, w1, shard⟩ := r
  cases h
  obtain ⟨rfl, hw, hdry⟩ := takeBlock_none hr
  exact ⟨Function.update_eq_self _ _, hw, hdry⟩

end Small

section Tiers
variable {T T' : Tiers} {raws : List Block} {parts : Small.Places} {segs : List Heap.Seg}

/-- What `threadCache()` changes. -/
theorem threadCache_unspoilt {enabled : Bool} {t : Nat} {o : Option ThreadCache}
    (h : T.threadCache enabled t = (o, T')) :
    Unspoilt T T' t ∧ T'.world = T.world ∧ ∀ cache, o = some cache → T'.tlsCaches t = some cache := by
  have hsame : Unspoilt T T t := ⟨⟨rfl, rfl, rfl⟩, rfl, rfl, rfl, Or.inl rfl⟩
  unfold Tiers.threadCache at h
  by_cases he : enabled = true
  · rw [if_pos he] at h
    cases hs : T.tlsCaches t with
    | some cache =>
      rw [hs] at h
      cases h
      refine ⟨hsame, rfl, fun k hk => ?_⟩
      cases hk
      exact hs
    | none =>
      rw [hs] at h
      dsimp only at h
      split at h
      · cases h
        exact ⟨⟨⟨rfl, rfl, rfl⟩, rfl, rfl, rfl, Or.inl rfl⟩, rfl, fun k hk => by cases hk⟩
      · cases h
        refine ⟨⟨⟨rfl, rfl, rfl⟩, rfl, rfl, rfl, Or.inr ⟨hs, rfl⟩⟩, rfl, fun k hk => ?_⟩
        cases hk
        exact Function.update_self _ _ _
  · rw [if_neg he] at h
    cases h
    exact ⟨hsame, rfl, fun k hk => by cases hk⟩

theorem takeSmall_none {enabled : Bool} {t c : Nat} (h : T.takeSmall enabled t c = (none, T')) :
    Unspoilt T T' t ∧
      (∀ cache, (T.threadCache enabled t).1 = some cache → (cache c).count = 0) ∧
      Dry T.world (T.pools c) (blockStride c) := by
  unfold Tiers.takeSmall at h
  generalize hr : T.threadCache enabled t = r at h
  obtain ⟨o, T1⟩ := r
  obtain ⟨hun, hw, hslot⟩ := threadCache_unspoilt hr
  cases o with
  | none =>
    dsimp only at h
    generalize ha : PoolAllocator.allocateBlock T1.world T1.pools c = q at h
    obtain ⟨o, w2, pools2⟩ := q
    cases h
    obtain ⟨rfl, hw2, hdry⟩ := pool_none ha
    rw [hun.pools, hw] at hdry
    rw [hw] at hw2
    exact ⟨⟨hw2, hun.pools, hun.segments, hun.large, hun.caches⟩, fun k hk => (by cases hk), hdry⟩
  | some cache =>
    dsimp only at h
    generalize ha : ThreadCache.allocateBlock cache T1.world T1.pools c = q at h
    obtain ⟨o, cache2, w2, pools2⟩ := q
    cases h
    obtain ⟨rfl, rfl, hw2, hcount, hdry⟩ := cache_none ha
    rw [hun.pools, hw] at hdry
    rw [hw] at hw2
    have hcaches : Function.update T1.tlsCaches t (some cache2) = T1.tlsCaches := by
      rw [← hslot cache2 rfl]
      exact Function.update_eq_self _ _
    refine ⟨⟨hw2, hun.pools, hun.segments, hun.large, ?_⟩, fun k hk => ?_, hdry⟩
    · dsimp only
      rw [hcaches]
      exact hun.caches
    · cases hk
      exact hcount

/-- The end of a branch of `rawAllocate` is an error only when there was no payload. -/
theorem finishRaw_error {size : Nat} {tier : Tier} {f : Tiers → Nat → Nat} {o : Option Nat} {e : Error}
    (h : T.finishRaw size tier f o = (.error e, T')) : o = none ∧ e = .OutOfMemory ∧ T' = T := by
  cases o with
  | none =>
    cases h
    exact ⟨rfl, rfl, rfl⟩
  | some payload => cases h

/-- A medium request that is refused. -/
theorem medium_none (ht : RawTiers T raws parts segs) {size : Nat} (hsz : size ≤ kMediumMax)
    (h : (SegmentHeap.allocate T.world T.segments (size + 16)).1 = none) :
    SameWorld T.world (SegmentHeap.allocate T.world T.segments (size + 16)).2.1 ∧
      (SegmentHeap.allocate T.world T.segments (size + 16)).2.2 = T.segments ∧
      Heap.NoFit T.mem T.segments (Heap.exactTotal (size + 16)) ∧
      (SystemMemory.map T.world kSegmentSize).1 = none := by
  have hsz' : size ≤ 262144 := hsz
  have hex : Heap.Exact T.world T.segments (size + 16) := ht.heap.exact (by omega)
  have hsmall : ¬ kSegmentSize < Heap.exactTotal (size + 16) := by
    change ¬ 4194304 < max ((size + 16 + 15) / 16 * 16 + 16) 48
    omega
  rcases hex.null_iff.mp h with hbig | ⟨hno, hmap⟩
  · exact absurd hbig hsmall
  · have hfit := (ht.heap.findFit_none_iff _).mpr hno
    have hwrap : (size + 16 + 15) / 16 * 16 + 16 < 2 ^ 64 := by omega
    have htot := Heap.totalFor_eq hwrap
    rw [← htot] at hfit hsmall
    have he : SegmentHeap.allocate T.world T.segments (size + 16) =
        (none, (SystemMemory.map T.world kSegmentSize).2, T.segments) := by
      rw [Heap.allocate_of_none hsmall hfit, Heap.addSegment_none hmap]
      rfl
    rw [he]
    exact ⟨map_refused hmap, rfl, hno, hmap⟩

theorem rawAllocateMedium_error (ht : RawTiers T raws parts segs) {size : Nat} {e : Error}
    (hsz : size ≤ kMediumMax) (t : Nat) (he : T.rawAllocateMedium size = (.error e, T')) :
    e = .OutOfMemory ∧ Unspoilt T T' t ∧
      Heap.NoFit T.mem T.segments (Heap.exactTotal (size + 16)) ∧
      (SystemMemory.map T.world kSegmentSize).1 = none := by
  have hsz' : size ≤ 262144 := hsz
  have hbytes : (size + kHeaderSize) % 2 ^ 64 = size + 16 :=
    Nat.mod_eq_of_lt (show size + 16 < 2 ^ 64 by omega)
  have hnone := medium_none ht hsz
  unfold Tiers.rawAllocateMedium at he
  rw [hbytes] at he
  generalize SegmentHeap.allocate T.world T.segments (size + 16) = r at *
  obtain ⟨o, w1, h1⟩ := r
  obtain ⟨rfl, rfl, rfl⟩ := finishRaw_error he
  obtain ⟨hw, hseg, hno, hmap⟩ := hnone rfl
  exact ⟨rfl, ⟨hw, rfl, hseg, rfl, Or.inl rfl⟩, hno, hmap⟩

theorem rawAllocateLarge_error {size : Nat} {e : Error} (hsz : size < 2 ^ 62) (t : Nat)
    (he : T.rawAllocateLarge size = (.error e, T')) :
    e = .OutOfMemory ∧ Unspoilt T T' t ∧ (SystemMemory.map T.world (size + 32)).1 = none := by
  have hbytes : ((size + kHeaderSize) % 2 ^ 64 + LargeAllocator.kPayloadOffset) % 2 ^ 64 =
      size + 32 := by
    change ((size + 16) % 2 ^ 64 + 16) % 2 ^ 64 = size + 32
    omega
  have hsame := @map_refused T.world (size + 32)
  unfold Tiers.rawAllocateLarge LargeAllocator.allocate at he
  rw [hbytes] at he
  generalize SystemMemory.map T.world (size + 32) = r at *
  obtain ⟨o, w1⟩ := r
  cases o with
  | some region =>
    obtain ⟨hnone, -, -⟩ := finishRaw_error he
    cases hnone
  | none =>
    obtain ⟨-, rfl, rfl⟩ := finishRaw_error he
    exact ⟨rfl, ⟨hsame rfl, rfl, rfl, rfl, Or.inl rfl⟩, rfl⟩

/-- **An error of `rawAllocate`** is out of memory, leaves the tiers as they were, and comes from a
    tier that had nothing left. -/
theorem rawAllocate_error (h : RawOk T raws) {enabled : Bool} {t size : Nat} {e : Error}
    (hsz : size < 2 ^ 62) (he : T.rawAllocate enabled t size = (.error e, T')) :
    e = .OutOfMemory ∧ Unspoilt T T' t ∧ Exhausted T enabled t size := by
  obtain ⟨parts, segs, ht⟩ := h.tiers
  unfold Tiers.rawAllocate at he
  unfold Exhausted
  by_cases h1 : size ≤ kSmallMax
  · rw [if_pos h1] at he ⊢
    unfold Tiers.rawAllocateSmall at he
    generalize hr : T.takeSmall enabled t (classIndex size) = r at he
    obtain ⟨o, T1⟩ := r
    obtain ⟨rfl, rfl, rfl⟩ := finishRaw_error he
    exact ⟨rfl, takeSmall_none hr⟩
  · rw [if_neg h1] at he ⊢
    by_cases h2 : size ≤ kMediumMax
    · rw [if_pos h2] at he ⊢
      exact rawAllocateMedium_error ht h2 t he
    · rw [if_neg h2] at he ⊢
      exact rawAllocateLarge_error hsz t he

end Tiers

end MAlloc.Raw
