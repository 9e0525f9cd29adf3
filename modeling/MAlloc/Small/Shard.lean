/-
  One shard of the small tier.

  `carved stride shard` are the blocks the shard has cut from its runs: every block that fits in
  a run before the last, and those below the bump cursor in the last. `ShardOk m stride shard
  free`: the free list in memory is the chain `free`, `size_` is its length, and the bump region
  is the rest of the last run.

  A critical section takes blocks (`Took`: first from the free list, then newly carved ones) or
  gives blocks back (`pushBatch_spec`).
-/
import MAlloc.Lib.Links
import MAlloc.Model.Pools

namespace MAlloc.Small

open Lib PoolAllocator SystemMemory

/-! ## Carved blocks -/

/-- The first `n` blocks of a run. -/
def blocksIn (stride : Nat) (r : Span) (n : Nat) : List Nat :=
  (List.range n).map fun i => r.data + i * stride

def carved (stride : Nat) (shard : Shard) : List Nat :=
  (shard.runs.dropLast.flatMap fun r => blocksIn stride r (r.size / stride)) ++
    match shard.runs.getLast? with
    | none => []
    | some r => blocksIn stride r ((shard.bumpCursor - r.data) / stride)

/-- The cursor stands after a whole number of blocks of the last run. -/
def BumpOk (stride : Nat) (shard : Shard) : Prop :=
  (shard.runs = [] ∧ shard.bumpCursor = 0) ∨
    ∃ rs r n, shard.runs = rs ++ [r] ∧ shard.bumpCursor = r.data + n * stride ∧
      n * stride ≤ r.size ∧ shard.bumpEnd = r.data + r.size

/-- The free list has no part in it. -/
theorem BumpOk.setFreeList {stride : Nat} {shard : Shard} (h : BumpOk stride shard) (l : FreeList) :
    BumpOk stride { shard with freeList := l } := h

structure ShardOk (m : Mem) (stride : Nat) (shard : Shard) (free : List Nat) : Prop where
  chain : Chain (FreeList.next m) shard.freeList.head free
  size : shard.freeList.size = free.length % 2 ^ 64
  bump : BumpOk stride shard

section Carved
variable {stride : Nat} {shard : Shard}

theorem carved_concat {rs : List Span} {r : Span} {n : Nat} (hs : 0 < stride)
    (hr : shard.runs = rs ++ [r]) (hc : shard.bumpCursor = r.data + n * stride) :
    carved stride shard =
      (rs.flatMap fun r => blocksIn stride r (r.size / stride)) ++ blocksIn stride r n := by
  unfold carved
  rw [hr, List.dropLast_concat, List.getLast?_concat, hc]
  dsimp only
  rw [Nat.add_sub_cancel_left, Nat.mul_div_cancel _ hs]

theorem carved_nil (hr : shard.runs = []) : carved stride shard = [] := by
  unfold carved
  rw [hr]
  rfl

theorem mem_blocksIn {r : Span} {n b : Nat} :
    b ∈ blocksIn stride r n ↔ ∃ i < n, b = r.data + i * stride := by
  unfold blocksIn
  simp only [List.mem_map, List.mem_range]
  exact exists_congr fun i => and_congr_right fun _ => eq_comm

theorem blocksIn_succ (r : Span) (n : Nat) :
    blocksIn stride r (n + 1) = blocksIn stride r n ++ [r.data + n * stride] := by
  simp [blocksIn, List.range_succ]

/-- A carved block lies inside one of the runs. -/
theorem carved_inside (hb : BumpOk stride shard) (hs : 0 < stride) {b : Nat}
    (h : b ∈ carved stride shard) : ∃ r ∈ shard.runs, ∃ i, b = r.data + i * stride ∧
      (i + 1) * stride ≤ r.size := by
  rcases hb with ⟨hr, -⟩ | ⟨rs, r, n, hr, hc, hn, -⟩
  · rw [carved_nil hr] at h
    cases h
  · rw [carved_concat hs hr hc, List.mem_append, List.mem_flatMap] at h
    rcases h with ⟨q, hq, hbq⟩ | h
    · obtain ⟨i, hi, rfl⟩ := mem_blocksIn.mp hbq
      refine ⟨q, by rw [hr]; simp [hq], i, rfl, ?_⟩
      exact (Nat.mul_le_mul_right stride hi).trans (Nat.div_mul_le_self _ _)
    · obtain ⟨i, hi, rfl⟩ := mem_blocksIn.mp h
      exact ⟨r, by rw [hr]; simp, i, rfl, (Nat.mul_le_mul_right stride hi).trans hn⟩

/-- Two extents of `stride` bytes that do not meet. -/
def Apart (stride : Nat) (b c : Nat) : Prop := b + stride ≤ c ∨ c + stride ≤ b

theorem blocksIn_pairwise (r : Span) (n : Nat) : (blocksIn stride r n).Pairwise (Apart stride) := by
  unfold blocksIn
  refine List.pairwise_map.mpr (List.pairwise_lt_range.imp fun {i j} hij => Or.inl ?_)
  have : (i + 1) * stride ≤ j * stride := Nat.mul_le_mul_right stride hij
  rw [Nat.add_mul, Nat.one_mul] at this
  omega

theorem blocksIn_within {r : Span} {n b : Nat} (hn : n * stride ≤ r.size)
    (hb : b ∈ blocksIn stride r n) : r.data ≤ b ∧ b + stride ≤ r.data + r.size := by
  obtain ⟨i, hi, rfl⟩ := mem_blocksIn.mp hb
  have : (i + 1) * stride ≤ n * stride := Nat.mul_le_mul_right stride hi
  rw [Nat.add_mul, Nat.one_mul] at this
  omega

/-- Carved blocks are apart, the runs being apart. -/
theorem carved_pairwise (hb : BumpOk stride shard) (hs : 0 < stride)
    (hr : shard.runs.Pairwise Span.Disjoint) : (carved stride shard).Pairwise (Apart stride) := by
  have hcross : ∀ {r q : Span} {n k b c : Nat}, r.Disjoint q → n * stride ≤ r.size →
      k * stride ≤ q.size → b ∈ blocksIn stride r n → c ∈ blocksIn stride q k →
      Apart stride b c := by
    intro r q n k b c hd hn hk hb hc
    have h1 := blocksIn_within hn hb
    have h2 := blocksIn_within hk hc
    unfold Span.Disjoint at hd
    unfold Apart
    omega
  rcases hb with ⟨hr0, -⟩ | ⟨rs, r, n, hrs, hc, hn, -⟩
  · rw [carved_nil hr0]
    exact List.Pairwise.nil
  · rw [hrs, List.pairwise_append] at hr
    rw [carved_concat hs hrs hc, List.pairwise_append, List.pairwise_flatMap]
    refine ⟨⟨fun q _ => blocksIn_pairwise q _, ?_⟩, blocksIn_pairwise r n, fun b hb c hc' => ?_⟩
    · exact hr.1.imp fun {q q'} hd b hb c hc' =>
        hcross hd (Nat.div_mul_le_self _ _) (Nat.div_mul_le_self _ _) hb hc'
    · obtain ⟨q, hq, hbq⟩ := List.mem_flatMap.mp hb
      exact hcross (hr.2.2 q hq r (by simp)) (Nat.div_mul_le_self _ _) hn hbq hc'

theorem apart_of_mem {l : List Nat} (h : l.Pairwise (Apart stride)) {b c : Nat} (hb : b ∈ l)
    (hc : c ∈ l) (hne : b ≠ c) : Apart stride b c := by
  have hsymm : Std.Symm (Apart stride) := ⟨fun _ _ => Or.symm⟩
  exact h.forall hb hc hne

theorem carved_nodup (hs : 0 < stride) {l : List Nat} (h : l.Pairwise (Apart stride)) : l.Nodup := by
  refine h.imp fun {b c} hbc e => ?_
  unfold Apart at hbc
  omega

end Carved

/-! ## Taking blocks -/

/-- A critical section has taken `bs` from a shard: some from the free list, then new ones. -/
structure Took (stride : Nat) (shard shard' : Shard) (free free' bs : List Nat) : Prop where
  split : ∃ popped fresh, bs = popped ++ fresh ∧ free = popped ++ free' ∧
    carved stride shard' = carved stride shard ++ fresh ∧ (fresh ≠ [] → free' = [])

/-- What taking does to the world: at most new runs, and the shard's list of them grows. -/
structure Grew (w w' : World) (shard shard' : Shard) : Prop where
  ok : w'.Ok
  runs : ∃ rs, shard'.runs = shard.runs ++ rs ∧ w'.mapped.Perm (rs ++ w.mapped)
  keeps : w.Keeps w' w.mapped

theorem Grew.refl {w : World} (hw : w.Ok) (shard : Shard) : Grew w w shard shard :=
  ⟨hw, ⟨[], by simp, List.Perm.refl _⟩, World.Keeps.refl _ _⟩

theorem Grew.trans {w w' w'' : World} {s s' s'' : Shard} (h : Grew w w' s s')
    (h' : Grew w' w'' s' s'') : Grew w w'' s s'' := by
  obtain ⟨rs, hrs, hp⟩ := h.runs
  obtain ⟨rs', hrs', hp'⟩ := h'.runs
  refine ⟨h'.ok, ⟨rs ++ rs', by rw [hrs', hrs, List.append_assoc], ?_⟩,
    h.keeps.trans (h'.keeps.subset fun u hu => hp.mem_iff.mpr (List.mem_append_right _ hu))⟩
  refine hp'.trans ((hp.append_left rs').trans ?_)
  rw [← List.append_assoc]
  exact List.perm_append_comm.append_right _

/-- What `takeBlock` may do: give a block, or nothing because the OS refused a run. -/
inductive TakeOutcome (w : World) (stride : Nat) (shard : Shard) (free : List Nat) :
    Option Nat × World × Shard → Prop
  | took {w' shard' free' b} : ShardOk w'.mem stride shard' free' → Grew w w' shard shard' →
      Took stride shard shard' free free' [b] → w'.refusals = w.refusals →
      TakeOutcome w stride shard free (some b, w', shard')
  | refused {w'} : ShardOk w'.mem stride shard free → Grew w w' shard shard →
      free = [] → w.refusals < w'.refusals → TakeOutcome w stride shard free (none, w', shard)

section Take
variable {w w' : World} {stride : Nat} {shard shard' : Shard} {free : List Nat}

theorem ShardOk.congr {m m' : Mem} (h : ShardOk m stride shard free)
    (hm : ∀ b ∈ free, SameOn m m' b 8) : ShardOk m' stride shard free :=
  ⟨h.chain.congr fun b hb => readLE_congr (hm b hb), h.size, h.bump⟩

/-- The pop of a free list that is not empty. -/
theorem pop_spec {b : Nat} (h : ShardOk w.mem stride shard (b :: free)) :
    FreeList.pop w.mem shard.freeList = (some b, (FreeList.pop w.mem shard.freeList).2) ∧
      ShardOk w.mem stride { shard with freeList := (FreeList.pop w.mem shard.freeList).2 } free := by
  obtain ⟨hh, h0, ht⟩ := h.chain
  have hpop : FreeList.pop w.mem shard.freeList =
      (some b, ⟨FreeList.next w.mem b, (shard.freeList.size + (2 ^ 64 - 1)) % 2 ^ 64⟩) := by
    unfold FreeList.pop
    rw [hh, if_neg h0]
  rw [hpop]
  refine ⟨rfl, ht, ?_, h.bump.setFreeList _⟩
  have hs := h.size
  rw [List.length_cons] at hs
  change (shard.freeList.size + (2 ^ 64 - 1)) % 2 ^ 64 = free.length % 2 ^ 64
  omega

/-- The bump of a shard with room for a block. -/
theorem bump_spec {m : Mem} (hs : 0 < stride) (h : ShardOk m stride shard [])
    (hroom : ∃ rs r n, shard.runs = rs ++ [r] ∧ shard.bumpCursor = r.data + n * stride ∧
      (n + 1) * stride ≤ r.size ∧ shard.bumpEnd = r.data + r.size) :
    ShardOk m stride (bump shard stride).2 [] ∧
      Took stride shard (bump shard stride).2 [] [] [(bump shard stride).1] := by
  obtain ⟨rs, r, n, hr, hc, hn, he⟩ := hroom
  have hc' : (bump shard stride).2.bumpCursor = r.data + (n + 1) * stride := by
    unfold bump
    simp only [hc, Nat.add_mul, Nat.one_mul, Nat.add_assoc]
  refine ⟨⟨h.chain, h.size, Or.inr ⟨rs, r, n + 1, hr, hc', hn, he⟩⟩,
    ⟨[], [_], rfl, rfl, ?_, fun _ => rfl⟩⟩
  rw [carved_concat hs (show (bump shard stride).2.runs = rs ++ [r] from hr) hc',
    carved_concat hs hr hc, blocksIn_succ, List.append_assoc]
  unfold bump
  simp only [hc]

/-- The old run is used up when a new one is mapped. -/
theorem div_of_rest {n size stride : Nat} (hs : 0 < stride) (h1 : n * stride ≤ size)
    (h2 : size - n * stride < stride) : size / stride = n := by
  refine (Nat.div_eq_iff hs).mpr ⟨h1, ?_⟩
  omega

theorem refill_spec (hw : w.Ok) (hs : 0 < stride) (hst : stride ≤ kRunSize)
    (h : ShardOk w.mem stride shard [])
    (hfull : shard.bumpCursor = 0 ∨ shard.bumpEnd - shard.bumpCursor < stride)
    (hpos : ∀ r ∈ shard.runs, 0 < r.data) :
    (∃ w', refill w shard = (false, w', shard) ∧ Grew w w' shard shard ∧
      w.refusals < w'.refusals ∧ w'.mem = w.mem) ∨
    ∃ w' run, refill w shard = (true, w', { shard with
        bumpCursor := run.data, bumpEnd := run.data + run.size, runs := shard.runs ++ [run] }) ∧
      Grew w w' shard { shard with
        bumpCursor := run.data, bumpEnd := run.data + run.size, runs := shard.runs ++ [run] } ∧
      w'.refusals = w.refusals ∧ stride ≤ run.size ∧ carved stride { shard with
        bumpCursor := run.data, bumpEnd := run.data + run.size, runs := shard.runs ++ [run] } =
          carved stride shard := by
  unfold refill
  cases hmap : SystemMemory.map w kRunSize with
  | mk o w1 =>
    have hok := map_ok hw hmap
    have hkeeps : w.refusals ≤ w1.refusals → w1.page = w.page → w.Keeps w1 w.mapped := fun hr hp =>
      ⟨hp, hr, fun u hu x h1 h2 => map_keeps hmap hu ⟨h1, h2⟩, fun x hx _ => map_tame hmap x hx⟩
    rcases map_cases hmap with ⟨rfl, hm, hmp, hpg, h0 | href⟩ | ⟨r, rfl, hsz, hg, hm, hmp, hpg, href⟩
    · exact absurd h0.1 (by decide)
    · exact Or.inl ⟨w1, rfl, ⟨hok, ⟨[], by simp, by rw [hmp.1]; exact List.Perm.refl _⟩,
        hkeeps (by omega) hpg⟩, by omega, hm⟩
    · have hbig := (roundToPages_bounds (p := w.page) (n := kRunSize) (by decide)).1
      refine Or.inr ⟨w1, r, rfl, ⟨hok, ⟨[r], rfl, by rw [hmp.1]; exact List.Perm.refl _⟩,
        hkeeps (by omega) hpg⟩, href, by omega, ?_⟩
      rw [carved_concat (r := r) (n := 0) hs (show _ = shard.runs ++ [r] from rfl) (by simp)]
      rcases h.bump with ⟨hr, -⟩ | ⟨rs, q, n, hr, hc, hn, he⟩
      · rw [carved_nil hr, hr]
        rfl
      · have hq := hpos q (by rw [hr]; simp)
        have hdiv : q.size / stride = n := by
          refine div_of_rest hs hn ?_
          rcases hfull with h0 | hlt
          · omega
          · omega
        rw [carved_concat hs hr hc, hr]
        simp [hdiv, blocksIn]

theorem takeBlock_spec (hw : w.Ok) (hs : 0 < stride) (hst : stride ≤ kRunSize)
    (h : ShardOk w.mem stride shard free) (hpos : ∀ r ∈ shard.runs, 0 < r.data) :
    TakeOutcome w stride shard free (takeBlock w shard stride) := by
  unfold takeBlock
  cases free with
  | cons b free =>
    obtain ⟨he, hok⟩ := pop_spec h
    rw [he]
    refine TakeOutcome.took hok ?_ ⟨[b], [], by simp, by simp, by simp [carved], by simp⟩ rfl
    exact ⟨hw, ⟨[], by simp, List.Perm.refl _⟩, World.Keeps.refl _ _⟩
  | nil =>
    have hhead : shard.freeList.head = 0 := h.chain
    have hpop : FreeList.pop w.mem shard.freeList = (none, shard.freeList) := by
      unfold FreeList.pop
      rw [if_pos hhead]
    rw [hpop]
    dsimp only
    by_cases hfull : shard.bumpCursor = 0 ∨ shard.bumpEnd - shard.bumpCursor < stride
    · rw [if_pos hfull]
      rcases refill_spec hw hs hst h hfull hpos with ⟨w', he, hg, href, hm⟩ |
        ⟨w', run, he, hg, href, hbig, hcv⟩
      · rw [he]
        exact TakeOutcome.refused (by rw [hm]; exact h) hg rfl href
      · rw [he]
        dsimp only
        have hsh : ShardOk w'.mem stride { shard with
            bumpCursor := run.data, bumpEnd := run.data + run.size,
            runs := shard.runs ++ [run] } [] :=
          ⟨hhead, h.size, Or.inr ⟨shard.runs, run, 0, rfl, by simp, by simp, rfl⟩⟩
        obtain ⟨hb, ht⟩ := bump_spec hs hsh
          ⟨shard.runs, run, 0, rfl, by simp, by simpa using hbig, rfl⟩
        obtain ⟨p, f, h1, h2, h3, h4⟩ := ht.split
        refine TakeOutcome.took hb ⟨hg.ok, hg.runs, hg.keeps⟩ ⟨p, f, h1, h2, ?_, h4⟩ href
        rw [h3, hcv]
    · rw [if_neg hfull]
      push Not at hfull
      rcases h.bump with ⟨-, h0⟩ | ⟨rs, r, n, hr, hc, hn, he⟩
      · exact absurd h0 hfull.1
      · have hroom : (n + 1) * stride ≤ r.size := by
          rw [Nat.add_mul, Nat.one_mul]
          omega
        obtain ⟨hb, ht⟩ := bump_spec hs h ⟨rs, r, n, hr, hc, hroom, he⟩
        exact TakeOutcome.took hb ⟨hw, ⟨[], by simp [bump], List.Perm.refl _⟩,
          World.Keeps.refl _ _⟩ ht rfl

theorem Took.nil (stride : Nat) (shard : Shard) (free : List Nat) :
    Took stride shard shard free free [] := ⟨[], [], rfl, rfl, by simp, by simp⟩

/-- Taking some and then more: nothing is popped after a block was carved. -/
theorem Took.append {s s' s'' : Shard} {f f' f'' bs bs' : List Nat} (h : Took stride s s' f f' bs)
    (h' : Took stride s' s'' f' f'' bs') : Took stride s s'' f f'' (bs ++ bs') := by
  obtain ⟨p, n, rfl, rfl, hc, hn⟩ := h.split
  obtain ⟨p', n', rfl, rfl, hc', hn'⟩ := h'.split
  by_cases h0 : n = []
  · subst h0
    exact ⟨p ++ p', n', by simp, by simp, by rw [hc', hc]; simp, hn'⟩
  · obtain ⟨rfl, rfl⟩ := List.append_eq_nil_iff.mp (hn h0)
    exact ⟨p, n ++ n', by simp, by simp, by rw [hc', hc]; simp, fun _ => rfl⟩

/-- `allocateBatch` on one shard: up to `room` blocks; fewer only when the OS refused a run, which it is
    not asked for while a block is free. -/
theorem takeBatch_spec (hs : 0 < stride) (hst : stride ≤ kRunSize) (room : Nat) (hw : w.Ok)
    (h : ShardOk w.mem stride shard free) (hin : ∀ r ∈ shard.runs, r ∈ w.mapped) :
    ∃ bs w' shard' free', takeBatch stride room w shard = (bs, w', shard') ∧
      ShardOk w'.mem stride shard' free' ∧ Grew w w' shard shard' ∧
      Took stride shard shard' free free' bs ∧ bs.length ≤ room ∧
      (bs.length < room → w.refusals < w'.refusals ∧ free' = []) := by
  induction room generalizing w shard free with
  | zero => exact ⟨[], w, shard, free, rfl, h, Grew.refl hw shard, Took.nil _ _ _, by simp, by simp⟩
  | succ room ih =>
    have hout := takeBlock_spec hw hs hst h fun r hr => (hw.pos r (hin r hr)).1
    unfold takeBatch
    generalize takeBlock w shard stride = q at *
    cases hout with
    | refused hok hg hnil href =>
      exact ⟨[], _, shard, free, rfl, hok, hg, Took.nil _ _ _, by simp, fun _ => ⟨href, hnil⟩⟩
    | @took w1 shard1 free1 b hok hg ht href =>
      obtain ⟨rs, hrs, hp⟩ := hg.runs
      obtain ⟨bs, w2, shard2, free2, he, hok2, hg2, ht2, hlen, hrf⟩ := ih hg.ok hok (by
        intro r hr
        rw [hrs] at hr
        rcases List.mem_append.mp hr with hr | hr
        · exact hp.mem_iff.mpr (List.mem_append_right _ (hin r hr))
        · exact hp.mem_iff.mpr (List.mem_append_left _ hr))
      refine ⟨b :: bs, w2, shard2, free2, by simp only [he], hok2, hg.trans hg2, ?_, ?_, ?_⟩
      · have := ht.append ht2
        rwa [List.singleton_append] at this
      · rw [List.length_cons]
        omega
      · rw [List.length_cons]
        intro hlt
        obtain ⟨href2, hnil⟩ := hrf (by omega)
        exact ⟨by omega, hnil⟩

/-! ## Giving blocks back -/

/-- `push`: the block is the new head; only its link is written. -/
theorem push_spec {m : Mem} {b : Nat} (h : ShardOk m stride shard free) (hb : b ≠ 0)
    (hhead : shard.freeList.head < 2 ^ 64) (hap : ∀ c ∈ free, c + 8 ≤ b ∨ b + 8 ≤ c) :
    ShardOk (FreeList.push m shard.freeList b).1 stride
      { shard with freeList := (FreeList.push m shard.freeList b).2 } (b :: free) := by
  have hk : ∀ c ∈ free, FreeList.next (FreeList.push m shard.freeList b).1 c = FreeList.next m c :=
    fun c hc => readLE_writeLE_of_disjoint (hap c hc)
  have hn : FreeList.next (FreeList.push m shard.freeList b).1 b = shard.freeList.head :=
    readLE_writeLE_word hhead
  refine ⟨h.chain.cons hb hn hk, ?_, h.bump.setFreeList _⟩
  have hs := h.size
  change (shard.freeList.size + 1) % 2 ^ 64 = (b :: free).length % 2 ^ 64
  rw [List.length_cons, hs]
  omega

/-- `freeBatch`: the blocks come in front, the last pushed first; only their links are written. -/
theorem pushBatch_spec {m : Mem} {bs : List Nat} (h : ShardOk m stride shard free)
    (hb : ∀ b ∈ bs, b ≠ 0 ∧ b < 2 ^ 64) (hhead : shard.freeList.head < 2 ^ 64)
    (hap : (bs.reverse ++ free).Pairwise fun b c => c + 8 ≤ b ∨ b + 8 ≤ c) :
    ShardOk (pushBatch bs m shard.freeList).1 stride
        { shard with freeList := (pushBatch bs m shard.freeList).2 } (bs.reverse ++ free) ∧
      ∀ x, (∀ b ∈ bs, ¬ (b ≤ x ∧ x < b + 8)) → (pushBatch bs m shard.freeList).1 x = m x := by
  induction bs generalizing m shard free with
  | nil => exact ⟨h, fun _ _ => rfl⟩
  | cons b bs ih =>
    rw [List.reverse_cons, List.append_assoc, List.singleton_append] at hap ⊢
    obtain ⟨hb0, hb1⟩ := hb b List.mem_cons_self
    have hfb := (List.pairwise_cons.mp (List.pairwise_append.mp hap).2.1).1
    have h1 := push_spec (b := b) h hb0 hhead hfb
    obtain ⟨h2, h3⟩ := ih h1 (fun c hc => hb c (List.mem_cons_of_mem _ hc)) hb1 hap
    refine ⟨h2, fun x hx => ?_⟩
    refine (h3 x fun c hc => hx c (List.mem_cons_of_mem _ hc)).trans ?_
    exact writeLE_of_not (hx b List.mem_cons_self)

end Take

end MAlloc.Small
