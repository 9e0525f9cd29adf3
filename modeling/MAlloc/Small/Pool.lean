/-
  All shards of the small tier, and where each carved block is.

  A block is in its shard's free list, in a cache slot of a thread, in flight inside a call, or
  with a client (`Place`). `PoolsOk w pools parts others`: for every class the places hold each
  carved block exactly once, the free place being the chain in memory; the runs and `others`
  are together what the OS has mapped.

  The critical sections of `PoolAllocator` move blocks between the free place and one other
  place of the class; everything else a thread does moves blocks between the other places, or
  writes inside a block that is not free.
-/
import MAlloc.Small.Shard
import MAlloc.Lib.Parts

namespace MAlloc.Small

open Lib PoolAllocator SystemMemory

inductive Place where
  | free
  | cached (thread : Nat)
  | flight (thread : Nat)
  | client
  deriving DecidableEq, Repr

abbrev Places := Nat → Place → List Nat

def allRuns (pools : PoolAllocator) : List Span :=
  (List.range SizeClassTable.kClassCount).flatMap fun c => (pools c).runs

theorem runsOf_perm (pools : PoolAllocator) : (PoolAllocator.runsOf pools).Perm (allRuns pools) :=
  (List.reverse_perm _).flatMap_right _

structure PoolsOk (w : World) (pools : PoolAllocator) (parts : Places) (others : List Span) :
    Prop where
  world : w.Ok
  mapped : w.mapped.Perm (allRuns pools ++ others)
  shard : ∀ c < 30, ShardOk w.mem (blockStride c) (pools c) (parts c .free)
  parts : ∀ c < 30, Parts (carved (blockStride c) (pools c)) (parts c)

/-- The places after class `c` has `rest` at `p` and `l` at `q`. -/
def moveTo (parts : Places) (c : Nat) (p q : Place) (rest l : List Nat) : Places :=
  Function.update parts c (Function.update (Function.update (parts c) p rest) q l)

section MoveTo
variable {parts : Places} {c d : Nat} {p q r : Place} (rest l : List Nat)

theorem moveTo_other (hd : d ≠ c) : moveTo parts c p q rest l d = parts d :=
  Function.update_of_ne hd _ _

theorem moveTo_src (hpq : p ≠ q) : moveTo parts c p q rest l c p = rest := by
  unfold moveTo
  rw [Function.update_self, Function.update_of_ne hpq, Function.update_self]

theorem moveTo_dst : moveTo parts c p q rest l c q = l := by
  unfold moveTo
  rw [Function.update_self, Function.update_self]

theorem moveTo_else (hp : r ≠ p) (hq : r ≠ q) : moveTo parts c p q rest l c r = parts c r := by
  unfold moveTo
  rw [Function.update_self, Function.update_of_ne hq, Function.update_of_ne hp]

end MoveTo

/-- The stride of a class holds a header and the class size, and a run holds a block. -/
theorem blockStride_bounds : ∀ c < 30, 32 ≤ blockStride c ∧ blockStride c ≤ kRunSize ∧
    blockStride c % 16 = 0 ∧ 16 + SizeClassTable.classSize c ≤ blockStride c := by
  decide +kernel

section Facts
variable {w : World} {pools : PoolAllocator} {parts : Places} {others : List Span}

theorem mem_allRuns {c : Nat} (hc : c < 30) {r : Span} (hr : r ∈ (pools c).runs) :
    r ∈ allRuns pools := List.mem_flatMap.mpr ⟨c, List.mem_range.mpr hc, hr⟩

theorem PoolsOk.run_mapped (h : PoolsOk w pools parts others) {r : Span} (hr : r ∈ allRuns pools) :
    r ∈ w.mapped := h.mapped.mem_iff.mpr (List.mem_append_left _ hr)

theorem PoolsOk.runs_apart (h : PoolsOk w pools parts others) :
    (allRuns pools).Pairwise Span.Disjoint :=
  (List.pairwise_append.mp (Span.pairwise_disjoint_perm h.mapped h.world.apart)).1

theorem PoolsOk.shard_runs_apart (h : PoolsOk w pools parts others) {c : Nat} (hc : c < 30) :
    (pools c).runs.Pairwise Span.Disjoint :=
  (List.pairwise_flatMap.mp h.runs_apart).1 c (List.mem_range.mpr hc)

theorem PoolsOk.carved_apart (h : PoolsOk w pools parts others) {c : Nat} (hc : c < 30) :
    (carved (blockStride c) (pools c)).Pairwise (Apart (blockStride c)) :=
  carved_pairwise (h.shard c hc).bump (by have := blockStride_bounds c hc; omega)
    (h.shard_runs_apart hc)

/-- A block of a class, wherever it is: inside one of its runs. -/
theorem PoolsOk.inside (h : PoolsOk w pools parts others) {c : Nat} (hc : c < 30) {b : Nat}
    (hb : b ∈ carved (blockStride c) (pools c)) :
    ∃ r ∈ (pools c).runs, Span.Inside ⟨b, blockStride c⟩ r := by
  have hs := blockStride_bounds c hc
  obtain ⟨r, hr, i, rfl, hi⟩ := carved_inside (h.shard c hc).bump (by omega) hb
  refine ⟨r, hr, ?_⟩
  rw [Nat.add_mul, Nat.one_mul] at hi
  unfold Span.Inside
  simp only
  omega

theorem PoolsOk.block_ok (h : PoolsOk w pools parts others) {c : Nat} (hc : c < 30) {b : Nat}
    (hb : b ∈ carved (blockStride c) (pools c)) :
    0 < b ∧ b % 16 = 0 ∧ b + blockStride c < 2 ^ 64 := by
  have hs := blockStride_bounds c hc
  obtain ⟨r, hr, i, rfl, hi⟩ := carved_inside (h.shard c hc).bump (by omega) hb
  have hm := h.run_mapped (mem_allRuns hc hr)
  have h1 := h.world.pos r hm
  have h2 := h.world.aligned r hm
  have h3 := h.world.bound r hm
  have h4 : i * blockStride c % 16 = 0 := by rw [Nat.mul_mod, hs.2.2.1, Nat.mul_zero]
  rw [Nat.add_mul, Nat.one_mul] at hi
  omega

/-- Blocks of the tier do not meet, unless they are one. -/
theorem PoolsOk.apart (h : PoolsOk w pools parts others) {c d b b' : Nat} (hc : c < 30) (hd : d < 30)
    (hb : b ∈ carved (blockStride c) (pools c)) (hb' : b' ∈ carved (blockStride d) (pools d))
    (hne : (c, b) ≠ (d, b')) : Span.Disjoint ⟨b, blockStride c⟩ ⟨b', blockStride d⟩ := by
  by_cases hcd : c = d
  · subst hcd
    exact apart_of_mem (h.carved_apart hc) hb hb' fun e => hne (by rw [show b = b' from e])
  · obtain ⟨r, hr, hir⟩ := h.inside hc hb
    obtain ⟨q, hq, hiq⟩ := h.inside hd hb'
    have hap := (List.pairwise_flatMap.mp h.runs_apart).2
    have hsymm : Std.Symm fun c d : Nat => ∀ r ∈ (pools c).runs, ∀ q ∈ (pools d).runs,
        Span.Disjoint r q := ⟨fun c d hcd q hq r hr => (hcd r hr q hq).symm⟩
    exact hir.disjoint hiq
      (hap.forall (List.mem_range.mpr hc) (List.mem_range.mpr hd) hcd r hr q hq)

/-- A block that is not free does not meet one that is. -/
theorem PoolsOk.free_apart (h : PoolsOk w pools parts others) {c d b b' : Nat} {p : Place}
    (hc : c < 30) (hd : d < 30) (hp : p ≠ .free) (hb : b ∈ parts c p) (hb' : b' ∈ parts d .free) :
    Span.Disjoint ⟨b, blockStride c⟩ ⟨b', blockStride d⟩ := by
  refine h.apart hc hd (((h.parts c hc).cover b).mpr ⟨p, hb⟩)
    (((h.parts d hd).cover b').mpr ⟨_, hb'⟩) fun e => ?_
  obtain ⟨rfl, rfl⟩ := Prod.mk.injEq .. ▸ e
  exact hp ((h.parts c hc).apart _ _ b hb hb')

/-- The world around the runs may change, the runs keeping their bytes. -/
theorem PoolsOk.frame (h : PoolsOk w pools parts others) {w' : World} {others' : List Span}
    (hw : w'.Ok) (hm : w'.mapped.Perm (allRuns pools ++ others'))
    (hk : ∀ r ∈ allRuns pools, SameOn w.mem w'.mem r.data r.size) :
    PoolsOk w' pools parts others' where
  world := hw
  mapped := hm
  shard c hc := (h.shard c hc).congr fun b hb => by
    have hs := blockStride_bounds c hc
    obtain ⟨r, hr, hi⟩ := h.inside hc (((h.parts c hc).cover b).mpr ⟨_, hb⟩)
    unfold Span.Inside at hi
    simp only at hi
    exact (hk r (mem_allRuns hc hr)).mono hi.1 (by omega)
  parts := h.parts

/-- A write inside a block that is not free. -/
theorem PoolsOk.write (h : PoolsOk w pools parts others) {c b : Nat} {p : Place} (hc : c < 30)
    (hp : p ≠ .free) (hb : b ∈ parts c p) {m' : Mem}
    (hm : ∀ x, ¬ (b ≤ x ∧ x < b + blockStride c) → m' x = w.mem x) :
    PoolsOk { w with mem := m' } pools parts others where
  world := ok_mem h.world _
  mapped := h.mapped
  shard d hd := (h.shard d hd).congr fun b' hb' x h1 h2 => by
    have hs := blockStride_bounds d hd
    have hap := h.free_apart hc hd hp hb hb'
    unfold Span.Disjoint at hap
    simp only at hap
    exact hm x (by omega)
  parts := h.parts

/-- Blocks go from one place to another, neither of them the free list. -/
theorem PoolsOk.move (h : PoolsOk w pools parts others) {c : Nat} {p q : Place} (hpq : p ≠ q)
    (hp : p ≠ .free) (hq : q ≠ .free) {bs rest l : List Nat} (hp' : (parts c p).Perm (bs ++ rest))
    (hl : l.Perm (bs ++ parts c q)) : PoolsOk w pools (moveTo parts c p q rest l) others where
  world := h.world
  mapped := h.mapped
  shard d hd := by
    by_cases hdc : d = c
    · rw [hdc, moveTo_else _ _ (Ne.symm hp) (Ne.symm hq)]
      exact h.shard c (hdc ▸ hd)
    · rw [moveTo_other _ _ hdc]
      exact h.shard d hd
  parts d hd := by
    by_cases hdc : d = c
    · subst hdc
      have hsrc : (parts d p).Perm (bs ++ moveTo parts d p q rest l d p) := by
        rw [moveTo_src _ _ hpq]
        exact hp'
      refine (h.parts d hd).move hpq hsrc ?_ fun r hr hr' => moveTo_else _ _ hr hr'
      rw [moveTo_dst]
      exact hl
    · rw [moveTo_other _ _ hdc]
      exact h.parts d hd

end Facts

/-! ## The critical sections -/

theorem allRuns_update {pools : PoolAllocator} {c : Nat} {shard : Shard} {rs : List Span} (hc : c < 30)
    (hr : shard.runs = (pools c).runs ++ rs) :
    (allRuns (Function.update pools c shard)).Perm (rs ++ allRuns pools) := by
  unfold allRuns
  obtain ⟨l, r, hlr⟩ := List.append_of_mem (List.mem_range.mpr (show c < 30 from hc))
  have hnd := List.nodup_range (n := 30)
  rw [hlr] at hnd
  have hcl : c ∉ l ++ r := (List.nodup_cons.mp (List.nodup_middle.mp hnd)).1
  have hsame : ∀ k : List Nat, (∀ d ∈ k, d ∈ l ++ r) →
      k.flatMap (fun d => (Function.update pools c shard d).runs) =
        k.flatMap fun d => (pools d).runs := fun k hk =>
    List.flatMap_congr fun d hd => by
      rw [Function.update_of_ne]
      rintro rfl
      exact hcl (hk d hd)
  change ((List.range 30).flatMap _).Perm (rs ++ (List.range 30).flatMap _)
  rw [hlr, List.flatMap_append, List.flatMap_cons, List.flatMap_append, List.flatMap_cons,
    hsame l (fun d hd => List.mem_append_left _ hd), hsame r (fun d hd => List.mem_append_right _ hd),
    Function.update_self, hr]
  refine ((@List.perm_append_comm _ (pools c).runs rs).append_right _).append_left _
    |>.trans ?_
  rw [List.append_assoc]
  refine (List.perm_append_comm_assoc _ _ _)

section Sections
variable {w : World} {pools : PoolAllocator} {parts : Places} {others : List Span} {c : Nat} {p : Place}

/-- A critical section has taken `bs` to `p`. -/
theorem PoolsOk.take (h : PoolsOk w pools parts others) (hc : c < 30) (hp : p ≠ .free) {w' : World}
    {shard' : Shard} {free' bs : List Nat} (hok : ShardOk w'.mem (blockStride c) shard' free')
    (hg : Grew w w' (pools c) shard') (ht : Took (blockStride c) (pools c) shard' (parts c .free) free' bs) :
    PoolsOk w' (Function.update pools c shard') (moveTo parts c .free p free' (bs ++ parts c p)) others := by
  obtain ⟨rs, hrs, hperm⟩ := hg.runs
  obtain ⟨popped, fresh, rfl, hfree, hcv, -⟩ := ht.split
  have hpf : Place.free ≠ p := Ne.symm hp
  have hmap : w'.mapped.Perm (allRuns (Function.update pools c shard') ++ others) := by
    refine hperm.trans ((h.mapped.append_left rs).trans ?_)
    rw [← List.append_assoc]
    exact ((allRuns_update hc hrs).symm.append_right _)
  refine ⟨hg.ok, hmap, fun d hd => ?_, fun d hd => ?_⟩
  · by_cases hdc : d = c
    · subst hdc
      rw [Function.update_self, moveTo_src _ _ hpf]
      exact hok
    · rw [Function.update_of_ne hdc, moveTo_other _ _ hdc]
      refine (h.shard d hd).congr fun b hb => ?_
      have hs := blockStride_bounds d hd
      obtain ⟨r, hr, hi⟩ := h.inside hd (((h.parts d hd).cover b).mpr ⟨_, hb⟩)
      unfold Span.Inside at hi
      simp only at hi
      exact (hg.keeps.bytes r (h.run_mapped (mem_allRuns hd hr))).mono hi.1 (by omega)
  · by_cases hdc : d = c
    · subst hdc
      rw [Function.update_self, hcv]
      -- the popped blocks move, the fresh ones are new
      have h1 : Parts (carved (blockStride d) (pools d))
          (moveTo parts d .free p free' (popped ++ parts d p) d) := by
        have hsrc : (parts d .free).Perm
            (popped ++ moveTo parts d .free p free' (popped ++ parts d p) d .free) := by
          rw [hfree, moveTo_src _ _ hpf]
        refine (h.parts d hd).move hpf hsrc ?_ fun r hr hr' => moveTo_else _ _ hr hr'
        rw [moveTo_dst]
      have hruns : shard'.runs.Pairwise Span.Disjoint := by
        have := List.pairwise_flatMap.mp (List.pairwise_append.mp
          (Span.pairwise_disjoint_perm hmap hg.ok.apart)).1
        have := this.1 d (List.mem_range.mpr hd)
        rwa [Function.update_self] at this
      have hpw : (carved (blockStride d) (pools d) ++ fresh).Nodup := by
        rw [← hcv]
        have hs := blockStride_bounds d hd
        exact carved_nodup (by omega) (carved_pairwise hok.bump (by omega) hruns)
      obtain ⟨-, hfn, hdis⟩ := List.nodup_append'.mp hpw
      refine h1.add hfn (fun b hb hb' => hdis hb' hb) (q := p) ?_ fun r hr => ?_
      · rw [moveTo_dst, moveTo_dst, ← List.append_assoc]
        exact List.perm_append_comm.append_right _
      · by_cases hrf : r = .free
        · rw [hrf, moveTo_src _ _ hpf, moveTo_src _ _ hpf]
        · rw [moveTo_else _ _ hrf hr, moveTo_else _ _ hrf hr]
    · rw [Function.update_of_ne hdc, moveTo_other _ _ hdc]
      exact h.parts d hd

/-- **`freeBatch`** of blocks that are at `p`: they are free; only their first eight bytes are
    written. -/
theorem PoolsOk.freeBatch (h : PoolsOk w pools parts others) (hc : c < 30) (hp : p ≠ .free)
    {bs rest : List Nat} (hbs : (parts c p).Perm (bs ++ rest)) :
    PoolsOk (freeBatch w pools c bs).1 (freeBatch w pools c bs).2 
        (moveTo parts c p .free rest (bs.reverse ++ parts c .free)) others ∧
      (freeBatch w pools c bs).1.mapped = w.mapped ∧ (freeBatch w pools c bs).1.page = w.page ∧
      (freeBatch w pools c bs).1.refusals = w.refusals ∧
      ∀ x, (∀ b ∈ bs, ¬ (b ≤ x ∧ x < b + 8)) → (freeBatch w pools c bs).1.mem x = w.mem x := by
  have hs := blockStride_bounds c hc
  have hcv : ∀ q, ∀ b ∈ parts c q, b ∈ carved (blockStride c) (pools c) := fun q b hb =>
    ((h.parts c hc).cover b).mpr ⟨q, hb⟩
  have hbp : ∀ b ∈ bs, b ∈ parts c p := fun b hb => hbs.mem_iff.mpr (List.mem_append_left _ hb)
  have hnd : (bs.reverse ++ parts c .free).Nodup := by
    refine List.nodup_append'.mpr ⟨?_, (h.parts c hc).once _, fun b hb hb' => ?_⟩
    · rw [List.nodup_reverse]
      exact (List.nodup_append'.mp (hbs.nodup_iff.mp ((h.parts c hc).once p))).1
    · exact hp ((h.parts c hc).apart _ _ b (hbp b (List.mem_reverse.mp hb)) hb')
  have hall : ∀ b ∈ bs.reverse ++ parts c .free, b ∈ carved (blockStride c) (pools c) := by
    intro b hb
    rcases List.mem_append.mp hb with hb | hb
    · exact hcv p b (hbp b (List.mem_reverse.mp hb))
    · exact hcv _ b hb
  have hap : (bs.reverse ++ parts c .free).Pairwise fun b d => d + 8 ≤ b ∨ b + 8 ≤ d := by
    refine hnd.imp_of_mem fun {b d} hb hd hne => ?_
    have := apart_of_mem (h.carved_apart hc) (hall b hb) (hall d hd) hne
    unfold Apart at this
    omega
  have hword : ∀ b ∈ bs, b ≠ 0 ∧ b < 2 ^ 64 := by
    intro b hb
    have := h.block_ok hc (hcv p b (hbp b hb))
    omega
  have hhead : (pools c).freeList.head < 2 ^ 64 := by
    rw [(h.shard c hc).chain.head]
    cases hf : parts c .free with
    | nil => exact Nat.two_pow_pos 64
    | cons b l =>
      have := h.block_ok hc (hcv .free b (by rw [hf]; exact List.mem_cons_self))
      simp only [List.headD_cons]
      omega
  obtain ⟨hsh, hmem⟩ := pushBatch_spec (h.shard c hc) hword hhead hap
  have hruns : allRuns (PoolAllocator.freeBatch w pools c bs).2 = allRuns pools := by
    unfold allRuns PoolAllocator.freeBatch
    refine List.flatMap_congr fun d _ => ?_
    by_cases hdc : d = c
    · subst hdc
      simp only [Function.update_self]
    · simp only [Function.update_of_ne hdc]
  refine ⟨⟨ok_mem h.world _, ?_, fun d hd => ?_, fun d hd => ?_⟩, rfl, rfl,
    rfl, hmem⟩
  · rw [hruns]
    exact h.mapped
  · by_cases hdc : d = c
    · subst hdc
      simp only [PoolAllocator.freeBatch, Function.update_self]
      rw [moveTo_dst]
      exact hsh
    · simp only [PoolAllocator.freeBatch, Function.update_of_ne hdc]
      rw [moveTo_other _ _ hdc]
      refine (h.shard d hd).congr fun b hb x h1 h2 => hmem x fun b' hb' hx => ?_
      have hd8 := blockStride_bounds d hd
      have := h.free_apart hc hd hp (hbp b' hb') hb
      unfold Span.Disjoint at this
      simp only at this
      omega
  · by_cases hdc : d = c
    · subst hdc
      simp only [PoolAllocator.freeBatch, Function.update_self]
      have hcar : ∀ l, carved (blockStride d) { pools d with freeList := l } =
          carved (blockStride d) (pools d) := fun l => rfl
      rw [hcar]
      have hsrc : (parts d p).Perm
          (bs ++ moveTo parts d p .free rest (bs.reverse ++ parts d .free) d p) := by
        rw [moveTo_src _ _ hp]
        exact hbs
      refine (h.parts d hd).move hp hsrc ?_ fun r hr hr' => moveTo_else _ _ hr hr'
      rw [moveTo_dst]
      exact (List.reverse_perm bs).append_right _
    · simp only [PoolAllocator.freeBatch, Function.update_of_ne hdc]
      rw [moveTo_other _ _ hdc]
      exact h.parts d hd

theorem freeBlock_eq (w : World) (pools : PoolAllocator) (c b : Nat) :
    PoolAllocator.freeBlock w pools c b = PoolAllocator.freeBatch w pools c [b] := rfl

/-- **`allocateBatch`**: the blocks it stores come from the free list or are new. -/
theorem PoolsOk.allocateBatch (h : PoolsOk w pools parts others) (hc : c < 30) (hp : p ≠ .free)
    (room : Nat) : ∃ bs w' pools' free', allocateBatch w pools c room = (bs, w', pools') ∧
      PoolsOk w' pools' (moveTo parts c .free p free' (bs ++ parts c p)) others ∧ w.Keeps w' w.mapped ∧
      bs.length ≤ room ∧ (bs.length < room → w.refusals < w'.refusals ∧ free' = []) ∧
      Took (blockStride c) (pools c) (pools' c) (parts c .free) free' bs := by
  have hs := blockStride_bounds c hc
  obtain ⟨bs, w', shard', free', he, hok, hg, ht, hlen, href⟩ := takeBatch_spec
    (by omega) hs.2.1 room h.world (h.shard c hc) fun r hr => h.run_mapped (mem_allRuns hc hr)
  refine ⟨bs, w', Function.update pools c shard', free', ?_, h.take hc hp hok hg ht, hg.keeps, hlen,
    href, ?_⟩
  · unfold PoolAllocator.allocateBatch
    rw [he]
  · rw [Function.update_self]
    exact ht

/-- **`allocateBlock`**: one block, or none and the OS refused a run. -/
theorem PoolsOk.allocateBlock (h : PoolsOk w pools parts others) (hc : c < 30) (hp : p ≠ .free) :
    ∃ o w' pools' free', allocateBlock w pools c = (o, w', pools') ∧
      PoolsOk w' pools' (moveTo parts c .free p free' (o.toList ++ parts c p)) others ∧ w.Keeps w' w.mapped ∧
      (o = none → w.refusals < w'.refusals) := by
  have hs := blockStride_bounds c hc
  have hout := takeBlock_spec h.world (by omega) hs.2.1 (h.shard c hc)
    fun r hr => (h.world.pos r (h.run_mapped (mem_allRuns hc hr))).1
  unfold PoolAllocator.allocateBlock
  generalize takeBlock w (pools c) (blockStride c) = q at *
  cases hout with
  | refused hok hg hf href =>
    exact ⟨_, _, _, _, rfl, h.take hc hp hok hg (Took.nil _ _ _), hg.keeps, fun _ => href⟩
  | took hok hg ht _ =>
    exact ⟨_, _, _, _, rfl, h.take hc hp hok hg ht, hg.keeps, fun h0 => by cases h0⟩

end Sections

end MAlloc.Small
