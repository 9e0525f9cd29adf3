/-
  A pool never grows past its high-water mark.

  `PoolSys` is the pool of all classes under any sequence of its four calls, clients writing into what
  they hold, with the books a caller could keep: `out`, the blocks handed out and not returned; `cut`,
  the blocks ever handed out, in the order in which each was first; `stack`, the returned blocks, the
  last on top; `peak`, the most that were ever out at once.

  `takeBlock` maps a run only when it has no free block and no room in the last run, and it cuts a block
  from the new run at once (`RunsOk`). A block is cut while the stack is empty, so the cut blocks are then
  all handed out, and their number is the mark (`Good.handOut`).
-/
import MAlloc.Small.Pool
import MAlloc.Lib.Run

namespace MAlloc.Small

open Lib PoolAllocator SizeClassTable SystemMemory

/-- The bytes of a run: `kRunSize` in whole pages. -/
def runBytes (page : PageSize) : Nat := roundToPages page kRunSize

/-! ## Runs -/

/-- All runs are of `bytes` bytes, and a block of the last one is cut. -/
structure RunsOk (bytes stride : Nat) (shard : Shard) : Prop where
  bytes : ∀ r ∈ shard.runs, r.size = bytes
  started : ∀ rs r, shard.runs = rs ++ [r] → r.data + stride ≤ shard.bumpCursor

section Runs
variable {w : World} {stride : Nat} {shard : Shard}

theorem bump_runs {bytes : Nat} (h : ∀ r ∈ shard.runs, r.size = bytes)
    (hc : ∀ rs r, shard.runs = rs ++ [r] → r.data ≤ shard.bumpCursor) :
    RunsOk bytes stride (bump shard stride).2 := by
  refine ⟨h, fun rs r hr => ?_⟩
  have := hc rs r hr
  change r.data + stride ≤ shard.bumpCursor + stride
  omega

theorem takeBlock_runs (h : RunsOk (runBytes w.page) stride shard) :
    (takeBlock w shard stride).2.1.page = w.page ∧
      RunsOk (runBytes w.page) stride (takeBlock w shard stride).2.2 := by
  have hcur : ∀ rs r, shard.runs = rs ++ [r] → r.data ≤ shard.bumpCursor := fun rs r hr => by
    have := h.started rs r hr
    omega
  unfold takeBlock
  cases FreeList.pop w.mem shard.freeList with
  | mk o l =>
    cases o with
    | some b => exact ⟨rfl, h.bytes, h.started⟩
    | none =>
      dsimp only
      split
      · unfold refill
        cases hmap : SystemMemory.map w kRunSize with
        | mk o w' =>
          rcases map_cases hmap with ⟨rfl, -, -, hpg, -⟩ | ⟨run, rfl, hsz, -, -, -, hpg, -⟩
          · exact ⟨hpg, h⟩
          · refine ⟨hpg, bump_runs (fun r hr => ?_) fun rs r hr => ?_⟩
            · rcases List.mem_append.mp hr with hr | hr
              · exact h.bytes r hr
              · rw [List.mem_singleton.mp hr]
                exact hsz
            · have hrun : run = r := by
                have := congrArg List.getLast? hr
                simpa using this
              exact hrun ▸ Nat.le_refl _
      · exact ⟨rfl, bump_runs h.bytes hcur⟩

theorem takeBatch_runs (room : Nat) (h : RunsOk (runBytes w.page) stride shard) :
    (takeBatch stride room w shard).2.1.page = w.page ∧
      RunsOk (runBytes w.page) stride (takeBatch stride room w shard).2.2 := by
  induction room generalizing w shard with
  | zero => exact ⟨rfl, h⟩
  | succ room ih =>
    have hone := takeBlock_runs h
    unfold takeBatch
    generalize takeBlock w shard stride = q at hone
    obtain ⟨o, w1, shard1⟩ := q
    obtain ⟨hpg, hruns⟩ := hone
    cases o with
    | none => exact ⟨hpg, hruns⟩
    | some b =>
      simp only at hpg hruns
      rw [← hpg] at hruns ⊢
      exact ih hruns

/-- The blocks cut so far: all that fit in the runs before the last, and at least one of the last. -/
theorem carved_runs {bytes : Nat} (hs : 0 < stride) (hb : BumpOk stride shard)
    (h : RunsOk bytes stride shard) : (shard.runs = [] ∧ carved stride shard = []) ∨
      ∃ rs r n, shard.runs = rs ++ [r] ∧ 1 ≤ n ∧ n ≤ bytes / stride ∧ carved stride shard =
        (rs.flatMap fun r => blocksIn stride r (bytes / stride)) ++ blocksIn stride r n := by
  rcases hb with ⟨hr, -⟩ | ⟨rs, r, n, hr, hc, hn, -⟩
  · exact Or.inl ⟨hr, carved_nil hr⟩
  · have hsize : r.size = bytes := h.bytes r (by rw [hr]; simp)
    refine Or.inr ⟨rs, r, n, hr, ?_, ?_, ?_⟩
    · have hcut := h.started rs r hr
      rcases Nat.eq_zero_or_pos n with h0 | hpos
      · rw [h0, Nat.zero_mul] at hc
        omega
      · exact hpos
    · rw [← hsize]
      exact (Nat.le_div_iff_mul_le hs).mpr hn
    · rw [carved_concat hs hr hc]
      congr 1
      refine List.flatMap_congr fun q hq => ?_
      rw [h.bytes q (by rw [hr]; simp [hq])]

theorem blocksIn_length (r : Span) (n : Nat) : (blocksIn stride r n).length = n := by
  unfold blocksIn
  rw [List.length_map, List.length_range]

/-- Runs are mapped one at a time, each when the ones before are used up. -/
theorem runs_length {bytes : Nat} (hs : 0 < stride) (hb : BumpOk stride shard)
    (h : RunsOk bytes stride shard) : shard.runs.length =
      ((carved stride shard).length + bytes / stride - 1) / (bytes / stride) := by
  rcases carved_runs hs hb h with ⟨hr, hc⟩ | ⟨rs, r, n, hr, h1, hn, hc⟩
  · rw [hr, hc]
    simp only [List.length_nil, Nat.zero_add]
    rcases Nat.eq_zero_or_pos (bytes / stride) with h0 | hpos
    · rw [h0, Nat.div_zero]
    · rw [Nat.div_eq_of_lt (by omega)]
  · have hlen : (carved stride shard).length = rs.length * (bytes / stride) + n := by
      rw [hc, List.length_append, List.length_flatMap, blocksIn_length]
      congr 1
      simp [blocksIn_length]
    rw [hr, List.length_append, List.length_singleton, hlen]
    symm
    refine Nat.div_eq_of_lt_le ?_ ?_
    · rw [Nat.add_mul, Nat.one_mul]
      omega
    · rw [Nat.add_mul, Nat.add_mul, Nat.one_mul]
      omega

end Runs

/-! ## The system -/

structure PoolSys where
  world : World
  pools : PoolAllocator := fun _ => {}
  out : Nat → List Nat := fun _ => []
  cut : Nat → List Nat := fun _ => []
  stack : Nat → List Nat := fun _ => []
  peak : Nat → Nat := fun _ => 0

inductive PoolCall where
  | allocateBlock (classIndex : Nat)
  | allocateBatch (classIndex room : Nat)
  | freeBlock (classIndex block : Nat)
  | freeBatch (classIndex : Nat) (blocks : List Nat)
  | write (classIndex block addr : Nat) (value : UInt8)
  deriving DecidableEq, Repr

namespace PoolSys

/-- The blocks `bs` are handed out. -/
def handOut (s : PoolSys) (c : Nat) (bs : List Nat) (w : World) (pools : PoolAllocator) : PoolSys where
  world := w
  pools := pools
  out := Function.update s.out c (bs ++ s.out c)
  cut := Function.update s.cut c (s.cut c ++ bs.filter fun b => decide (b ∉ s.cut c))
  stack := Function.update s.stack c ((s.stack c).drop bs.length)
  peak := Function.update s.peak c (max (s.peak c) (bs ++ s.out c).length)

/-- The blocks `bs` are returned. -/
def takeBack (s : PoolSys) (c : Nat) (bs : List Nat) (w : World) (pools : PoolAllocator) : PoolSys :=
  { s with
    world := w
    pools := pools
    out := Function.update s.out c ((s.out c).diff bs)
    stack := Function.update s.stack c (bs.reverse ++ s.stack c) }

/-- One call. Only blocks that are out are freed, each once. -/
def step (s : PoolSys) : PoolCall → Option PoolSys
  | .allocateBlock c =>
    if c < kClassCount then
      let r := allocateBlock s.world s.pools c
      some (s.handOut c r.1.toList r.2.1 r.2.2)
    else none
  | .allocateBatch c room =>
    if c < kClassCount then
      let r := allocateBatch s.world s.pools c room
      some (s.handOut c r.1 r.2.1 r.2.2)
    else none
  | .freeBlock c b =>
    if c < kClassCount ∧ b ∈ s.out c then
      let r := freeBlock s.world s.pools c b
      some (s.takeBack c [b] r.1 r.2)
    else none
  | .freeBatch c bs =>
    if c < kClassCount ∧ bs.Nodup ∧ ∀ b ∈ bs, b ∈ s.out c then
      let r := freeBatch s.world s.pools c bs
      some (s.takeBack c bs r.1 r.2)
    else none
  | .write c b addr value =>
    if c < kClassCount ∧ b ∈ s.out c ∧ b ≤ addr ∧ addr < b + blockStride c then
      some { s with world := { s.world with mem := Function.update s.world.mem addr value } }
    else none

/-- A pool that has not been used. -/
def start (w : World) : PoolSys := { world := w }

def places (s : PoolSys) : Places := fun c p =>
  match p with
  | .free => s.stack c
  | .client => s.out c
  | _ => []

/-- The books of a class are right. -/
structure Booked (s : PoolSys) (c : Nat) : Prop where
  cut : s.cut c = carved (blockStride c) (s.pools c)
  peak : s.peak c = (s.cut c).length
  runs : RunsOk (runBytes s.world.page) (blockStride c) (s.pools c)

structure Good (s : PoolSys) : Prop where
  pools : PoolsOk s.world s.pools s.places []
  booked : ∀ c < 30, s.Booked c

section Good
variable {s s' : PoolSys} {c : Nat}

theorem Good.word (h : s.Good) (hc : c < 30) {b : Nat} (hb : b ∈ s.cut c) : 0 < b ∧ b < 2 ^ 64 := by
  have hs := blockStride_bounds c hc
  have := h.pools.block_ok hc (by rwa [← (h.booked c hc).cut])
  omega

/-- A cut block is out, or on the stack. -/
theorem Good.perm (h : s.Good) (hc : c < 30) : (s.stack c ++ s.out c).Perm (s.cut c) := by
  have hp := h.pools.parts c hc
  rw [(h.booked c hc).cut]
  have hnd : (s.stack c ++ s.out c).Nodup := by
    refine List.nodup_append'.mpr ⟨hp.once .free, hp.once .client, fun b hb hb' => ?_⟩
    cases hp.apart .free .client b hb hb'
  refine (List.perm_ext_iff_of_nodup hnd hp.nodup).mpr fun b => ?_
  rw [hp.cover b, List.mem_append]
  constructor
  · rintro (hb | hb)
    · exact ⟨.free, hb⟩
    · exact ⟨.client, hb⟩
  · rintro ⟨p, hb⟩
    cases p with
    | free => exact Or.inl hb
    | client => exact Or.inr hb
    | cached t => cases hb
    | flight t => cases hb

/-- A shard keeps less than `2^64` blocks, so `size_` has not wrapped. -/
theorem Good.stack_length (h : s.Good) (hc : c < 30) : (s.stack c).length < 2 ^ 64 := by
  have hin : ∀ b ∈ s.stack c, 0 < b ∧ b < 2 ^ 64 := fun b hb =>
    h.word hc ((h.perm hc).mem_iff.mp (List.mem_append_left _ hb))
  have hnd : (0 :: s.stack c).Nodup := by
    refine List.nodup_cons.mpr ⟨fun h0 => ?_, (h.pools.parts c hc).once .free⟩
    exact absurd (hin 0 h0).1 (Nat.lt_irrefl 0)
  have hsub : (0 :: s.stack c) ⊆ List.range (2 ^ 64) := by
    intro b hb
    rcases List.mem_cons.mp hb with rfl | hb
    · exact List.mem_range.mpr (Nat.two_pow_pos 64)
    · exact List.mem_range.mpr (hin b hb).2
  have hle := (List.subperm_of_subset hnd hsub).length_le
  rw [List.length_range, List.length_cons] at hle
  omega

theorem Good.start {w : World} (hw : w.Ok) (hm : w.mapped = []) : (start w).Good := by
  refine ⟨⟨hw, ?_, fun c hc => ⟨rfl, rfl, Or.inl ⟨rfl, rfl⟩⟩, fun c hc => ?_⟩, fun c hc => ⟨rfl, rfl, ?_⟩⟩
  · change w.mapped.Perm _
    rw [hm]
    simp [allRuns, PoolSys.start]
  · refine ⟨List.nodup_nil, fun p => ?_, fun p q b hb _ => ?_, fun b => ?_⟩
    · cases p <;> exact List.nodup_nil
    · cases p <;> cases hb
    · refine ⟨fun hb => (by cases hb), ?_⟩
      rintro ⟨p, hb⟩
      cases p <;> cases hb
  · refine ⟨fun r hr => (by cases hr), fun rs r hr => ?_⟩
    exact absurd (congrArg List.length hr) (by simp [PoolSys.start])

/-- The blocks a call has taken are first the top of the stack, then new ones. -/
theorem taken_split {stride room : Nat} {shard shard' : Shard} {free free' bs : List Nat}
    (ht : Took stride shard shard' free free' bs) (hlen : bs.length ≤ room)
    (hshort : bs.length < room → free' = []) :
    ∃ fresh, bs = free.take room ++ fresh ∧ (fresh ≠ [] → free.length < room) := by
  obtain ⟨popped, fresh, rfl, rfl, -, hnew⟩ := ht.split
  rw [List.length_append] at hlen hshort
  by_cases h0 : fresh = []
  · subst h0
    refine ⟨[], ?_, by simp⟩
    rcases Nat.lt_or_ge popped.length room with hlt | hge
    · simp only [hshort (by simpa using hlt), List.append_nil]
      rw [List.take_of_length_le (by omega)]
    · rw [List.length_nil] at hlen
      rw [List.take_append_of_le_length (by omega), List.take_of_length_le (by omega)]
  · have hpos := List.length_pos_of_ne_nil h0
    rw [hnew h0, List.append_nil]
    refine ⟨fresh, by rw [List.take_of_length_le (by omega)], fun _ => by omega⟩

/-- **Blocks are handed out.** New ones are cut only while the stack is empty. -/
theorem Good.handOut (h : s.Good) (hc : c < 30) {bs free' : List Nat} {w' : World} {shard' : Shard}
    (hp : PoolsOk w' (Function.update s.pools c shard')
      (moveTo s.places c .free .client free' (bs ++ s.places c .client)) [])
    (ht : Took (blockStride c) (s.pools c) shard' (s.stack c) free' bs) (hpage : w'.page = s.world.page)
    (hruns : RunsOk (runBytes s.world.page) (blockStride c) shard') :
    (s.handOut c bs w' (Function.update s.pools c shard')).Good := by
  have hb := h.booked c hc
  have hperm := h.perm hc
  obtain ⟨popped, fresh, rfl, hstack, hcv, hnew⟩ := ht.split
  have hdrop : (s.stack c).drop (popped ++ fresh).length = free' := by
    rw [hstack]
    by_cases h0 : fresh = []
    · rw [h0, List.append_nil, List.drop_left]
    · rw [hnew h0, List.append_nil, List.drop_of_length_le (by simp)]
  have hcut : s.cut c ++ (popped ++ fresh).filter (fun b => decide (b ∉ s.cut c)) =
      carved (blockStride c) shard' := by
    have hnd : (s.cut c ++ fresh).Nodup := by
      have := (hp.parts c hc).nodup
      rwa [Function.update_self, hcv, ← hb.cut] at this
    have hold : popped.filter (fun b => decide (b ∉ s.cut c)) = [] := by
      refine List.filter_eq_nil_iff.mpr fun b hbp => ?_
      have : b ∈ s.cut c := hperm.mem_iff.mp (by rw [hstack]; simp [hbp])
      simpa using this
    have hfresh : fresh.filter (fun b => decide (b ∉ s.cut c)) = fresh := by
      refine List.filter_eq_self.mpr fun b hbf => decide_eq_true fun hbc => ?_
      exact (List.nodup_append'.mp hnd).2.2 hbc hbf
    rw [List.filter_append, hold, hfresh, List.nil_append, hb.cut, hcv]
  have hplaces : moveTo s.places c .free .client free' (popped ++ fresh ++ s.places c .client) =
      (s.handOut c (popped ++ fresh) w' (Function.update s.pools c shard')).places := by
    funext d p
    unfold PoolSys.handOut
    by_cases hd : d = c
    · subst hd
      cases p with
      | free =>
        rw [moveTo_src _ _ (by simp)]
        simp only [places, Function.update_self]
        exact hdrop.symm
      | client =>
        rw [moveTo_dst]
        simp only [places, Function.update_self]
      | cached t => exact moveTo_else _ _ (by simp) (by simp)
      | flight t => exact moveTo_else _ _ (by simp) (by simp)
    · rw [moveTo_other _ _ hd]
      simp only [places, Function.update_of_ne hd]
  rw [hplaces] at hp
  refine ⟨hp, fun d hd => ?_⟩
  unfold PoolSys.handOut
  by_cases hdc : d = c
  · subst hdc
    refine ⟨?_, ?_, ?_⟩
    · simp only [Function.update_self]
      exact hcut
    · simp only [Function.update_self]
      rw [hcut, hcv, ← hb.cut, hb.peak, List.length_append, List.length_append, List.length_append]
      have hlen := hperm.length_eq
      rw [hstack, List.length_append, List.length_append] at hlen
      by_cases h0 : fresh = []
      · rw [h0, List.length_nil]
        omega
      · rw [hnew h0, List.length_nil] at hlen
        omega
    · simp only [Function.update_self, hpage]
      exact hruns
  · refine ⟨?_, ?_, ?_⟩
    · simp only [Function.update_of_ne hdc]
      exact (h.booked d hd).cut
    · simp only [Function.update_of_ne hdc]
      exact (h.booked d hd).peak
    · simp only [Function.update_of_ne hdc, hpage]
      exact (h.booked d hd).runs

/-- **Blocks are returned.** -/
theorem Good.takeBack (h : s.Good) (hc : c < 30) {bs : List Nat} (hnd : bs.Nodup)
    (hbs : ∀ b ∈ bs, b ∈ s.out c) :
    (s.takeBack c bs (freeBatch s.world s.pools c bs).1 (freeBatch s.world s.pools c bs).2).Good := by
  have hsplit : (s.places c .client).Perm (bs ++ (s.out c).diff bs) :=
    (List.subperm_append_diff_self_of_count_le fun b hb => by
      rw [List.count_eq_one_of_mem hnd hb]
      exact List.one_le_count_iff.mpr (hbs b hb)).symm
  obtain ⟨hp, -, hpage, -⟩ := h.pools.freeBatch hc (by simp) hsplit
  have hplaces : moveTo s.places c .client .free ((s.out c).diff bs) (bs.reverse ++ s.places c .free) =
      (s.takeBack c bs (freeBatch s.world s.pools c bs).1 (freeBatch s.world s.pools c bs).2).places := by
    funext d p
    unfold PoolSys.takeBack
    by_cases hd : d = c
    · subst hd
      cases p with
      | free =>
        rw [moveTo_dst]
        simp only [places, Function.update_self]
      | client =>
        rw [moveTo_src _ _ (by simp)]
        simp only [places, Function.update_self]
      | cached t => exact moveTo_else _ _ (by simp) (by simp)
      | flight t => exact moveTo_else _ _ (by simp) (by simp)
    · rw [moveTo_other _ _ hd]
      simp only [places, Function.update_of_ne hd]
  rw [hplaces] at hp
  refine ⟨hp, fun d hd => ?_⟩
  have hb := h.booked d hd
  -- only the free list of a shard changes
  have hsame : (freeBatch s.world s.pools c bs).2 d =
      { s.pools d with freeList := ((freeBatch s.world s.pools c bs).2 d).freeList } := by
    unfold freeBatch
    by_cases hdc : d = c
    · subst hdc
      simp only [Function.update_self]
    · simp only [Function.update_of_ne hdc]
  refine ⟨hb.cut.trans ?_, hb.peak, ?_⟩
  · change carved (blockStride d) (s.pools d) = carved (blockStride d) ((freeBatch s.world s.pools c bs).2 d)
    rw [hsame]
    rfl
  · change RunsOk (runBytes (freeBatch s.world s.pools c bs).1.page) (blockStride d)
      ((freeBatch s.world s.pools c bs).2 d)
    rw [hsame, hpage]
    exact ⟨hb.runs.bytes, hb.runs.started⟩

theorem Good.batch (h : s.Good) (hc : c < 30) (room : Nat) :
    (s.handOut c (allocateBatch s.world s.pools c room).1 (allocateBatch s.world s.pools c room).2.1
      (allocateBatch s.world s.pools c room).2.2).Good ∧
    ∃ fresh, (allocateBatch s.world s.pools c room).1 = (s.stack c).take room ++ fresh ∧
      (fresh ≠ [] → (s.stack c).length < room) := by
  obtain ⟨bs, w', pools', free', he, hp, -, hlen, hshort, ht⟩ :=
    h.pools.allocateBatch hc (show Place.client ≠ .free by simp) room
  have hruns := takeBatch_runs room (h.booked c hc).runs
  have hunfold := he
  unfold allocateBatch at hunfold
  obtain ⟨h1, h2⟩ := Prod.mk.inj hunfold
  obtain ⟨h3, h4⟩ := Prod.mk.inj h2
  have hpools : pools' = Function.update s.pools c (pools' c) := by
    rw [← h4, Function.update_self]
  have hbatch : takeBatch (blockStride c) room s.world (s.pools c) = (bs, w', pools' c) := by
    rw [← h1, ← h3, ← h4, Function.update_self]
  rw [hbatch] at hruns
  rw [he]
  refine ⟨?_, taken_split ht hlen fun hlt => (hshort hlt).2⟩
  dsimp only
  rw [hpools] at hp ⊢
  exact h.handOut hc hp ht hruns.1 hruns.2

/-- `allocateBlock` is a batch with one slot. -/
theorem allocateBlock_eq (w : World) (pools : PoolAllocator) (c : Nat) :
    (allocateBlock w pools c).1.toList = (allocateBatch w pools c 1).1 ∧
      (allocateBlock w pools c).2 = (allocateBatch w pools c 1).2 := by
  unfold allocateBlock allocateBatch takeBatch
  generalize takeBlock w (pools c) (blockStride c) = q
  obtain ⟨o, w', shard'⟩ := q
  cases o with
  | none => exact ⟨rfl, rfl⟩
  | some b => exact ⟨rfl, rfl⟩

theorem Good.step (h : s.Good) {call : PoolCall} (hs : s.step call = some s') : s'.Good := by
  cases call with
  | allocateBlock c =>
    unfold PoolSys.step at hs
    dsimp only at hs
    split at hs
    · rename_i hc
      obtain ⟨h1, h2⟩ := allocateBlock_eq s.world s.pools c
      rw [h1, h2] at hs
      cases hs
      exact (h.batch hc 1).1
    · cases hs
  | allocateBatch c room =>
    unfold PoolSys.step at hs
    dsimp only at hs
    split at hs
    · rename_i hc
      cases hs
      exact (h.batch hc room).1
    · cases hs
  | freeBlock c b =>
    unfold PoolSys.step at hs
    dsimp only at hs
    split at hs
    · rename_i hc
      cases hs
      rw [freeBlock_eq]
      exact h.takeBack hc.1 (List.nodup_singleton b) (by simpa using hc.2)
    · cases hs
  | freeBatch c bs =>
    unfold PoolSys.step at hs
    dsimp only at hs
    split at hs
    · rename_i hc
      cases hs
      exact h.takeBack hc.1 hc.2.1 hc.2.2
    · cases hs
  | write c b addr value =>
    unfold PoolSys.step at hs
    dsimp only at hs
    split at hs
    · rename_i hc
      cases hs
      refine ⟨h.pools.write hc.1 (show Place.client ≠ .free by simp) hc.2.1 fun x hx => ?_,
        fun d hd => ⟨(h.booked d hd).cut, (h.booked d hd).peak, (h.booked d hd).runs⟩⟩
      refine Function.update_of_ne ?_ _ _
      rintro rfl
      exact hx ⟨hc.2.2.1, hc.2.2.2⟩
    · cases hs

theorem good_of_run {mem : Mem} {page : PageSize} {answers : List (Option Nat)} {calls : List PoolCall}
    (hrun : runFrom PoolSys.step (PoolSys.start (World.boot mem page answers)) calls = some s) : s.Good :=
  run_invariant (fun _ _ _ h hs => h.step hs) (Good.start (World.boot_ok mem page answers) rfl) hrun

end Good

/-! ## The mark -/

/-- What holds of class `c` after every sequence of calls. -/
structure HighWater (s : PoolSys) (c : Nat) : Prop where
  /-- As many blocks were cut as were ever out at once. -/
  mark : (s.cut c).length = s.peak c
  /-- Each run but the last gave all the blocks that fit, one after the other. -/
  order : ((s.pools c).runs = [] ∧ s.cut c = []) ∨
    ∃ rs r n, (s.pools c).runs = rs ++ [r] ∧ 1 ≤ n ∧ n ≤ runBytes s.world.page / blockStride c ∧
      s.cut c = (rs.flatMap fun r => blocksIn (blockStride c) r (runBytes s.world.page / blockStride c)) ++
        blocksIn (blockStride c) r n
  bytes : ∀ r ∈ (s.pools c).runs, r.size = runBytes s.world.page
  runs : (s.pools c).runs.length =
    ((s.cut c).length + runBytes s.world.page / blockStride c - 1) / (runBytes s.world.page / blockStride c)
  apart : (s.cut c).Pairwise (Apart (blockStride c))
  inside : ∀ b ∈ s.cut c, ∃ r ∈ (s.pools c).runs, Span.Inside ⟨b, blockStride c⟩ r
  /-- The free list is the stack, null-terminated and without a cycle. -/
  chain : Chain (FreeList.next s.world.mem) (s.pools c).freeList.head (s.stack c) ∧ (s.stack c).Nodup
  free : (s.stack c ++ s.out c).Perm (s.cut c)
  size : (s.pools c).freeList.size = (s.stack c).length
  /-- The next blocks are those on top of the stack. -/
  pop : ∀ room, ∃ fresh, (allocateBatch s.world s.pools c room).1 = (s.stack c).take room ++ fresh ∧
    (fresh ≠ [] → (s.stack c).length < room)
  popOne : ∀ b rest, s.stack c = b :: rest → (allocateBlock s.world s.pools c).1 = some b

end PoolSys

/-- **Pools never grow past the high-water mark.** -/
theorem high_water_of_run {mem : Mem} {page : PageSize} {answers : List (Option Nat)}
    {calls : List PoolCall} {s : PoolSys}
    (hrun : runFrom PoolSys.step (PoolSys.start (World.boot mem page answers)) calls = some s)
    {c : Nat} (hc : c < kClassCount) : s.HighWater c := by
  have h := PoolSys.good_of_run hrun
  have hb := h.booked c hc
  have hsh := h.pools.shard c hc
  have hs : 0 < blockStride c := by
    have := blockStride_bounds c hc
    omega
  refine ⟨hb.peak.symm, ?_, hb.runs.bytes, ?_, ?_, fun b hbc => ?_, ⟨hsh.chain, hsh.chain.nodup⟩,
    h.perm hc, ?_, fun room => (h.batch hc room).2, fun b rest hst => ?_⟩
  · rw [hb.cut]
    exact carved_runs hs hsh.bump hb.runs
  · rw [hb.cut]
    exact runs_length hs hsh.bump hb.runs
  · rw [hb.cut]
    exact h.pools.carved_apart hc
  · exact h.pools.inside hc (by rwa [← hb.cut])
  · rw [hsh.size]
    exact Nat.mod_eq_of_lt (h.stack_length hc)
  · obtain ⟨fresh, hbatch, hnew⟩ := (h.batch hc 1).2
    have hnil : fresh = [] := by
      by_contra h0
      have := hnew h0
      rw [hst, List.length_cons] at this
      omega
    have hlist := (PoolSys.allocateBlock_eq s.world s.pools c).1
    rw [hbatch, hnil, hst] at hlist
    simpa using hlist

/-- Three blocks of a class out, two back, one out again. -/
theorem high_water_of_run_reuse : ∃ s, runFrom PoolSys.step (PoolSys.start smallWorld)
      [.allocateBatch 0 3, .freeBatch 0 [65536, 65568], .allocateBlock 0] = some s ∧
    s.HighWater 0 ∧ s.peak 0 = 3 ∧ s.stack 0 = [65536] := by
  have hrun : (runFrom PoolSys.step (PoolSys.start smallWorld)
      [.allocateBatch 0 3, .freeBatch 0 [65536, 65568], .allocateBlock 0]).map
        (fun s => (s.peak 0, s.stack 0)) = some (3, [65536]) := by
    decide +kernel
  obtain ⟨s, hs, hv⟩ := Option.map_eq_some_iff.mp hrun
  obtain ⟨hpeak, hstack⟩ := Prod.mk.inj hv
  exact ⟨s, hs, high_water_of_run hs (by decide), hpeak, hstack⟩

end MAlloc.Small
