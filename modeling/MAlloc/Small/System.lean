/-
  The small tier with any number of threads.

  A step is one critical section of a shard, or one thread-local part of a call: between the two
  a thread's `Pc` says where in `rawAllocate`, `rawDeallocate` or `ThreadCache` it stands. A call
  uses the thread's cache or the pools directly, as `threadCache()` decides. A block may be freed
  by another thread than the one that allocated it, clients write into what they hold, a thread
  may exit, and the OS may refuse any run.

  `SmallSys.Good` is the invariant: every carved block of a class is in one place. A thread that has
  given the top 16 slots back and has not yet lowered `count` still shows them below `count`;
  they count as given back (`Pc.counted`).
-/
import MAlloc.Small.Cache
import MAlloc.Lib.Run

namespace MAlloc.Small

open Lib PoolAllocator SizeClassTable SystemMemory

/-! ## The system -/

/-- Where a thread stands between two steps. -/
inductive Pc where
  | idle
  /-- `ThreadCache::allocateBlock` found `count == 0` and is about to call `allocateBatch`. -/
  | refilling (size : Nat)
  /-- `allocateBatch` has stored `n` blocks; `count` is not assigned yet. -/
  | filling (size n : Nat)
  /-- About to call `PoolAllocator::allocateBlock`. -/
  | drawing (size : Nat)
  /-- A block is served; its header is not written yet. -/
  | fresh (size block : Nat)
  /-- `ThreadCache::freeBlock` found `count == kCapacity` and is about to call `freeBatch`. -/
  | overflowing (classIndex block : Nat)
  /-- `freeBatch` has returned; `count` is not lowered yet. -/
  | dropping (classIndex block : Nat)
  /-- About to call `PoolAllocator::freeBlock`. -/
  | releasing (classIndex block : Nat)
  deriving DecidableEq, Repr

/-- An allocation a client holds, with the class chosen when it was made. -/
structure Held where
  user : Nat
  size : Nat
  cls : Nat
  deriving DecidableEq, Repr

def Held.block (h : Held) : Nat := headerOf h.user

structure SmallSys where
  world : World
  pools : PoolAllocator := fun _ => {}
  caches : Caches := fun _ => ThreadCache.empty
  pcs : Nat → Pc := fun _ => .idle
  held : List Held := []

inductive SmallEvent where
  | beginAlloc (t size : Nat) (useCache : Bool)
  | beginFree (t user : Nat) (useCache : Bool)
  | critical (t : Nat)
  | thread (t : Nat)
  | exit (t : Nat)
  | write (addr : Nat) (value : UInt8)
  deriving DecidableEq, Repr

namespace SmallSys

def goto (s : SmallSys) (t : Nat) (pc : Pc) : SmallSys := { s with pcs := Function.update s.pcs t pc }

/-- The header `rawAllocate` writes. -/
def smallHeader (size : Nat) : BlockHeader := ⟨size, Tier.Small.code, kStateAllocated, 0⟩

/-- The thread-local beginning of `rawAllocate(size)`, `size <= kSmallMax`. -/
def beginAlloc (s : SmallSys) (t size : Nat) (useCache : Bool) : SmallSys :=
  let c := classIndex size
  if useCache then
    if (s.caches t c).count = 0 then s.goto t (.refilling size)
    else { s.goto t (.fresh size (s.caches t c).take.1) with
      caches := setCache s.caches t c (s.caches t c).take.2 }
  else s.goto t (.drawing size)

/-- `rawDeallocate` marks the block freed and looks at the cache for class `c`. -/
def giveBack (s : SmallSys) (t c : Nat) (h : Held) (useCache : Bool) : SmallSys :=
  let s := { s with
    world := { s.world with mem := BlockHeader.setState s.world.mem h.block kStateFreed }
    held := s.held.erase h }
  if useCache then
    if (s.caches t c).count = kCapacity then s.goto t (.overflowing c h.block)
    else { s with caches := setCache s.caches t c ((s.caches t c).put h.block) }
  else s.goto t (.releasing c h.block)

/-- The thread-local beginning of `rawDeallocate`; the class is read from the header. -/
def beginFree (s : SmallSys) (t : Nat) (h : Held) (useCache : Bool) : SmallSys :=
  s.giveBack t (classIndex (BlockHeader.load s.world.mem h.block).payloadSize) h useCache

/-- The critical section a thread stands before. -/
def critical (s : SmallSys) (t : Nat) : Option SmallSys :=
  match s.pcs t with
  | .refilling size =>
    let c := classIndex size
    let r := allocateBatch s.world s.pools c kBatchSize
    some { s.goto t (.filling size r.1.length) with
      world := r.2.1, pools := r.2.2
      caches := setCache s.caches t c ((s.caches t c).stored r.1) }
  | .drawing size =>
    let r := allocateBlock s.world s.pools (classIndex size)
    let s := { s with world := r.2.1, pools := r.2.2 }
    match r.1 with
    | some block => some (s.goto t (.fresh size block))
    | none => some (s.goto t .idle)
  | .overflowing c block =>
    let r := freeBatch s.world s.pools c ((s.caches t c).window 48 16)
    some { s.goto t (.dropping c block) with world := r.1, pools := r.2 }
  | .releasing c block =>
    let r := freeBlock s.world s.pools c block
    some { s.goto t .idle with world := r.1, pools := r.2 }
  | _ => none

/-- The thread-local part a thread stands before. -/
def thread (s : SmallSys) (t : Nat) : Option SmallSys :=
  match s.pcs t with
  | .filling size n =>
    let c := classIndex size
    let k : ClassCache := { s.caches t c with count := n }
    if n = 0 then some { s.goto t .idle with caches := setCache s.caches t c k }
    else some { s.goto t (.fresh size k.take.1) with caches := setCache s.caches t c k.take.2 }
  | .fresh size block =>
    let user := userPointerOf block
    some { s.goto t .idle with
      world := { s.world with mem := BlockHeader.store s.world.mem (headerOf user) (smallHeader size) }
      held := ⟨user, size, classIndex size⟩ :: s.held }
  | .dropping c block =>
    let k : ClassCache := { s.caches t c with count := kCapacity - kBatchSize }
    some { s.goto t .idle with caches := setCache s.caches t c (k.put block) }
  | _ => none

def step (s : SmallSys) : SmallEvent → Option SmallSys
  | .beginAlloc t size useCache =>
    if s.pcs t = .idle ∧ size ≤ kSmallMax then some (s.beginAlloc t size useCache) else none
  | .beginFree t user useCache =>
    if s.pcs t = .idle then
      (s.held.find? fun h => decide (h.user = user)).map fun h => s.beginFree t h useCache
    else none
  | .critical t => s.critical t
  | .thread t => s.thread t
  | .exit t =>
    if s.pcs t = .idle then
      let r := ThreadCache.flush (s.caches t) s.world s.pools
      some { s with
        world := r.1, pools := r.2, caches := Function.update s.caches t ThreadCache.empty }
    else none
  | .write addr value =>
    if s.held.any fun h => decide (h.user ≤ addr ∧ addr < h.user + h.size) then
      some { s with world := { s.world with mem := Function.update s.world.mem addr value } }
    else none

/-! ## Places -/

end SmallSys

/-- How many slots of the thread's cache for class `c` hold cached blocks: those below `count`,
    or below `keep` when the thread has given the top batch back and not yet lowered `count`. -/
def Pc.counted (cache : ThreadCache) (c : Nat) : Pc → Nat
  | .dropping d _ => if d = c then kCapacity - kBatchSize else (cache c).count
  | _ => (cache c).count

/-- The blocks of class `c` in flight inside the thread's call. -/
def Pc.blocks (cache : ThreadCache) (c : Nat) : Pc → List Nat
  | .filling size n => if classIndex size = c then (cache c).below n else []
  | .fresh size b => if classIndex size = c then [b] else []
  | .overflowing d b => if d = c then [b] else []
  | .dropping d b => if d = c then [b] else []
  | .releasing d b => if d = c then [b] else []
  | _ => []

/-- What a thread's position says of its cache. -/
def Pc.Ok (cache : ThreadCache) : Pc → Prop
  | .idle => True
  | .refilling size => size ≤ kSmallMax ∧ (cache (classIndex size)).count = 0
  | .filling size n => size ≤ kSmallMax ∧ (cache (classIndex size)).count = 0 ∧ n ≤ kBatchSize
  | .drawing size => size ≤ kSmallMax
  | .fresh size _ => size ≤ kSmallMax
  | .overflowing c _ => c < 30 ∧ (cache c).count = kCapacity
  | .dropping c _ => c < 30 ∧ (cache c).count = kCapacity
  | .releasing c _ => c < 30

/-- The cache with `count` as `counted` has it. -/
def Pc.view (cache : ThreadCache) (pc : Pc) : ThreadCache :=
  fun c => { cache c with count := pc.counted cache c }

/-- The thread is not between its overflow `freeBatch` and the lowering of `count`. -/
def Pc.Settled : Pc → Prop
  | .dropping _ _ => False
  | _ => True

theorem Pc.view_of_settled {pc : Pc} (h : pc.Settled) (cache : ThreadCache) : pc.view cache = cache := by
  cases pc with
  | dropping d b => exact absurd h id
  | _ => rfl

theorem Pc.view_dropping (cache : ThreadCache) (c b : Nat) : (Pc.dropping c b).view cache =
    Function.update cache c { cache c with count := 48 } := by
  funext d
  by_cases hd : c = d
  · subst hd
    rw [Function.update_self]
    simp only [Pc.view, Pc.counted, if_pos]
    rfl
  · rw [Function.update_of_ne (Ne.symm hd)]
    simp only [Pc.view, Pc.counted, if_neg hd]

namespace SmallSys

/-- The blocks of class `c` with clients. -/
def clientBlocks (s : SmallSys) (c : Nat) : List Nat :=
  (s.held.filter fun h => decide (h.cls = c)).map Held.block

def views (s : SmallSys) : Caches := fun t => (s.pcs t).view (s.caches t)

end SmallSys

open SmallSys

/-- The header of what a client holds is as `rawAllocate` wrote it. -/
structure HeldOk (m : Mem) (h : Held) : Prop where
  size : h.size ≤ kSmallMax
  cls : h.cls = classIndex h.size
  user : h.user = h.block + 16
  header : BlockHeader.load m h.block = smallHeader h.size

structure SmallSys.Good (others : List Span) (s : SmallSys) (parts : Places) : Prop where
  small : SmallOk s.world s.pools s.views parts others
  flight : ∀ t, ∀ c < 30, parts c (.flight t) = (s.pcs t).blocks (s.caches t) c
  client : ∀ c < 30, (parts c .client).Perm (s.clientBlocks c)
  pcs : ∀ t, (s.pcs t).Ok (s.caches t)
  held : ∀ h ∈ s.held, HeldOk s.world.mem h

/-! ## One thread moves, the others stay -/

section Stay
variable {s s' : SmallSys} {t c : Nat} {others : List Span} {parts parts' : Places} {pc : Pc}
  {cache : ThreadCache}

/-- Thread `t` goes to `pc` with the cache `cache`; the other threads stay. -/
theorem SmallSys.Good.of_thread (h : s.Good others parts) (hpcs : s'.pcs = Function.update s.pcs t pc)
    (hcaches : s'.caches = Function.update s.caches t cache)
    (hsmall : SmallOk s'.world s'.pools (Function.update s.views t (pc.view cache)) parts' others)
    (hmine : ∀ c < 30, parts' c (.flight t) = pc.blocks cache c)
    (hflight : ∀ u, u ≠ t → ∀ c < 30, parts' c (.flight u) = parts c (.flight u))
    (hclient : ∀ c < 30, (parts' c .client).Perm (s'.clientBlocks c)) (hpc : pc.Ok cache)
    (hheld : ∀ h ∈ s'.held, HeldOk s'.world.mem h) : s'.Good others parts' := by
  have hview : s'.views = Function.update s.views t (pc.view cache) := by
    funext u
    unfold SmallSys.views
    rw [hpcs, hcaches]
    by_cases hu : u = t
    · subst hu
      rw [Function.update_self, Function.update_self, Function.update_self]
    · rw [Function.update_of_ne hu, Function.update_of_ne hu, Function.update_of_ne hu]
  refine ⟨by rw [hview]; exact hsmall, fun u d hd => ?_, hclient, fun u => ?_, hheld⟩
  · rw [hpcs, hcaches]
    by_cases hu : u = t
    · subst hu
      rw [Function.update_self, Function.update_self]
      exact hmine d hd
    · rw [Function.update_of_ne hu, Function.update_of_ne hu, hflight u hu d hd, h.flight u d hd]
  · rw [hpcs, hcaches]
    by_cases hu : u = t
    · subst hu
      rw [Function.update_self, Function.update_self]
      exact hpc
    · rw [Function.update_of_ne hu, Function.update_of_ne hu]
      exact h.pcs u

theorem HeldOk.congr {m m' : Mem} {h : Held} (hh : HeldOk m h) (hm : SameOn m m' h.block 16) :
    HeldOk m' h :=
  ⟨hh.size, hh.cls, hh.user, (BlockHeader.load_congr hm).trans hh.header⟩

/-- What a client holds is a block of the class it was allocated from. -/
theorem SmallSys.Good.held_mem (h : s.Good others parts) {a : Held} (ha : a ∈ s.held) :
    a.cls < 30 ∧ a.block ∈ parts a.cls .client := by
  have hlt : a.cls < 30 := by
    rw [(h.held a ha).cls]
    exact classIndex_lt (h.held a ha).size
  refine ⟨hlt, (h.client a.cls hlt).mem_iff.mpr ?_⟩
  exact List.mem_map.mpr ⟨a, List.mem_filter.mpr ⟨ha, by simp⟩, rfl⟩

/-- Headers of held blocks survive what the clients' blocks survive. -/
theorem SmallSys.Good.held_keeps (h : s.Good others parts) {w' : World}
    (hk : SmallKeeps s.world w' parts others) : ∀ a ∈ s.held, HeldOk w'.mem a := by
  intro a ha
  obtain ⟨hc, hb⟩ := h.held_mem ha
  have hs := blockStride_bounds a.cls hc
  exact (h.held a ha).congr ((hk.blocks a.cls hc a.block hb).mono (Nat.le_refl _) (by omega))

/-- Headers of held blocks survive a write inside another block. -/
theorem SmallSys.Good.held_write (h : s.Good others parts) {d b : Nat} (hd : d < 30)
    (hb : b ∈ carved (blockStride d) (s.pools d)) {m' : Mem}
    (hm : ∀ x, ¬ (b ≤ x ∧ x < b + blockStride d) → m' x = s.world.mem x) {a : Held} (ha : a ∈ s.held)
    (hne : (a.cls, a.block) ≠ (d, b)) : HeldOk m' a := by
  obtain ⟨hc, hab⟩ := h.held_mem ha
  have hs := blockStride_bounds a.cls hc
  have hap := h.small.pools.apart hc hd (((h.small.pools.parts a.cls hc).cover _).mpr ⟨_, hab⟩) hb hne
  unfold Span.Disjoint at hap
  simp only at hap
  exact (h.held a ha).congr fun x h1 h2 => hm x (by omega)

/-- A place without part in a move stays as it was. -/
theorem moveTo_keep {p q r : Place} {rest l : List Nat} (hp : r ≠ p) (hq : r ≠ q) (d : Nat) :
    moveTo parts c p q rest l d r = parts d r := by
  by_cases hdc : d = c
  · subst hdc
    exact moveTo_else _ _ hp hq
  · rw [moveTo_other _ _ hdc]

/-- Blocks `bs` of class `c` arrive in a call that had none in flight. -/
theorem flight_arrive {p : Place} {r l : List Nat} (h : ∀ d < 30, parts d (.flight t) = []) :
    ∀ d < 30, moveTo parts c p (.flight t) r (l ++ parts c (.flight t)) d (.flight t) =
      if c = d then l else [] := by
  intro d hd
  by_cases hdc : c = d
  · subst hdc
    rw [moveTo_dst, h c hd, List.append_nil, if_pos rfl]
  · rw [moveTo_other _ _ (Ne.symm hdc), h d hd, if_neg hdc]

/-- The blocks in flight, all of class `c`, leave the call. -/
theorem flight_leave {q : Place} {r l : List Nat} (hq : q ≠ .flight t)
    (h : ∀ d < 30, parts d (.flight t) = if c = d then l else []) :
    ∀ d < 30, moveTo parts c (.flight t) q [] r d (.flight t) = [] := by
  intro d hd
  by_cases hdc : c = d
  · subst hdc
    rw [moveTo_src _ _ (Ne.symm hq)]
  · rw [moveTo_other _ _ (Ne.symm hdc), h d hd, if_neg hdc]

end Stay

/-! ## The steps of an allocation -/

section Alloc
variable {s s' : SmallSys} {t : Nat} {others : List Span} {parts : Places} {size : Nat}

/-- A thread without block in flight goes to another such position. -/
theorem SmallSys.Good.goto (h : s.Good others parts) {pc : Pc} (hset : (s.pcs t).Settled)
    (hset' : pc.Settled) (hnone : ∀ c < 30, parts c (.flight t) = []) 
    (hnone' : ∀ c < 30, pc.blocks (s.caches t) c = []) (hpc : pc.Ok (s.caches t)) :
    (s.goto t pc).Good others parts := by
  refine h.of_thread rfl (Function.update_eq_self t s.caches).symm ?_ (fun c hc => ?_)
    (fun _ _ _ _ => rfl) h.client hpc h.held
  · have hv : s.views t = pc.view (s.caches t) := by
      unfold SmallSys.views
      rw [Pc.view_of_settled hset, Pc.view_of_settled hset']
    rw [← hv, Function.update_eq_self]
    exact h.small
  · rw [hnone c hc, hnone' c hc]

theorem SmallSys.Good.views_settled (hset : (s.pcs t).Settled) : s.views t = s.caches t := by
  unfold SmallSys.views
  exact Pc.view_of_settled hset _

/-- A hit in the cache, or the decision to go to the pools. -/
theorem beginAlloc_good (h : s.Good others parts) (hidle : s.pcs t = .idle) (hsz : size ≤ kSmallMax)
    (useCache : Bool) : ∃ parts', (s.beginAlloc t size useCache).Good others parts' := by
  have hc : classIndex size < 30 := classIndex_lt hsz
  have hset : (s.pcs t).Settled := by rw [hidle]; trivial
  have hnone : ∀ c < 30, parts c (.flight t) = [] := fun c hc => by
    rw [h.flight t c hc, hidle]
    rfl
  have hv : s.views t = s.caches t := SmallSys.Good.views_settled hset
  unfold SmallSys.beginAlloc
  dsimp only
  by_cases huse : useCache = true
  · rw [if_pos huse]
    by_cases h0 : (s.caches t (classIndex size)).count = 0
    · rw [if_pos h0]
      exact ⟨parts, h.goto hset trivial hnone (fun _ _ => rfl) ⟨hsz, h0⟩⟩
    · rw [if_neg h0]
      have htake := h.small.take (t := t) (p := .flight t) hc
        (by rw [hv]; exact Nat.pos_of_ne_zero h0) (by simp) (by simp)
      unfold Small.setCache at htake
      rw [hv] at htake
      refine ⟨_, h.of_thread rfl rfl htake (flight_arrive (l := [_]) hnone) (fun u hu c _ => ?_)
        (fun c hc => ?_) hsz h.held⟩
      · exact moveTo_keep (by simp) (by simpa using hu) c
      · rw [moveTo_keep (by simp) (by simp)]
        exact h.client c hc
  · rw [if_neg huse]
    exact ⟨parts, h.goto hset trivial hnone (fun _ _ => rfl) hsz⟩

/-- The refill `allocateBatch`: the blocks are in the slots, in flight until `count` is assigned. -/
theorem refilling_good (h : s.Good others parts) (hp : s.pcs t = .refilling size)
    (hs : s.critical t = some s') : ∃ parts', s'.Good others parts' := by
  have hok := h.pcs t
  rw [hp] at hok
  obtain ⟨hsz, h0⟩ := hok
  have hc : classIndex size < 30 := classIndex_lt hsz
  have hset : (s.pcs t).Settled := by rw [hp]; trivial
  have hnone : ∀ c < 30, parts c (.flight t) = [] := fun c hc => by
    rw [h.flight t c hc, hp]
    rfl
  have hv : s.views t = s.caches t := SmallSys.Good.views_settled hset
  obtain ⟨bs, w', pools', free', he, hpools, hk, hlen, -⟩ :=
    h.small.pools.allocateBatch hc (p := .flight t) (by simp) kBatchSize
  unfold SmallSys.critical at hs
  rw [hp] at hs
  dsimp only at hs
  rw [he] at hs
  have hsmall := (h.small.keepCaches hpools (by simp) (by simp)).sameBelow (t := t) (c := classIndex size)
    (k := (s.caches t (classIndex size)).stored bs) hc
    (by rw [hv]; simp [ClassCache.stored, h0, ClassCache.below])
    (by rw [show ((s.caches t (classIndex size)).stored bs).count = 0 from h0]; exact Nat.zero_le _)
  unfold Small.setCache at hsmall
  rw [hv] at hsmall
  cases hs
  refine ⟨_, h.of_thread rfl rfl hsmall (fun c hc => ?_) (fun u hu c _ => ?_)
    (fun c hc => ?_) ⟨hsz, ?_, hlen⟩ (h.held_keeps (smallKeeps_of_mapped h.small.pools hk))⟩
  · rw [flight_arrive hnone c hc]
    by_cases hcc : classIndex size = c
    · subst hcc
      simp only [Pc.blocks, if_pos, Function.update_self]
      rw [below_stored]
    · simp only [Pc.blocks, if_neg hcc]
  · exact moveTo_keep (by simp) (by simpa using hu) c
  · rw [moveTo_keep (by simp) (by simp)]
    exact h.client c hc
  · rw [Function.update_self]
    exact h0

/-- `PoolAllocator::allocateBlock` for a thread without cache. -/
theorem drawing_good (h : s.Good others parts) (hp : s.pcs t = .drawing size)
    (hs : s.critical t = some s') : ∃ parts', s'.Good others parts' := by
  have hsz := h.pcs t
  rw [hp] at hsz
  have hc : classIndex size < 30 := classIndex_lt hsz
  have hset : (s.pcs t).Settled := by rw [hp]; trivial
  have hnone : ∀ c < 30, parts c (.flight t) = [] := fun c hc => by
    rw [h.flight t c hc, hp]
    rfl
  have hv : s.views t = s.caches t := SmallSys.Good.views_settled hset
  obtain ⟨o, w', pools', free', he, hpools, hk, -⟩ :=
    h.small.pools.allocateBlock hc (p := .flight t) (by simp)
  unfold SmallSys.critical at hs
  rw [hp] at hs
  dsimp only at hs
  rw [he] at hs
  have hsmall := h.small.keepCaches hpools (by simp) (by simp)
  have hup : s.views = Function.update s.views t (s.caches t) := by
    rw [← hv, Function.update_eq_self]
  rw [hup] at hsmall
  have hheld := h.held_keeps (smallKeeps_of_mapped h.small.pools hk)
  have hclient : ∀ c < 30, (moveTo parts (classIndex size) .free (.flight t) free'
      (o.toList ++ parts (classIndex size) (.flight t)) c .client).Perm (s.clientBlocks c) :=
    fun c hc => by
      rw [moveTo_keep (by simp) (by simp)]
      exact h.client c hc
  have hothers : ∀ u, u ≠ t → ∀ c < 30, moveTo parts (classIndex size) .free (.flight t) free'
      (o.toList ++ parts (classIndex size) (.flight t)) c (.flight u) = parts c (.flight u) :=
    fun u hu c _ => moveTo_keep (by simp) (by simpa using hu) c
  have hmine := flight_arrive (p := .free) (c := classIndex size) (r := free') (l := o.toList) hnone
  cases o with
  | none =>
    cases hs
    refine ⟨_, h.of_thread rfl (Function.update_eq_self t _).symm hsmall (fun c hc => ?_) hothers hclient
      (show Pc.Ok _ .idle from trivial) hheld⟩
    rw [hmine c hc]
    exact ite_self []
  | some block =>
    cases hs
    exact ⟨_, h.of_thread rfl (Function.update_eq_self t _).symm hsmall hmine hothers hclient hsz hheld⟩

/-- `cache.count = n`, and the top block of the refill, if there is one. -/
theorem filling_good {n : Nat} (h : s.Good others parts) (hp : s.pcs t = .filling size n)
    (hs : s.thread t = some s') : ∃ parts', s'.Good others parts' := by
  have hok := h.pcs t
  rw [hp] at hok
  obtain ⟨hsz, h0, hn⟩ := hok
  have hc : classIndex size < 30 := classIndex_lt hsz
  have hset : (s.pcs t).Settled := by rw [hp]; trivial
  have hv : s.views t = s.caches t := SmallSys.Good.views_settled hset
  have hfl : ∀ d < 30, parts d (.flight t) =
      if classIndex size = d then (s.caches t d).below n else [] := fun d hd => by
    rw [h.flight t d hd, hp]
    rfl
  have hfl' : ∀ d < 30, parts d (.flight t) =
      if classIndex size = d then (s.caches t (classIndex size)).below n else [] := fun d hd => by
    rw [hfl d hd]
    by_cases hdc : classIndex size = d
    · rw [if_pos hdc, if_pos hdc, hdc]
    · rw [if_neg hdc, if_neg hdc]
  unfold SmallSys.thread at hs
  rw [hp] at hs
  dsimp only at hs
  by_cases hz : n = 0
  · rw [if_pos hz] at hs
    cases hs
    have hsmall := h.small.sameBelow (t := t) (k := { s.caches t (classIndex size) with count := n }) hc
      (by rw [hv, h0, hz]; rfl) (hn.trans (by decide))
    unfold Small.setCache at hsmall
    rw [hv] at hsmall
    refine ⟨parts, h.of_thread rfl rfl hsmall (fun c hc => ?_) (fun _ _ _ _ => rfl) h.client
      (show Pc.Ok _ .idle from trivial) h.held⟩
    rw [hfl c hc, hz]
    exact ite_self []
  · rw [if_neg hz] at hs
    cases hs
    have hlen : ((s.caches t (classIndex size)).below n).length = n := by simp [ClassCache.below]
    have hfill := h.small.fill (t := t) (p := .flight t) (r := [])
      (l := (s.caches t (classIndex size)).below n) hc (by rw [hv]; exact h0) (by rw [hv, hlen])
      (by rw [hlen]; exact hn.trans (by decide)) (by simp) (by simp)
      (by rw [hfl _ hc, if_pos rfl, List.append_nil])
    have htake := hfill.take (t := t) (p := .flight t) hc
      (by rw [setCache_self, hlen]; exact Nat.pos_of_ne_zero hz) (by simp) (by simp)
    rw [setCache_self, setCache_setCache, hlen] at htake
    unfold Small.setCache at htake
    rw [hv] at htake
    refine ⟨_, h.of_thread rfl rfl htake (flight_arrive (l := [_]) (flight_leave (by simp) hfl'))
      (fun u hu c _ => ?_) (fun c hc => ?_) hsz h.held⟩
    · rw [moveTo_keep (by simp) (by simpa using hu), moveTo_keep (by simpa using hu) (by simp)]
    · rw [moveTo_keep (by simp) (by simp), moveTo_keep (by simp) (by simp)]
      exact h.client c hc

/-- The header is written and the block is the client's. -/
theorem fresh_good {b : Nat} (h : s.Good others parts) (hp : s.pcs t = .fresh size b)
    (hs : s.thread t = some s') : ∃ parts', s'.Good others parts' := by
  have hsz := h.pcs t
  rw [hp] at hsz
  have hc : classIndex size < 30 := classIndex_lt hsz
  have hset : (s.pcs t).Settled := by rw [hp]; trivial
  have hv : s.views t = s.caches t := SmallSys.Good.views_settled hset
  have hfl : ∀ d < 30, parts d (.flight t) = if classIndex size = d then [b] else [] := fun d hd => by
    rw [h.flight t d hd, hp]
    rfl
  have hmine : parts (classIndex size) (.flight t) = [b] := by rw [hfl _ hc, if_pos rfl]
  have hb : b ∈ parts (classIndex size) (.flight t) := by rw [hmine]; exact List.mem_singleton_self b
  have hcv := ((h.small.pools.parts _ hc).cover b).mpr ⟨_, hb⟩
  have hst := blockStride_bounds _ hc
  have hbok := h.small.pools.block_ok hc hcv
  have hhead : headerOf (userPointerOf b) = b := headerOf_eq (p := b + 16) (by omega) (by omega)
  unfold SmallSys.thread at hs
  rw [hp] at hs
  dsimp only at hs
  rw [hhead] at hs
  cases hs
  have hm : ∀ x, ¬ (b ≤ x ∧ x < b + blockStride (classIndex size)) →
      BlockHeader.store s.world.mem b (smallHeader size) x = s.world.mem x := fun x hx =>
    BlockHeader.store_of_not (by omega)
  have hsrc : (parts (classIndex size) (.flight t)).Perm ([b] ++ []) := by
    rw [hmine]
    rfl
  have hpools := (h.small.pools.write hc (by simp) hb hm).move (p := .flight t) (q := .client)
    (by simp) (by simp) (by simp) hsrc (List.Perm.refl _)
  have hsmall := h.small.keepCaches hpools (by simp) (by simp)
  have hup : s.views = Function.update s.views t (s.caches t) := by
    rw [← hv, Function.update_eq_self]
  rw [hup] at hsmall
  have hnew : HeldOk (BlockHeader.store s.world.mem b (smallHeader size))
      ⟨userPointerOf b, size, classIndex size⟩ := by
    refine ⟨hsz, rfl, ?_, ?_⟩
    · unfold Held.block
      rw [hhead]
      rfl
    · unfold Held.block
      rw [hhead]
      exact BlockHeader.load_store ⟨lt_of_le_of_lt hsz (by decide), (by decide : 0x51 < 2 ^ 16),
        (by decide : 0xA11C < 2 ^ 16), (by decide : 0 < 2 ^ 32)⟩
  refine ⟨_, h.of_thread rfl (Function.update_eq_self t _).symm hsmall (flight_leave (by simp) hfl)
    (fun u hu c _ => ?_) (fun c hc' => ?_) (show Pc.Ok _ .idle from trivial) fun a ha => ?_⟩
  · exact moveTo_keep (by simpa using hu) (by simp) c
  · by_cases hcc : c = classIndex size
    · subst hcc
      rw [moveTo_dst]
      unfold SmallSys.clientBlocks
      rw [List.filter_cons_of_pos (by simp), List.map_cons]
      have : Held.block ⟨userPointerOf b, size, classIndex size⟩ = b := hhead
      rw [this]
      exact (h.client _ hc).cons b
    · rw [moveTo_other _ _ hcc]
      unfold SmallSys.clientBlocks
      rw [List.filter_cons_of_neg (by simpa using Ne.symm hcc)]
      exact h.client c hc'
  · rcases List.mem_cons.mp ha with rfl | ha
    · exact hnew
    · refine h.held_write hc hcv hm ha fun e => ?_
      obtain ⟨e1, e2⟩ := Prod.mk.injEq .. ▸ e
      obtain ⟨-, hab⟩ := h.held_mem ha
      rw [e1, e2] at hab
      have := (h.small.pools.parts _ hc).apart _ _ b hab hb
      cases this

end Alloc

/-! ## The steps of a deallocation -/

section Free
variable {s s' : SmallSys} {t c b : Nat} {others : List Span} {parts : Places}

/-- `freeBlock` or `freeBatch` keeps what clients hold. -/
theorem SmallSys.Good.held_links (h : s.Good others parts) (hc : c < 30) {p : Place}
    (hp : p ≠ .client) {bs : List Nat} (hbs : ∀ b ∈ bs, b ∈ parts c p) {w' : World}
    (hpg : w'.page = s.world.page) (hrf : w'.refusals = s.world.refusals)
    (hm : ∀ x, (∀ b ∈ bs, ¬ (b ≤ x ∧ x < b + 8)) → w'.mem x = s.world.mem x) :
    ∀ a ∈ s.held, HeldOk w'.mem a := by
  refine h.held_keeps (smallKeeps_of_links h.small.pools hc hbs hpg hrf hm
    (fun d hd b hb => ((h.small.pools.parts d hd).cover b).mpr ⟨_, hb⟩) fun b hb hb' => ?_)
  exact hp ((h.small.pools.parts c hc).apart _ _ b (hbs b hb) hb')

/-- The overflow `freeBatch`: from here on the top 16 slots count as given back. -/
theorem overflowing_good (h : s.Good others parts) (hp : s.pcs t = .overflowing c b)
    (hs : s.critical t = some s') : ∃ parts', s'.Good others parts' := by
  have hok := h.pcs t
  rw [hp] at hok
  obtain ⟨hc, hfull⟩ := hok
  have hset : (s.pcs t).Settled := by rw [hp]; trivial
  have hv : s.views t = s.caches t := SmallSys.Good.views_settled hset
  unfold SmallSys.critical at hs
  rw [hp] at hs
  cases hs
  have hbs : (parts c (.cached t)).Perm ((s.caches t c).window 48 16 ++ (s.caches t c).below 48) := by
    rw [h.small.cached t c hc, hv, hfull, show kCapacity = 48 + 16 by rfl, below_window]
    exact List.perm_append_comm
  obtain ⟨-, -, hpg, hrf, hm⟩ := h.small.pools.freeBatch hc (p := .cached t) (by simp) hbs
  have hdrop := h.small.drop (t := t) hc (by rw [hv]; exact hfull)
  unfold Small.setCache at hdrop
  rw [hv, ← Pc.view_dropping _ _ b] at hdrop
  refine ⟨_, h.of_thread rfl (Function.update_eq_self t _).symm hdrop (fun d hd => ?_)
    (fun u _ d _ => ?_) (fun d hd => ?_) ⟨hc, hfull⟩ ?_⟩
  · rw [moveTo_keep (by simp) (by simp), h.flight t d hd, hp]
    rfl
  · exact moveTo_keep (by simp) (by simp) d
  · rw [moveTo_keep (by simp) (by simp)]
    exact h.client d hd
  · exact h.held_links hc (p := .cached t) (by simp)
      (fun b hb => hbs.mem_iff.mpr (List.mem_append_left _ hb)) hpg hrf hm

/-- `cache.count = keep`, and the block goes into the cache. -/
theorem dropping_good (h : s.Good others parts) (hp : s.pcs t = .dropping c b)
    (hs : s.thread t = some s') : ∃ parts', s'.Good others parts' := by
  have hok := h.pcs t
  rw [hp] at hok
  obtain ⟨hc, hfull⟩ := hok
  have hfl : ∀ d < 30, parts d (.flight t) = if c = d then [b] else [] := fun d hd => by
    rw [h.flight t d hd, hp]
    rfl
  have hv : s.views t = Function.update (s.caches t) c { s.caches t c with count := 48 } := by
    unfold SmallSys.views
    rw [hp, Pc.view_dropping]
  unfold SmallSys.thread at hs
  rw [hp] at hs
  cases hs
  have hput := h.small.put (t := t) (p := .flight t) (b := b) (r := []) hc
    (by rw [hv, Function.update_self]; exact (show 48 < 64 by decide)) (by simp) (by simp)
    (by rw [hfl c hc, if_pos rfl])
  unfold Small.setCache at hput
  rw [hv, Function.update_self, Function.update_idem] at hput
  refine ⟨_, h.of_thread rfl rfl hput (flight_leave (by simp) hfl) (fun u hu d _ => ?_)
    (fun d hd => ?_) (show Pc.Ok _ .idle from trivial) h.held⟩
  · exact moveTo_keep (by simpa using hu) (by simp) d
  · rw [moveTo_keep (by simp) (by simp)]
    exact h.client d hd

/-- `PoolAllocator::freeBlock` of a thread without cache. -/
theorem releasing_good (h : s.Good others parts) (hp : s.pcs t = .releasing c b)
    (hs : s.critical t = some s') : ∃ parts', s'.Good others parts' := by
  have hc := h.pcs t
  rw [hp] at hc
  have hset : (s.pcs t).Settled := by rw [hp]; trivial
  have hv : s.views t = s.caches t := SmallSys.Good.views_settled hset
  have hfl : ∀ d < 30, parts d (.flight t) = if c = d then [b] else [] := fun d hd => by
    rw [h.flight t d hd, hp]
    rfl
  have hmine : parts c (.flight t) = [b] := by rw [hfl c hc, if_pos rfl]
  unfold SmallSys.critical at hs
  rw [hp] at hs
  cases hs
  have hsrc : (parts c (.flight t)).Perm ([b] ++ []) := by
    rw [hmine]
    rfl
  obtain ⟨hpools, -, hpg, hrf, hm⟩ := h.small.pools.freeBatch hc (by simp) hsrc
  have hsmall := h.small.keepCaches hpools (by simp) (by simp)
  have hup : s.views = Function.update s.views t (s.caches t) := by
    rw [← hv, Function.update_eq_self]
  rw [hup] at hsmall
  refine ⟨_, h.of_thread rfl (Function.update_eq_self t _).symm hsmall (flight_leave (by simp) hfl)
    (fun u hu d _ => ?_) (fun d hd => ?_) (show Pc.Ok _ .idle from trivial) ?_⟩
  · exact moveTo_keep (by simpa using hu) (by simp) d
  · rw [moveTo_keep (by simp) (by simp)]
    exact h.client d hd
  · exact h.held_links hc (p := .flight t) (by simp) (by rw [hmine]; exact fun _ => id) hpg hrf hm

/-- `rawDeallocate` reads the class the block was carved for, and marks the block freed. -/
theorem beginFree_good {a : Held} (h : s.Good others parts) (hidle : s.pcs t = .idle) (ha : a ∈ s.held)
    (useCache : Bool) : ∃ parts', (s.beginFree t a useCache).Good others parts' := by
  obtain ⟨hc, hb⟩ := h.held_mem ha
  have hset : (s.pcs t).Settled := by rw [hidle]; trivial
  have hnone : ∀ d < 30, parts d (.flight t) = [] := fun d hd => by
    rw [h.flight t d hd, hidle]
    rfl
  have hv : s.views t = s.caches t := SmallSys.Good.views_settled hset
  have hst := blockStride_bounds _ hc
  have hcls : classIndex (BlockHeader.load s.world.mem a.block).payloadSize = a.cls := by
    rw [(h.held a ha).header]
    exact (h.held a ha).cls.symm
  have hm : ∀ x, ¬ (a.block ≤ x ∧ x < a.block + blockStride a.cls) →
      BlockHeader.setState s.world.mem a.block kStateFreed x = s.world.mem x := fun x hx =>
    BlockHeader.setState_of_not (by omega)
  have hpools := h.small.pools.write hc (by simp) hb hm
  have hw : SmallOk { s.world with mem := BlockHeader.setState s.world.mem a.block kStateFreed } s.pools
      s.views parts others := ⟨hpools, h.small.cached, h.small.count⟩
  -- what the clients hold of the class is the block and the rest
  have hrest : ∀ d < 30, (parts d .client).Perm
      ((if a.cls = d then [a.block] else []) ++
        ((s.held.erase a).filter fun k => decide (k.cls = d)).map Held.block) := fun d hd => by
    refine (h.client d hd).trans (((List.perm_cons_erase ha).filter _).map _ |>.trans ?_)
    by_cases hd' : a.cls = d
    · rw [List.filter_cons_of_pos (by simpa using hd'), if_pos hd']
      exact List.Perm.refl _
    · rw [List.filter_cons_of_neg (by simpa using hd'), if_neg hd']
      exact List.Perm.refl _
  have hhere : (parts a.cls .client).Perm (a.block ::
      ((s.held.erase a).filter fun k => decide (k.cls = a.cls)).map Held.block) := by
    have := hrest a.cls hc
    rw [if_pos rfl] at this
    exact this
  have hheld : ∀ k ∈ s.held.erase a,
      HeldOk (BlockHeader.setState s.world.mem a.block kStateFreed) k := fun k hk => by
    refine h.held_write hc (((h.small.pools.parts _ hc).cover _).mpr ⟨_, hb⟩) hm
      (List.mem_of_mem_erase hk) fun e => ?_
    obtain ⟨e1, e2⟩ := Prod.mk.injEq .. ▸ e
    have hnd := hhere.nodup_iff.mp ((h.small.pools.parts _ hc).once .client)
    refine (List.nodup_cons.mp hnd).1 (List.mem_map.mpr ⟨k, List.mem_filter.mpr ⟨hk, ?_⟩, e2⟩)
    exact decide_eq_true e1
  have hclient : ∀ q l, q ≠ .client → ∀ d < 30, (moveTo parts a.cls .client q
      (((s.held.erase a).filter fun k => decide (k.cls = a.cls)).map Held.block) l d .client).Perm
      (((s.held.erase a).filter fun k => decide (k.cls = d)).map Held.block) := fun q l hq d hd => by
    by_cases hd' : d = a.cls
    · rw [hd', moveTo_src _ _ (Ne.symm hq)]
    · rw [moveTo_other _ _ hd']
      have := hrest d hd
      rwa [if_neg (Ne.symm hd'), List.nil_append] at this
  -- to a position with the block in flight
  have hgo : ∀ pc : Pc, pc.Settled → (∀ d, pc.blocks (s.caches t) d = if a.cls = d then [a.block] else []) →
      pc.Ok (s.caches t) → ∃ parts', SmallSys.Good others (SmallSys.goto
        { s with
          world := { s.world with mem := BlockHeader.setState s.world.mem a.block kStateFreed }
          held := s.held.erase a } t pc) parts' := by
    intro pc hpc hbl hok
    have hsrc : (parts a.cls .client).Perm ([a.block] ++
        ((s.held.erase a).filter fun k => decide (k.cls = a.cls)).map Held.block) := hhere
    have hmove := hw.keepCaches (hw.pools.move (p := .client) (q := .flight t) (c := a.cls)
      (by simp) (by simp) (by simp) hsrc (List.Perm.refl _)) (by simp) (by simp)
    have hup : s.views = Function.update s.views t (pc.view (s.caches t)) := by
      rw [Pc.view_of_settled hpc, ← hv, Function.update_eq_self]
    rw [hup] at hmove
    unfold SmallSys.goto
    refine ⟨_, h.of_thread rfl (Function.update_eq_self t _).symm hmove (fun d hd => ?_)
      (fun u hu d _ => ?_) (hclient _ _ (by simp)) hok hheld⟩
    · exact (flight_arrive hnone d hd).trans (hbl d).symm
    · exact moveTo_keep (by simp) (by simpa using hu) d
  unfold SmallSys.beginFree
  rw [hcls]
  unfold SmallSys.giveBack
  dsimp only
  by_cases huse : useCache = true
  · rw [if_pos huse]
    by_cases hfull : (s.caches t a.cls).count = kCapacity
    · rw [if_pos hfull]
      exact hgo _ trivial (fun _ => rfl) ⟨hc, hfull⟩
    · rw [if_neg hfull]
      have hput := hw.put (t := t) (p := .client) (b := a.block) hc
        (by rw [hv]; exact lt_of_le_of_ne (by rw [← hv]; exact h.small.count t _ hc) hfull) (by simp)
        (by simp) hhere
      unfold Small.setCache at hput
      rw [hv] at hput
      have hpcs : s.pcs = Function.update s.pcs t .idle := by
        rw [← hidle, Function.update_eq_self]
      refine ⟨_, h.of_thread hpcs rfl hput (fun d hd => ?_) (fun u hu d _ => ?_)
        (hclient _ _ (by simp)) (show Pc.Ok _ .idle from trivial) hheld⟩
      · rw [moveTo_keep (by simp) (by simp)]
        exact hnone d hd
      · exact moveTo_keep (by simp) (by simp) d
  · rw [if_neg huse]
    exact hgo _ trivial (fun _ => rfl) hc

/-- `~ThreadCache` when a thread exits. -/
theorem exit_good (h : s.Good others parts) (hidle : s.pcs t = .idle)
    (hs : s.step (.exit t) = some s') : ∃ parts', s'.Good others parts' := by
  have hset : (s.pcs t).Settled := by rw [hidle]; trivial
  have hv : s.views t = s.caches t := SmallSys.Good.views_settled hset
  obtain ⟨w', pools', parts', he, hsmall, hpl, hk, -⟩ := flush_spec h.small t
  rw [hv] at he
  unfold SmallSys.step at hs
  dsimp only at hs
  rw [if_pos hidle, he] at hs
  cases hs
  have hpcs : s.pcs = Function.update s.pcs t .idle := by
    rw [← hidle, Function.update_eq_self]
  refine ⟨parts', h.of_thread hpcs rfl hsmall (fun d hd => ?_) (fun u _ d _ => ?_)
    (fun d hd => ?_) (show Pc.Ok _ .idle from trivial) (h.held_keeps hk)⟩
  · rw [hpl d _ (by simp) (by simp), h.flight t d hd, hidle]
    rfl
  · exact hpl d _ (by simp) (by simp)
  · rw [hpl d _ (by simp) (by simp)]
    exact h.client d hd

/-- A client writes a byte of what it holds. -/
theorem write_good {a : Held} (h : s.Good others parts) (ha : a ∈ s.held) {addr : Nat}
    (h1 : a.user ≤ addr) (h2 : addr < a.user + a.size) (value : UInt8) :
    SmallSys.Good others { s with
      world := { s.world with mem := Function.update s.world.mem addr value } } parts := by
  obtain ⟨hc, hb⟩ := h.held_mem ha
  have hok := h.held a ha
  have hst := blockStride_bounds _ hc
  have hfit := le_classSize hok.size
  have huser := hok.user
  rw [← hok.cls] at hfit
  have hm : ∀ x, ¬ (a.block ≤ x ∧ x < a.block + blockStride a.cls) →
      Function.update s.world.mem addr value x = s.world.mem x := fun x hx =>
    Function.update_of_ne (by rintro rfl; omega) _ _
  refine ⟨⟨h.small.pools.write hc (by simp) hb hm, h.small.cached, h.small.count⟩, h.flight, h.client,
    h.pcs, fun k hk => ?_⟩
  by_cases hne : (k.cls, k.block) = (a.cls, a.block)
  · refine (h.held k hk).congr fun x hx1 hx2 => Function.update_of_ne ?_ _ _
    have := (Prod.mk.injEq .. ▸ hne).2
    rintro rfl
    omega
  · exact h.held_write hc (((h.small.pools.parts _ hc).cover _).mpr ⟨_, hb⟩) hm hk hne

end Free

/-! ## Runs -/

section Runs
variable {s s' : SmallSys} {others : List Span}

theorem SmallSys.Good.step {parts : Places} (h : s.Good others parts) {e : SmallEvent}
    (hs : s.step e = some s') : ∃ parts', s'.Good others parts' := by
  cases e with
  | beginAlloc t size useCache =>
    unfold SmallSys.step at hs
    dsimp only at hs
    by_cases hc : s.pcs t = .idle ∧ size ≤ kSmallMax
    · rw [if_pos hc] at hs
      cases hs
      exact beginAlloc_good h hc.1 hc.2 useCache
    · rw [if_neg hc] at hs
      cases hs
  | beginFree t user useCache =>
    unfold SmallSys.step at hs
    dsimp only at hs
    by_cases hc : s.pcs t = .idle
    · rw [if_pos hc] at hs
      obtain ⟨a, hf, rfl⟩ := Option.map_eq_some_iff.mp hs
      exact beginFree_good h hc (List.mem_of_find?_eq_some hf) useCache
    · rw [if_neg hc] at hs
      cases hs
  | critical t =>
    change s.critical t = some s' at hs
    cases hp : s.pcs t with
    | refilling size => exact refilling_good h hp hs
    | drawing size => exact drawing_good h hp hs
    | overflowing c b => exact overflowing_good h hp hs
    | releasing c b => exact releasing_good h hp hs
    | _ =>
      unfold SmallSys.critical at hs
      rw [hp] at hs
      cases hs
  | thread t =>
    change s.thread t = some s' at hs
    cases hp : s.pcs t with
    | filling size n => exact filling_good h hp hs
    | fresh size b => exact fresh_good h hp hs
    | dropping c b => exact dropping_good h hp hs
    | _ =>
      unfold SmallSys.thread at hs
      rw [hp] at hs
      cases hs
  | exit t =>
    by_cases hc : s.pcs t = .idle
    · exact exit_good h hc hs
    · unfold SmallSys.step at hs
      dsimp only at hs
      rw [if_neg hc] at hs
      cases hs
  | write addr value =>
    unfold SmallSys.step at hs
    dsimp only at hs
    by_cases hc : s.held.any (fun h => decide (h.user ≤ addr ∧ addr < h.user + h.size)) = true
    · rw [if_pos hc] at hs
      cases hs
      obtain ⟨a, ha, hin⟩ := List.any_eq_true.mp hc
      obtain ⟨h1, h2⟩ := of_decide_eq_true hin
      exact ⟨parts, write_good h ha h1 h2 value⟩
    · rw [if_neg hc] at hs
      cases hs

/-- A tier that has served nothing yet. -/
theorem good_initial {w : World} (hw : w.Ok) :
    SmallSys.Good w.mapped { world := w } fun _ _ => [] where
  small := smallOk_empty hw
  flight _ _ _ := rfl
  client _ _ := List.Perm.refl _
  pcs _ := trivial
  held _ h := absurd h List.not_mem_nil

/-- Where the blocks of class `c` are, when thread `t` counts `slots t c` slots of its cache and the
    shard's free list is `free`. -/
def SmallSys.places (s : SmallSys) (slots : Nat → Nat → Nat) (c : Nat) (free : List Nat) :
    Place → List Nat
  | .free => free
  | .cached t => (s.caches t c).below (slots t c)
  | .flight t => (s.pcs t).blocks (s.caches t) c
  | .client => s.clientBlocks c

/-- Every carved block is in one place, once; the counts are in range; classes do not mix. -/
structure Conserved (s : SmallSys) (slots : Nat → Nat → Nat) : Prop where
  places : ∀ c < 30, ∃ free, Chain (FreeList.next s.world.mem) (s.pools c).freeList.head free ∧
    Parts (carved (blockStride c) (s.pools c)) (s.places slots c free)
  count : ∀ t, ∀ c < 30, (s.caches t c).count ≤ kCapacity
  classes : ∀ c < 30, ∀ d < 30, c ≠ d → ∀ b ∈ carved (blockStride c) (s.pools c),
    b ∉ carved (blockStride d) (s.pools d)
  recomputed : ∀ h ∈ s.held, h.cls = classIndex h.size ∧
    classIndex (BlockHeader.load s.world.mem h.block).payloadSize = h.cls

/-- The slots below `count`. -/
def SmallSys.below (s : SmallSys) (t c : Nat) : Nat := (s.caches t c).count

/-- The slots below `count`, without those a thread has just given back. -/
def SmallSys.counted (s : SmallSys) (t c : Nat) : Nat := (s.pcs t).counted (s.caches t) c

theorem Pc.count_le {cache : ThreadCache} {pc : Pc} (h : pc.Ok cache) {c : Nat}
    (hle : pc.counted cache c ≤ kCapacity) : (cache c).count ≤ kCapacity := by
  cases pc with
  | dropping d b =>
    by_cases hd : d = c
    · rw [← hd, h.2]
    · unfold Pc.counted at hle
      dsimp only at hle
      rwa [if_neg hd] at hle
  | _ => exact hle

theorem SmallSys.Good.conserved {parts : Places} (h : s.Good others parts) : Conserved s s.counted where
  places c hc := by
    refine ⟨parts c .free, (h.small.pools.shard c hc).chain, (h.small.pools.parts c hc).congr fun p => ?_⟩
    cases p with
    | free => exact List.Perm.refl _
    | cached t =>
      rw [h.small.cached t c hc]
      exact List.Perm.refl _
    | flight t =>
      rw [h.flight t c hc]
      exact List.Perm.refl _
    | client => exact (h.client c hc).symm
  count t c hc := Pc.count_le (h.pcs t) (h.small.count t c hc)
  classes c hc d hd hcd b hb hb' := by
    have hap := h.small.pools.apart hc hd hb hb' fun e => hcd (Prod.mk.injEq .. ▸ e).1
    have h1 := blockStride_bounds c hc
    have h2 := blockStride_bounds d hd
    unfold Span.Disjoint at hap
    simp only at hap
    omega
  recomputed a ha := by
    have hok := h.held a ha
    refine ⟨hok.cls, ?_⟩
    rw [hok.header]
    exact hok.cls.symm

theorem good_of_run {w : World} (hw : w.Ok) {es : List SmallEvent}
    (hrun : runFrom SmallSys.step { world := w } es = some s) :
    ∃ parts, s.Good w.mapped parts :=
  run_invariant (P := fun s => ∃ parts, s.Good w.mapped parts)
    (fun _ _ _ ⟨_, h⟩ hs => h.step hs) ⟨_, good_initial hw⟩ hrun

/-- **Conservation in the small tier.** In every state that any number of threads reach by
    interleaved steps, with any answers of the OS, each block ever carved for a class is in
    exactly one place, the slots of an overflow batch counting as free as soon as `freeBatch` has
    returned. -/
theorem conserved_of_run {w : World} (hw : w.Ok) {es : List SmallEvent}
    (hrun : runFrom SmallSys.step { world := w } es = some s) : Conserved s s.counted := by
  obtain ⟨parts, h⟩ := good_of_run hw hrun
  exact h.conserved

end Runs

/-! ## The moment between `freeBatch` and `cache.count = keep`

  The blocks an overflow has given back are still below `count` until the thread lowers it: then
  they are in a slot and in the free list.
-/

section Overflow
variable {s s' : SmallSys} {t c b : Nat} {others : List Span} {parts : Places}

theorem not_conserved_of_overflow (h : s.Good others parts) (hp : s.pcs t = .overflowing c b)
    (hs : s.critical t = some s') : ¬ Conserved s' s'.below := by
  have hok := h.pcs t
  rw [hp] at hok
  obtain ⟨hc, hfull⟩ := hok
  have hv : s.views t = s.caches t := SmallSys.Good.views_settled (by rw [hp]; trivial)
  have hdrop := h.small.drop (t := t) hc (by rw [hv]; exact hfull)
  rw [hv] at hdrop
  unfold SmallSys.critical at hs
  rw [hp] at hs
  cases hs
  intro hcon
  obtain ⟨free, hchain, hparts⟩ := hcon.places c hc
  have hfree := hchain.unique (hdrop.pools.shard c hc).chain
  rw [moveTo_dst] at hfree
  have h1 : (s.caches t c).slots 48 ∈ free := by
    rw [hfree]
    refine List.mem_append_left _ (List.mem_reverse.mpr (List.mem_map.mpr ⟨0, ?_, rfl⟩))
    exact List.mem_range.mpr (by decide)
  have h2 : (s.caches t c).slots 48 ∈ (s.caches t c).below (s.caches t c).count := by
    rw [hfull]
    exact List.mem_map.mpr ⟨48, List.mem_range.mpr (by decide), rfl⟩
  have := hparts.apart .free (.cached t) _ h1 h2
  cases this

/-- Thread 0 allocates `k` blocks of 8 bytes from the pools. -/
def draw : Nat → List SmallEvent
  | 0 => []
  | k + 1 => draw k ++ [.beginAlloc 0 8 false, .critical 0, .thread 0]

/-- Thread 0 frees the first `k` of them into its cache, the last one first. -/
def drain : Nat → List SmallEvent
  | 0 => []
  | k + 1 => .beginFree 0 (65552 + 32 * k) true :: drain k

def drawn : Nat → List Held
  | 0 => []
  | k + 1 => ⟨65552 + 32 * k, 8, 0⟩ :: drawn k

theorem classIndex_eight : classIndex 8 = 0 := by decide +kernel

theorem blockStride_zero : blockStride 0 = 32 := by decide +kernel

theorem takeBlock_bump {w : World} {shard : Shard} {stride : Nat} (hf : shard.freeList.head = 0)
    (h0 : shard.bumpCursor ≠ 0) (hroom : stride ≤ shard.bumpEnd - shard.bumpCursor) :
    takeBlock w shard stride =
      (some shard.bumpCursor, w, { shard with bumpCursor := shard.bumpCursor + stride }) := by
  unfold takeBlock FreeList.pop
  rw [if_pos hf]
  dsimp only
  rw [if_neg (by omega)]
  rfl

@[simp] theorem goto_pcs (s : SmallSys) (t : Nat) (pc : Pc) : (s.goto t pc).pcs t = pc := by
  simp [SmallSys.goto]

/-- One block of 8 bytes, drawn from the pools. -/
theorem draw_round {w' : World} {shard : Shard} (hidle : s.pcs 0 = .idle)
    (htake : takeBlock s.world (s.pools 0) 32 = (some b, w', shard)) :
    ∃ s', runFrom SmallSys.step s [.beginAlloc 0 8 false, .critical 0, .thread 0] = some s' ∧
      s'.pcs 0 = .idle ∧ s'.caches = s.caches ∧ s'.pools 0 = shard ∧
      s'.held = ⟨b + 16, 8, 0⟩ :: s.held := by
  have h1 : s.step (.beginAlloc 0 8 false) = some (s.goto 0 (.drawing 8)) := by
    unfold SmallSys.step SmallSys.beginAlloc
    dsimp only
    rw [if_pos ⟨hidle, by decide⟩]
    rfl
  have h2 : (s.goto 0 (.drawing 8)).step (.critical 0) =
      some { s.goto 0 (.fresh 8 b) with world := w', pools := Function.update s.pools 0 shard } := by
    unfold SmallSys.step SmallSys.critical
    have ht : takeBlock (s.goto 0 (.drawing 8)).world ((s.goto 0 (.drawing 8)).pools 0) 32 =
        (some b, w', shard) := htake
    simp only [goto_pcs, classIndex_eight, allocateBlock, blockStride_zero, ht]
    simp [SmallSys.goto]
  have h3 : ∃ s', ({ s.goto 0 (.fresh 8 b) with
      world := w', pools := Function.update s.pools 0 shard } : SmallSys).step (.thread 0) = some s' ∧
      s'.pcs 0 = .idle ∧ s'.caches = s.caches ∧ s'.pools 0 = shard ∧
      s'.held = ⟨b + 16, 8, 0⟩ :: s.held := by
    unfold SmallSys.step SmallSys.thread
    simp only [goto_pcs, classIndex_eight]
    refine ⟨_, rfl, ?_⟩
    simp [SmallSys.goto, userPointerOf]
  obtain ⟨s', hs', hrest⟩ := h3
  exact ⟨s', run_cons.mpr ⟨_, h1, run_cons.mpr ⟨_, h2, run_cons.mpr ⟨_, hs', rfl⟩⟩⟩, hrest⟩

/-- The shard of the 8-byte class after `k` blocks were carved from its first run. -/
def carvedShard : Nat → Shard
  | 0 => {}
  | k + 1 => { bumpCursor := 65536 + 32 * (k + 1), bumpEnd := 131072, runs := [⟨65536, 65536⟩] }

theorem draw_spec {k : Nat} (hk : k ≤ 2048) :
    ∃ s, runFrom SmallSys.step { world := smallWorld } (draw k) = some s ∧ s.pcs 0 = .idle ∧
      (s.caches 0 0).count = 0 ∧ s.pools 0 = carvedShard k ∧ s.held = drawn k ∧
      (k = 0 → s.world = smallWorld) := by
  induction k with
  | zero => exact ⟨_, rfl, rfl, rfl, rfl, rfl, fun _ => rfl⟩
  | succ k ih =>
    obtain ⟨s, hrun, hidle, hcnt, hpool, hheld, hw⟩ := ih (by omega)
    have htake : ∃ w', takeBlock s.world (s.pools 0) 32 =
        (some (65536 + 32 * k), w', carvedShard (k + 1)) := by
      rw [hpool]
      cases k with
      | zero =>
        rw [hw rfl]
        exact ⟨_, rfl⟩
      | succ k =>
        refine ⟨_, (takeBlock_bump rfl ?_ ?_).trans rfl⟩
        · show 65536 + 32 * (k + 1) ≠ 0
          omega
        · show 32 ≤ 131072 - (65536 + 32 * (k + 1))
          omega
    obtain ⟨w', htake⟩ := htake
    obtain ⟨s', hs', hidle', hcache, hpool', hheld'⟩ := draw_round hidle htake
    refine ⟨s', run_append.mpr ⟨s, hrun, hs'⟩, hidle', by rw [hcache]; exact hcnt, hpool', ?_, by omega⟩
    rw [hheld', hheld, show 65536 + 32 * k + 16 = 65552 + 32 * k by omega]
    rfl

/-- Freeing the block allocated last. -/
theorem step_beginFree (h : s.Good others parts) (hidle : s.pcs 0 = .idle) {a : Held} {l : List Held}
    (hheld : s.held = a :: l) :
    s.step (.beginFree 0 a.user true) = some (s.giveBack 0 a.cls a true) := by
  have hok := h.held a (by rw [hheld]; exact List.mem_cons_self)
  have hcls : classIndex (BlockHeader.load s.world.mem a.block).payloadSize = a.cls := by
    rw [hok.header]
    exact hok.cls.symm
  unfold SmallSys.step SmallSys.beginFree
  dsimp only
  rw [if_pos hidle, hheld]
  simp only [List.find?_cons, decide_true, Option.map_some, hcls]

/-- Freeing what was drawn into a cache that has room for all but one. -/
theorem drain_spec {k : Nat} (h : s.Good others parts) (hidle : s.pcs 0 = .idle)
    (hcnt : (s.caches 0 0).count + k = 64) (hheld : s.held = drawn (k + 1)) :
    ∃ s' parts' b, runFrom SmallSys.step s (drain (k + 1)) = some s' ∧ s'.Good others parts' ∧
      s'.pcs 0 = .overflowing 0 b := by
  induction k generalizing s parts with
  | zero =>
    have hstep := step_beginFree h hidle hheld
    obtain ⟨parts', hgood⟩ := h.step hstep
    refine ⟨_, parts', Held.block ⟨65552, 8, 0⟩, run_cons.mpr ⟨_, hstep, rfl⟩, hgood, ?_⟩
    unfold SmallSys.giveBack
    dsimp only
    rw [if_pos rfl, if_pos (by omega), goto_pcs]
  | succ k ih =>
    have hstep := step_beginFree h hidle hheld
    obtain ⟨parts', hgood⟩ := h.step hstep
    have hne : ¬ (s.caches 0 0).count = kCapacity := by
      show ¬ (s.caches 0 0).count = 64
      omega
    have hgive : ∀ a, s.giveBack 0 0 a true = { s with
        world := { s.world with mem := BlockHeader.setState s.world.mem a.block kStateFreed }
        held := s.held.erase a
        caches := setCache s.caches 0 0 ((s.caches 0 0).put a.block) } := fun a => by
      unfold SmallSys.giveBack
      dsimp only
      rw [if_pos rfl, if_neg hne]
    obtain ⟨s', parts'', b, hrun, hgood', hpc⟩ := ih hgood (by rw [hgive]; exact hidle)
      (by rw [hgive]; simp only [setCache_self, ClassCache.put]; omega)
      (by rw [hgive]; simp only [hheld, drawn, List.erase_cons_head])
    exact ⟨s', parts'', b, run_cons.mpr ⟨_, hstep, hrun⟩, hgood', hpc⟩

/-- Thread 0 fills its cache for 8-byte blocks, frees one more, and enters the `freeBatch` of the
    overflow. -/
theorem overflow_reached :
    ∃ (s : SmallSys) (parts : Places) (b : Nat) (s' : SmallSys), s.Good smallWorld.mapped parts ∧
      s.pcs 0 = .overflowing 0 b ∧ s.critical 0 = some s' ∧
      runFrom SmallSys.step { world := smallWorld } (draw 65 ++ (drain 65 ++ [.critical 0])) =
        some s' := by
  obtain ⟨s, hrun, hidle, hcnt, -, hheld, -⟩ := draw_spec (k := 65) (by decide)
  obtain ⟨parts, hgood⟩ := good_of_run smallWorld_ok hrun
  obtain ⟨s1, parts1, b, hrun1, hgood1, hpc⟩ := drain_spec (k := 64) hgood hidle (by omega) hheld
  have hs : ∃ s2, s1.critical 0 = some s2 := by
    unfold SmallSys.critical
    simp only [hpc]
    exact ⟨_, rfl⟩
  obtain ⟨s2, hs⟩ := hs
  exact ⟨s1, parts1, b, s2, hgood1, hpc, hs,
    run_append.mpr ⟨s, hrun, run_snoc.mpr ⟨s1, hrun1, hs⟩⟩⟩

theorem not_conserved_below :
    ∃ s, runFrom SmallSys.step { world := smallWorld } (draw 65 ++ (drain 65 ++ [.critical 0])) = some s ∧
      ¬ Conserved s s.below := by
  obtain ⟨s, parts, b, s', hgood, hpc, hs, hrun⟩ := overflow_reached
  exact ⟨s', hrun, not_conserved_of_overflow hgood hpc hs⟩

theorem conserved_of_run_overflow :
    ∃ s, runFrom SmallSys.step { world := smallWorld } (draw 65 ++ (drain 65 ++ [.critical 0])) = some s ∧
      Conserved s s.counted := by
  obtain ⟨s, parts, b, s', hgood, hpc, hs, hrun⟩ := overflow_reached
  exact ⟨s', hrun, conserved_of_run smallWorld_ok hrun⟩

end Overflow

end MAlloc.Small
