/-
  Thread caches on top of the pools.

  `SmallOk`: the cached place of a thread is what its slots below `count` hold, and `count` is at
  most 64. The steps a thread takes are lemmas of their own, so that a system with several
  threads can interleave them: `SmallOk.fill` (a batch becomes the cache), `SmallOk.take`,
  `SmallOk.put`, `SmallOk.drop` (the overflow `freeBatch` and the drop to `keep`) and
  `SmallOk.flush` (the destructor).

  `allocateBlock_spec` and `freeBlock_spec` put them together to the calls of `ThreadCache`, and
  say what a call does to the blocks of the clients and which bytes it keeps.
-/
import MAlloc.Small.Pool

namespace MAlloc.Small

open Lib PoolAllocator SystemMemory

/-! ## Slots -/

section Slots
variable {cache : ClassCache} {b : Nat}

theorem below_succ (cache : ClassCache) (n : Nat) :
    cache.below (n + 1) = cache.below n ++ [cache.slots n] := by
  simp [ClassCache.below, List.range_succ]

theorem below_put : (cache.put b).below (cache.count + 1) = cache.below cache.count ++ [b] := by
  rw [below_succ]
  congr 1
  · refine List.map_congr_left fun i hi => ?_
    exact Function.update_of_ne (by have := List.mem_range.mp hi; omega) _ _
  · simp [ClassCache.put]

theorem below_stored (bs : List Nat) : (cache.stored bs).below bs.length = bs := by
  unfold ClassCache.below ClassCache.stored
  refine List.ext_getElem (by simp) fun i h1 h2 => ?_
  simp only [List.getElem_map, List.getElem_range, if_pos h2, List.getD_eq_getElem _ _ h2]

theorem below_window (cache : ClassCache) (n k : Nat) :
    cache.below (n + k) = cache.below n ++ cache.window n k := by
  unfold ClassCache.below ClassCache.window
  rw [List.range_add, List.map_append, List.map_map]
  rfl

end Slots

/-! ## The invariant -/

abbrev Caches := Nat → ThreadCache

/-- The caches after thread `t` has `k` for class `c`. -/
def setCache (caches : Caches) (t c : Nat) (k : ClassCache) : Caches :=
  Function.update caches t (Function.update (caches t) c k)

theorem setCache_self (caches : Caches) (t c : Nat) (k : ClassCache) :
    setCache caches t c k t c = k := by simp [setCache]

theorem setCache_of_ne {caches : Caches} {t c u d : Nat} {k : ClassCache} (h : ¬ (u = t ∧ d = c)) :
    setCache caches t c k u d = caches u d := by
  unfold setCache
  by_cases hu : u = t
  · subst hu
    rw [Function.update_self, Function.update_of_ne fun hd => h ⟨rfl, hd⟩]
  · rw [Function.update_of_ne hu]

theorem setCache_setCache (caches : Caches) (t c : Nat) (k k' : ClassCache) :
    setCache (setCache caches t c k) t c k' = setCache caches t c k' := by simp [setCache]

structure SmallOk (w : World) (pools : PoolAllocator) (caches : Caches) (parts : Places)
    (others : List Span) : Prop where
  pools : PoolsOk w pools parts others
  cached : ∀ t, ∀ c < 30, parts c (.cached t) = (caches t c).below (caches t c).count
  count : ∀ t, ∀ c < 30, (caches t c).count ≤ kCapacity

/-- A tier that has served nothing yet. -/
theorem smallOk_empty {w : World} (hw : w.Ok) :
    SmallOk w (fun _ => {}) (fun _ => ThreadCache.empty) (fun _ _ => []) w.mapped := by
  refine ⟨⟨hw, ?_, fun c _ => ⟨rfl, rfl, Or.inl ⟨rfl, rfl⟩⟩, fun c _ => ?_⟩, fun t c _ => rfl,
    fun t c _ => Nat.zero_le _⟩
  · have : allRuns (fun _ => {}) = [] := by simp [allRuns]
    rw [this]
    exact List.Perm.refl _
  · rw [carved_nil rfl]
    exact ⟨List.nodup_nil, fun _ => List.nodup_nil, fun _ _ _ h => absurd h List.not_mem_nil,
      fun b => ⟨fun h => absurd h List.not_mem_nil, fun ⟨_, h⟩ => absurd h List.not_mem_nil⟩⟩

section Steps
variable {w w' : World} {pools pools' : PoolAllocator} {caches : Caches} {parts : Places}
  {others : List Span} {c t : Nat} {p q : Place} {r l : List Nat}

/-- A move in which thread `t` has a part, its cache being `k` afterwards. -/
theorem SmallOk.setCache (h : SmallOk w pools caches parts others) {k : ClassCache}
    (hpools : PoolsOk w' pools' (moveTo parts c p q r l) others)
    (hp : ∀ u, p = .cached u → u = t) (hq : ∀ u, q = .cached u → u = t)
    (hk : moveTo parts c p q r l c (.cached t) = k.below k.count) (hcnt : k.count ≤ kCapacity) :
    SmallOk w' pools' (Small.setCache caches t c k) (moveTo parts c p q r l) others where
  pools := hpools
  cached u d hd := by
    by_cases hud : u = t ∧ d = c
    · obtain ⟨rfl, rfl⟩ := hud
      rw [setCache_self, hk]
    · rw [setCache_of_ne hud, ← h.cached u d hd]
      by_cases hdc : d = c
      · subst hdc
        refine moveTo_else _ _ (fun e => hud ⟨hp u e.symm, rfl⟩) fun e => hud ⟨hq u e.symm, rfl⟩
      · rw [moveTo_other _ _ hdc]
  count u d hd := by
    by_cases hud : u = t ∧ d = c
    · obtain ⟨rfl, rfl⟩ := hud
      rw [setCache_self]
      exact hcnt
    · rw [setCache_of_ne hud]
      exact h.count u d hd

/-- A move in which no cache has a part. -/
theorem SmallOk.keepCaches (h : SmallOk w pools caches parts others)
    (hpools : PoolsOk w' pools' (moveTo parts c p q r l) others) (hp : ∀ u, p ≠ .cached u)
    (hq : ∀ u, q ≠ .cached u) : SmallOk w' pools' caches (moveTo parts c p q r l) others where
  pools := hpools
  cached u d hd := by
    rw [← h.cached u d hd]
    by_cases hdc : d = c
    · subst hdc
      exact moveTo_else _ _ (Ne.symm (hp u)) (Ne.symm (hq u))
    · rw [moveTo_other _ _ hdc]
  count := h.count

/-- Slots at or above the count do not matter. -/
theorem SmallOk.sameBelow (h : SmallOk w pools caches parts others) (hc : c < 30) {k : ClassCache}
    (hk : k.below k.count = (caches t c).below (caches t c).count) (hcnt : k.count ≤ kCapacity) :
    SmallOk w pools (Small.setCache caches t c k) parts others where
  pools := h.pools
  cached u d hd := by
    by_cases hud : u = t ∧ d = c
    · obtain ⟨rfl, rfl⟩ := hud
      rw [setCache_self, h.cached u d hc, hk]
    · rw [setCache_of_ne hud]
      exact h.cached u d hd
  count u d hd := by
    by_cases hud : u = t ∧ d = c
    · obtain ⟨rfl, rfl⟩ := hud
      rw [setCache_self]
      exact hcnt
    · rw [setCache_of_ne hud]
      exact h.count u d hd

/-- `cache.count = n` after a batch of `n` blocks was stored: the batch becomes the cache. -/
theorem SmallOk.fill (h : SmallOk w pools caches parts others) (hc : c < 30) {l : List Nat}
    (h0 : (caches t c).count = 0) (hbelow : (caches t c).below l.length = l)
    (hlen : l.length ≤ kCapacity) (hp : p ≠ .free) (hpc : ∀ u, p ≠ .cached u)
    (hbs : (parts c p).Perm (l ++ r)) :
    SmallOk w pools (Small.setCache caches t c { caches t c with count := l.length })
      (moveTo parts c p (.cached t) r l) others := by
  have hempty : parts c (.cached t) = [] := by
    rw [h.cached t c hc, h0]
    rfl
  refine h.setCache (h.pools.move (hpc t) hp (by simp) hbs (by rw [hempty, List.append_nil]))
    (fun u e => absurd e (hpc u)) (fun u e => by cases e; rfl) ?_ hlen
  rw [moveTo_dst]
  exact hbelow.symm

/-- `--cache.count; return cache.slots[cache.count]`. -/
theorem SmallOk.take (h : SmallOk w pools caches parts others) (hc : c < 30)
    (hpos : 0 < (caches t c).count) (hp : p ≠ .free) (hpc : ∀ u, p ≠ .cached u) :
    SmallOk w pools (Small.setCache caches t c (caches t c).take.2)
      (moveTo parts c (.cached t) p ((caches t c).below ((caches t c).count - 1))
        ((caches t c).take.1 :: parts c p)) others := by
  have hcnt := h.count t c hc
  have hb : parts c (.cached t) =
      (caches t c).below ((caches t c).count - 1) ++ [(caches t c).take.1] := by
    rw [h.cached t c hc]
    conv_lhs => rw [show (caches t c).count = (caches t c).count - 1 + 1 by omega]
    exact below_succ _ _
  have hsrc : (parts c (.cached t)).Perm
      ([(caches t c).take.1] ++ (caches t c).below ((caches t c).count - 1)) := by
    rw [hb]
    exact List.perm_append_comm
  refine h.setCache (h.pools.move (Ne.symm (hpc t)) (by simp) hp hsrc (List.Perm.refl _)) 
    (fun u e => by cases e; rfl) (fun u e => absurd e (hpc u)) ?_ ?_
  · rw [moveTo_src _ _ (Ne.symm (hpc t))]
    rfl
  · simp only [ClassCache.take]
    omega

/-- `cache.slots[cache.count] = block; ++cache.count`. -/
theorem SmallOk.put (h : SmallOk w pools caches parts others) (hc : c < 30)
    (hlt : (caches t c).count < kCapacity) (hp : p ≠ .free) (hpc : ∀ u, p ≠ .cached u) {b : Nat}
    (hb : (parts c p).Perm (b :: r)) :
    SmallOk w pools (Small.setCache caches t c ((caches t c).put b))
      (moveTo parts c p (.cached t) r ((caches t c).below (caches t c).count ++ [b])) others := by
  refine h.setCache (h.pools.move (hpc t) hp (by simp) (show (parts c p).Perm ([b] ++ r) from hb) ?_)
    (fun u e => absurd e (hpc u)) (fun u e => by cases e; rfl) ?_ hlt
  · rw [h.cached t c hc]
    exact List.perm_append_comm
  · rw [moveTo_dst]
    exact below_put.symm

/-- The overflow `freeBatch` of the top 16 slots, and `cache.count = keep`. -/
theorem SmallOk.drop (h : SmallOk w pools caches parts others) (hc : c < 30)
    (hfull : (caches t c).count = kCapacity) :
    SmallOk (freeBatch w pools c ((caches t c).window 48 16)).1
        (freeBatch w pools c ((caches t c).window 48 16)).2
        (Small.setCache caches t c { caches t c with count := 48 })
        (moveTo parts c (.cached t) .free ((caches t c).below 48)
          (((caches t c).window 48 16).reverse ++ parts c .free)) others := by
  have hbs : (parts c (.cached t)).Perm ((caches t c).window 48 16 ++ (caches t c).below 48) := by
    rw [h.cached t c hc, hfull, show kCapacity = 48 + 16 by rfl, below_window]
    exact List.perm_append_comm
  refine h.setCache (h.pools.freeBatch hc (by simp) hbs).1 (fun u e => by cases e; rfl)
    (fun u e => by cases e) ?_ (show 48 ≤ 64 by decide)
  rw [moveTo_src _ _ (by simp)]
  rfl

end Steps

/-! ## The calls between which nothing is in flight -/

/-- The blocks of the clients keep their bytes, and so does everything outside the tier. -/
structure SmallKeeps (w w' : World) (parts : Places) (others : List Span) : Prop where
  page : w'.page = w.page
  refusals : w.refusals ≤ w'.refusals
  blocks : ∀ c < 30, ∀ b ∈ parts c .client, SameOn w.mem w'.mem b (blockStride c)
  outside : ∀ r ∈ others, SameOn w.mem w'.mem r.data r.size
  tame : Tame w.mem w'.mem

/-- Of the clients' blocks only those of class `c` have changed, to `l`. -/
structure ClientsNow (parts parts' : Places) (c : Nat) (l : List Nat) : Prop where
  other : ∀ d, d ≠ c → parts' d .client = parts d .client
  here : (parts' c .client).Perm l

section Calls
variable {w w' : World} {pools pools' : PoolAllocator} {caches : Caches} {parts : Places}
  {others : List Span} {c t : Nat}

theorem SmallKeeps.refl (w : World) (parts : Places) (others : List Span) :
    SmallKeeps w w parts others :=
  ⟨rfl, Nat.le_refl _, fun _ _ _ _ => SameOn.refl _ _ _, fun _ _ => SameOn.refl _ _ _, Tame.refl _⟩

theorem smallKeeps_of_mapped (h : PoolsOk w pools parts others) (hk : w.Keeps w' w.mapped) :
    SmallKeeps w w' parts others where
  page := hk.page
  refusals := hk.refusals
  blocks c hc b hb := by
    obtain ⟨r, hr, hi⟩ := h.inside hc (((h.parts c hc).cover b).mpr ⟨_, hb⟩)
    exact (hk.bytes r (h.run_mapped (mem_allRuns hc hr))).mono hi.1 hi.2
  outside r hr := hk.bytes r (h.mapped.mem_iff.mpr (List.mem_append_right _ hr))
  tame x hx := hk.tame x hx (by simp)

/-- Links written into blocks of class `c` leave alone what those blocks do not meet. -/
theorem smallKeeps_of_links (h : PoolsOk w pools parts others) (hc : c < 30) {p : Place}
    {bs : List Nat} (hbs : ∀ b ∈ bs, b ∈ parts c p) (hpg : w'.page = w.page)
    (hrf : w'.refusals = w.refusals)
    (hm : ∀ x, (∀ b ∈ bs, ¬ (b ≤ x ∧ x < b + 8)) → w'.mem x = w.mem x) {parts' : Places}
    (hsub : ∀ d < 30, ∀ b ∈ parts' d .client, b ∈ carved (blockStride d) (pools d))
    (hout : ∀ b ∈ bs, b ∉ parts' c .client) : SmallKeeps w w' parts' others where
  page := hpg
  refusals := Nat.le_of_eq hrf.symm
  blocks d hd b hb x h1 h2 := by
    refine hm x fun b' hb' hx => ?_
    have hs := blockStride_bounds c hc
    have hap := h.apart hd hc (hsub d hd b hb) (((h.parts c hc).cover b').mpr ⟨_, hbs b' hb'⟩)
      (fun e => by
        obtain ⟨rfl, rfl⟩ := Prod.mk.injEq .. ▸ e
        exact hout b hb' hb)
    unfold Span.Disjoint at hap
    simp only at hap
    omega
  outside r hr x h1 h2 := by
    refine hm x fun b' hb' hx => ?_
    have hs := blockStride_bounds c hc
    obtain ⟨q, hq, hi⟩ := h.inside hc (((h.parts c hc).cover b').mpr ⟨_, hbs b' hb'⟩)
    have hd := (List.pairwise_append.mp (Span.pairwise_disjoint_perm h.mapped h.world.apart)).2.2 q
      (mem_allRuns hc hq) r hr
    refine hd.not_has (hi.has (x := x) ⟨hx.1, ?_⟩) ⟨h1, h2⟩
    simp only
    omega
  tame x hx := by
    -- a link is the lower word of its cell
    refine Or.inl fun y h1 h2 => hm y fun b' hb' hy => ?_
    have := h.block_ok hc (((h.parts c hc).cover b').mpr ⟨_, hbs b' hb'⟩)
    omega

/-- What a small allocation may do. -/
inductive SmallAlloc (w : World) (parts : Places) (others : List Span) (c : Nat) (w' : World)
    (pools' : PoolAllocator) (caches' : Caches) : Option Nat → Prop
  | took {parts' b} : SmallOk w' pools' caches' parts' others → SmallKeeps w w' parts others →
      ClientsNow parts parts' c (b :: parts c .client) →
      SmallAlloc w parts others c w' pools' caches' (some b)
  | refused {parts'} : SmallOk w' pools' caches' parts' others → SmallKeeps w w' parts others →
      ClientsNow parts parts' c (parts c .client) → w.refusals < w'.refusals →
      SmallAlloc w parts others c w' pools' caches' none

/-- **`ThreadCache::allocateBlock`**. -/
theorem allocateBlock_spec (h : SmallOk w pools caches parts others) (hc : c < 30) (t : Nat) :
    ∃ o k w' pools', ThreadCache.allocateBlock (caches t) w pools c =
        (o, Function.update (caches t) c k, w', pools') ∧
      SmallAlloc w parts others c w' pools' (setCache caches t c k) o := by
  unfold ThreadCache.allocateBlock
  by_cases h0 : (caches t c).count = 0
  · rw [if_pos h0]
    obtain ⟨bs, w', pools', free', he, hp1, hk, hlen, href, -⟩ :=
      h.pools.allocateBatch hc (p := .flight t) (by simp) kBatchSize
    have h1 := h.keepCaches hp1 (by simp) (by simp)
    have h2 := h1.sameBelow (t := t) (k := (caches t c).stored bs) hc
      (by simp [ClassCache.stored, h0, ClassCache.below]) (h.count t c hc)
    have hkeeps := smallKeeps_of_mapped h.pools hk
    have hbelow : (setCache caches t c ((caches t c).stored bs) t c).below bs.length = bs := by
      rw [setCache_self]
      exact below_stored bs
    have h3 := h2.fill (p := .flight t) (t := t) hc (by rw [setCache_self]; exact h0) hbelow
      (hlen.trans (by decide)) (by simp) (by simp) (by rw [moveTo_dst])
    have hcc : setCache (setCache caches t c ((caches t c).stored bs)) t c
        { setCache caches t c ((caches t c).stored bs) t c with count := bs.length } =
        setCache caches t c { (caches t c).stored bs with count := bs.length } := by
      rw [setCache_self]
      simp [setCache]
    rw [hcc] at h3
    rw [he]
    dsimp only
    by_cases hz : bs.length = 0
    · rw [if_pos hz]
      refine ⟨_, _, _, _, rfl, SmallAlloc.refused h3 hkeeps ⟨fun d hd => ?_, ?_⟩ (href (by rw [hz]; decide)).1⟩
      · rw [moveTo_other _ _ hd, moveTo_other _ _ hd]
      · rw [moveTo_else _ _ (by simp) (by simp), moveTo_else _ _ (by simp) (by simp)]
    · rw [if_neg hz]
      have h4 := h3.take (t := t) (p := .client) hc (by rw [setCache_self]; simp only; omega) (by simp)
        (by simp)
      rw [setCache_self] at h4
      rw [setCache_setCache] at h4
      refine ⟨_, _, _, _, rfl, SmallAlloc.took h4 hkeeps ⟨fun d hd => ?_, ?_⟩⟩
      · rw [moveTo_other _ _ hd, moveTo_other _ _ hd, moveTo_other _ _ hd]
      · rw [moveTo_dst, moveTo_else _ _ (by simp) (by simp), moveTo_else _ _ (by simp) (by simp)]
  · rw [if_neg h0]
    refine ⟨_, _, _, _, rfl, SmallAlloc.took (h.take hc (Nat.pos_of_ne_zero h0) (p := .client) (by simp)
      (by simp)) (SmallKeeps.refl _ _ _) ⟨fun d hd => ?_, ?_⟩⟩
    · rw [moveTo_other _ _ hd]
    · rw [moveTo_dst]

/-- **`PoolAllocator::allocateBlock`** for a client without cache. -/
theorem poolAllocateBlock_spec (h : SmallOk w pools caches parts others) (hc : c < 30) :
    ∃ o w' pools', PoolAllocator.allocateBlock w pools c = (o, w', pools') ∧
      SmallAlloc w parts others c w' pools' caches o := by
  obtain ⟨o, w', pools', free', he, hp, hk, href⟩ := h.pools.allocateBlock hc (p := .client) (by simp)
  have h1 := h.keepCaches hp (by simp) (by simp)
  have hkeeps := smallKeeps_of_mapped h.pools hk
  refine ⟨o, w', pools', he, ?_⟩
  cases o with
  | none =>
    refine SmallAlloc.refused h1 hkeeps ⟨fun d hd => ?_, ?_⟩ (href rfl)
    · rw [moveTo_other _ _ hd]
    · rw [moveTo_dst]
      rfl
  | some b =>
    refine SmallAlloc.took h1 hkeeps ⟨fun d hd => ?_, ?_⟩
    · rw [moveTo_other _ _ hd]
    · rw [moveTo_dst]
      rfl

/-- What giving back the block `b` of class `c` does. -/
structure SmallFree (w : World) (parts : Places) (others : List Span) (c b : Nat) (w' : World)
    (pools' : PoolAllocator) (caches' : Caches) (parts' : Places) : Prop where
  ok : SmallOk w' pools' caches' parts' others
  keeps : SmallKeeps w w' parts' others
  clients : ClientsNow parts parts' c ((parts c .client).erase b)
  refusals : w'.refusals = w.refusals
  mapped : w'.mapped = w.mapped
  links : ∀ x, (∀ p, ∀ b ∈ parts c p, ¬ (b ≤ x ∧ x < b + 8)) → w'.mem x = w.mem x

/-- A client's block is carved from its class, wherever the other blocks go. -/
theorem ClientsNow.sub {parts' : Places} {l : List Nat} (hn : ClientsNow parts parts' c l)
    (h : PoolsOk w pools parts others) (hl : ∀ b ∈ l, b ∈ parts c .client) :
    ∀ d < 30, ∀ b ∈ parts' d .client, b ∈ carved (blockStride d) (pools d) := by
  intro d hd b hb
  refine ((h.parts d hd).cover b).mpr ⟨.client, ?_⟩
  by_cases hdc : d = c
  · subst hdc
    exact hl b (hn.here.mem_iff.mp hb)
  · rwa [hn.other d hdc] at hb

/-- **`ThreadCache::freeBlock`** of a block a client holds. -/
theorem freeBlock_spec (h : SmallOk w pools caches parts others) (hc : c < 30) (t : Nat) {b : Nat}
    (hb : b ∈ parts c .client) :
    ∃ k w' pools' parts', ThreadCache.freeBlock (caches t) w pools c b =
        (Function.update (caches t) c k, w', pools') ∧
      SmallFree w parts others c b w' pools' (setCache caches t c k) parts' := by
  have hperm := List.perm_cons_erase hb
  have hlt := h.count t c hc
  unfold ThreadCache.freeBlock
  by_cases hfull : (caches t c).count = kCapacity
  · rw [if_pos hfull]
    have h1 := h.drop hc hfull
    have hbs : (parts c (.cached t)).Perm ((caches t c).window 48 16 ++ (caches t c).below 48) := by
      rw [h.cached t c hc, hfull, show kCapacity = 48 + 16 by rfl, below_window]
      exact List.perm_append_comm
    obtain ⟨-, hmp, hpg, hrf, hm⟩ := h.pools.freeBatch hc (p := .cached t) (by simp) hbs
    have h2 := h1.put (t := t) (p := .client) (b := b) (r := (parts c .client).erase b) hc
      (by rw [setCache_self]; exact (show 48 < 64 by decide)) (by simp) (by simp)
      (by rw [moveTo_else _ _ (by simp) (by simp)]; exact hperm)
    rw [setCache_self, setCache_setCache] at h2
    have hnow : ClientsNow parts (moveTo (moveTo parts c (.cached t) .free ((caches t c).below 48)
        (((caches t c).window 48 16).reverse ++ parts c .free)) c .client (.cached t)
        ((parts c .client).erase b) (ClassCache.below { caches t c with count := 48 } 48 ++ [b])) c
        ((parts c .client).erase b) := by
      refine ⟨fun d hd => ?_, ?_⟩
      · rw [moveTo_other _ _ hd, moveTo_other _ _ hd]
      · rw [moveTo_src _ _ (by simp)]
    have hin : ∀ b ∈ (caches t c).window 48 16, b ∈ parts c (.cached t) := fun b hb =>
      hbs.mem_iff.mpr (List.mem_append_left _ hb)
    -- the batch is an atom from here on
    have hkeep : kCapacity - kBatchSize = 48 := rfl
    have hbatch : kBatchSize = 16 := rfl
    dsimp only
    rw [hkeep, hbatch]
    generalize freeBatch w pools c ((caches t c).window 48 16) = q at *
    refine ⟨_, _, _, _, rfl, h2, ?_, hnow, hrf, hmp, fun x hx => ?_⟩
    · refine smallKeeps_of_links h.pools hc hin hpg hrf hm
        (hnow.sub h.pools fun b hb => List.mem_of_mem_erase hb) fun b' hb' hb'' => ?_
      have := (h.pools.parts c hc).apart _ _ b' (hin b' hb')
        (List.mem_of_mem_erase (hnow.here.mem_iff.mp hb''))
      cases this
    · exact hm x fun b' hb' => hx _ b' (hin b' hb')
  · rw [if_neg hfull]
    have h1 := h.put (t := t) (p := .client) (b := b) (r := (parts c .client).erase b) hc
      (lt_of_le_of_ne hlt hfull) (by simp) (by simp) hperm
    refine ⟨_, _, _, _, rfl, h1, SmallKeeps.refl _ _ _, ⟨fun d hd => ?_, ?_⟩, rfl, rfl, fun _ _ => rfl⟩
    · rw [moveTo_other _ _ hd]
    · rw [moveTo_src _ _ (by simp)]

/-- **`PoolAllocator::freeBlock`** of a block a client holds. -/
theorem poolFreeBlock_spec (h : SmallOk w pools caches parts others) (hc : c < 30) {b : Nat}
    (hb : b ∈ parts c .client) :
    ∃ w' pools' parts', PoolAllocator.freeBlock w pools c b = (w', pools') ∧
      SmallFree w parts others c b w' pools' caches parts' := by
  have hperm := List.perm_cons_erase hb
  obtain ⟨h1, hmp, hpg, hrf, hm⟩ := h.pools.freeBatch hc (p := .client) (by simp)
    (show (parts c .client).Perm ([b] ++ (parts c .client).erase b) from hperm)
  have h2 := h.keepCaches h1 (by simp) (by simp)
  have hnow : ClientsNow parts (moveTo parts c .client .free ((parts c .client).erase b)
      ([b].reverse ++ parts c .free)) c ((parts c .client).erase b) := by
    refine ⟨fun d hd => ?_, ?_⟩
    · rw [moveTo_other _ _ hd]
    · rw [moveTo_src _ _ (by simp)]
  refine ⟨_, _, _, rfl, h2, ?_, hnow, hrf, hmp, fun x hx => hm x fun b' hb' => ?_⟩
  · refine smallKeeps_of_links h.pools hc (p := .client) (by simpa using hb) hpg hrf hm
      (hnow.sub h.pools fun b hb => List.mem_of_mem_erase hb) fun b' hb' hb'' => ?_
    rw [List.mem_singleton.mp hb'] at hb''
    exact ((h.pools.parts c hc).once .client).not_mem_erase (hnow.here.mem_iff.mp hb'')
  · rw [List.mem_singleton.mp hb']
    exact hx _ b hb

/-! ## The destructor -/

theorem flushFrom_congr {k k' : ThreadCache} {n : Nat} (hk : ∀ d, c ≤ d → k d = k' d) :
    ThreadCache.flushFrom k n c w pools = ThreadCache.flushFrom k' n c w pools := by
  induction n generalizing c w pools with
  | zero => rfl
  | succ n ih =>
    unfold ThreadCache.flushFrom
    rw [hk c (Nat.le_refl _)]
    exact ih fun d hd => hk d (by omega)

/-- One class of the destructor's loop. -/
theorem SmallOk.flushClass (h : SmallOk w pools caches parts others) (hc : c < 30) (t : Nat) :
    ∃ w' pools' parts', (if 0 < (caches t c).count then
        freeBatch w pools c ((caches t c).below (caches t c).count) else (w, pools)) = (w', pools') ∧
      SmallOk w' pools' (Small.setCache caches t c {}) parts' others ∧
      (∀ d p, p ≠ .free → (∀ u, p ≠ .cached u) → parts' d p = parts d p) ∧
      SmallKeeps w w' parts others ∧ w'.refusals = w.refusals ∧ w'.mapped = w.mapped := by
  by_cases hpos : 0 < (caches t c).count
  · rw [if_pos hpos]
    have hbs : (parts c (.cached t)).Perm ((caches t c).below (caches t c).count ++ []) := by
      rw [h.cached t c hc, List.append_nil]
    obtain ⟨h1, hmp, hpg, hrf, hm⟩ := h.pools.freeBatch hc (p := .cached t) (by simp) hbs
    refine ⟨_, _, _, rfl, h.setCache (k := {}) h1 (fun u e => by cases e; rfl) (fun u e => by cases e) ?_
      (Nat.zero_le _), fun d p hp hpc => ?_, ?_, hrf, hmp⟩
    · rw [moveTo_src _ _ (by simp)]
      rfl
    · by_cases hdc : d = c
      · subst hdc
        exact moveTo_else _ _ (hpc t) hp
      · rw [moveTo_other _ _ hdc]
    · refine smallKeeps_of_links h.pools hc (p := .cached t) (fun b hb => ?_) hpg hrf hm
        (fun d hd b hb => ((h.pools.parts d hd).cover b).mpr ⟨_, hb⟩) fun b hb hb' => ?_
      · rwa [h.cached t c hc]
      · rw [← h.cached t c hc] at hb
        have := (h.pools.parts c hc).apart _ _ b hb hb'
        cases this
  · rw [if_neg hpos]
    refine ⟨_, _, parts, rfl, h.sameBelow hc ?_ (Nat.zero_le _), fun _ _ _ _ => rfl,
      SmallKeeps.refl _ _ _, rfl, rfl⟩
    rw [Nat.eq_zero_of_not_pos hpos]
    rfl

/-- The loop of `~ThreadCache` over `n` classes from `c` on: their blocks are free again. -/
theorem flushFrom_spec {n : Nat} (h : SmallOk w pools caches parts others) (hn : c + n ≤ 30) (t : Nat) :
    ∃ w' pools' parts', ThreadCache.flushFrom (caches t) n c w pools = (w', pools') ∧
      SmallOk w' pools' (fun u d => if u = t ∧ c ≤ d ∧ d < c + n then {} else caches u d) parts' others ∧
      (∀ d p, p ≠ .free → (∀ u, p ≠ .cached u) → parts' d p = parts d p) ∧
      SmallKeeps w w' parts others ∧ w'.refusals = w.refusals ∧ w'.mapped = w.mapped := by
  induction n generalizing w pools caches parts c with
  | zero =>
    have he : (fun u d => if u = t ∧ c ≤ d ∧ d < c + 0 then ({} : ClassCache) else caches u d) =
        caches := by
      funext u d
      rw [if_neg (by omega)]
    rw [he]
    exact ⟨w, pools, parts, rfl, h, fun _ _ _ _ => rfl, SmallKeeps.refl _ _ _, rfl, rfl⟩
  | succ n ih =>
    obtain ⟨w1, pools1, parts1, he1, h1, hp1, hk1, hrf1, hmp1⟩ := h.flushClass (c := c) (by omega) t
    obtain ⟨w2, pools2, parts2, he2, h2, hp2, hk2, hrf2, hmp2⟩ := ih (c := c + 1) h1 (by omega)
    have hcongr : ThreadCache.flushFrom (caches t) n (c + 1) w1 pools1 =
        ThreadCache.flushFrom (setCache caches t c {} t) n (c + 1) w1 pools1 :=
      flushFrom_congr fun d hd => (setCache_of_ne (by omega)).symm
    refine ⟨w2, pools2, parts2, ?_, ?_, fun d p hp hpc => (hp2 d p hp hpc).trans (hp1 d p hp hpc), ?_,
      hrf2.trans hrf1, hmp2.trans hmp1⟩
    · unfold ThreadCache.flushFrom
      dsimp only
      rw [he1]
      exact hcongr.trans he2
    · have he : (fun u d => if u = t ∧ c ≤ d ∧ d < c + (n + 1) then ({} : ClassCache) else caches u d) =
          fun u d => if u = t ∧ c + 1 ≤ d ∧ d < c + 1 + n then ({} : ClassCache)
            else setCache caches t c {} u d := by
        funext u d
        by_cases hud : u = t ∧ d = c
        · obtain ⟨rfl, rfl⟩ := hud
          rw [if_pos (by omega), if_neg (by omega), setCache_self]
        · rw [setCache_of_ne hud]
          by_cases hin : u = t ∧ c + 1 ≤ d ∧ d < c + 1 + n
          · rw [if_pos hin, if_pos (by omega)]
          · rw [if_neg hin, if_neg (by omega)]
      rw [he]
      exact h2
    · have hcl : ∀ d, parts1 d .client = parts d .client := fun d => hp1 d .client (by simp) (by simp)
      exact ⟨hk2.page.trans hk1.page, hk1.refusals.trans hk2.refusals,
        fun d hd b hb => (hk1.blocks d hd b hb).trans (hk2.blocks d hd b (by rw [hcl]; exact hb)),
        fun r hr => (hk1.outside r hr).trans (hk2.outside r hr), hk1.tame.trans hk2.tame⟩

/-- **`~ThreadCache`**: every block of the thread's cache is free again, under its class. -/
theorem flush_spec (h : SmallOk w pools caches parts others) (t : Nat) :
    ∃ w' pools' parts', ThreadCache.flush (caches t) w pools = (w', pools') ∧
      SmallOk w' pools' (Function.update caches t ThreadCache.empty) parts' others ∧
      (∀ d p, p ≠ .free → (∀ u, p ≠ .cached u) → parts' d p = parts d p) ∧
      SmallKeeps w w' parts others ∧ w'.refusals = w.refusals ∧ w'.mapped = w.mapped := by
  obtain ⟨w', pools', parts', he, hok, hp, hk, hrf, hmp⟩ := flushFrom_spec (c := 0) (n := 30) h (by omega) t
  refine ⟨w', pools', parts', he, ⟨hok.pools, fun u d hd => ?_, fun u d hd => ?_⟩, hp, hk, hrf, hmp⟩
  · have := hok.cached u d hd
    by_cases hu : u = t
    · subst hu
      rw [if_pos (by omega)] at this
      rw [Function.update_self]
      exact this
    · rw [if_neg (by omega)] at this
      rw [Function.update_of_ne hu]
      exact this
  · have := hok.count u d hd
    by_cases hu : u = t
    · subst hu
      rw [Function.update_self]
      exact Nat.zero_le _
    · rw [if_neg (by omega)] at this
      rw [Function.update_of_ne hu]
      exact this

end Calls

end MAlloc.Small
