/-
  The calls of one process, on any of its allocators.

  The cache of a thread for an allocator is the object under its address, provided its weak pointer
  names the allocator (`cachesFor`). `ProcessOk` holds `InstanceOk` for each allocator that is alive, the
  others being the runs of the rest. A call keeps it and leaves the other allocators untouched
  (`ProcessOk.call`); so do the birth and the death of an allocator and the end of a cache.
-/
import MAlloc.Lib.Keyed
import MAlloc.Model.CentralState
import MAlloc.Small.Instance

namespace MAlloc.Small

open Lib PoolAllocator SizeClassTable SystemMemory MappedRegion

/-- What a client holds after an allocation of `size` bytes has returned. -/
def received (held : List Held) (size : Nat) : Option Nat → List Held
  | none => held
  | some user => ⟨user, size, classIndex size⟩ :: held

/-- The cache of each thread for `c`. -/
def cachesFor (tls : Nat → List (Nat × CacheObject)) (c : CentralState) : Caches := fun t =>
  match (tls t).lookup c.address with
  | some o => if o.central = c.id then o.caches else ThreadCache.empty
  | none => ThreadCache.empty

/-- The runs of all allocators but one. -/
def othersOf (centrals : List CentralState) (id : Nat) : List Span :=
  (centrals.filter fun c => decide (c.id ≠ id)).flatMap fun c => allRuns c.pools

/-- A thread's map: one object an address, and an object whose `CentralState` is alive stands under the
    address of that one. -/
structure SlotsOk (centrals : List CentralState) (created : Nat) (entries : List (Nat × CacheObject)) :
    Prop where
  once : (entries.map Prod.fst).Nodup
  known : ∀ e ∈ entries, e.2.central < created
  place : ∀ e ∈ entries, ∀ c ∈ centrals, c.id = e.2.central → c.address = e.1

/-- Control blocks and addresses name the allocators that are alive. -/
structure NamesOk (P : Process) : Prop where
  ids : (P.centrals.map CentralState.id).Nodup
  known : ∀ c ∈ P.centrals, c.id < P.created
  addresses : (P.centrals.map CentralState.address).Nodup
  slots : ∀ t, SlotsOk P.centrals P.created (P.tlsCaches t)

structure ProcessOk (P : Process) (held : Nat → List Held) (parts : Nat → Places) : Prop where
  names : NamesOk P
  world : P.world.Ok
  mapped : P.world.mapped.Perm (P.centrals.flatMap fun c => allRuns c.pools)
  alone : ∀ c ∈ P.centrals, InstanceOk P.world c.pools (cachesFor P.tlsCaches c) (held c.id) (parts c.id)
    (othersOf P.centrals c.id)
  gone : ∀ id, (∀ c ∈ P.centrals, c.id ≠ id) → held id = []

/-! ## The map of a thread -/

section Slots
variable {P P' : Process} {t : Nat} {c d : CentralState} {o : CacheObject}

theorem lock_of_mem (h : NamesOk P) (hc : c ∈ P.centrals) : P.lock c.id = some c := find_key h.ids hc

theorem mem_of_lock {id : Nat} (h : P.lock id = some c) : c ∈ P.centrals ∧ c.id = id := by
  have hp := List.find?_some h
  exact ⟨List.mem_of_find?_eq_some h, of_decide_eq_true hp⟩

theorem poolsOf_mem (h : NamesOk P) (hc : c ∈ P.centrals) : P.poolsOf c.id = c.pools := by
  unfold Process.poolsOf
  rw [lock_of_mem h hc]

theorem expired_iff : P.expired o = true ↔ ∀ c ∈ P.centrals, c.id ≠ o.central := by
  unfold Process.expired Process.lock
  rw [Option.isNone_iff_eq_none, List.find?_eq_none]
  simp

theorem not_expired_iff : P.expired o = false ↔ ∃ c ∈ P.centrals, c.id = o.central := by
  rw [← Bool.not_eq_true, expired_iff]
  simp

theorem destroyCache_expired (h : P.expired o = true) : P.destroyCache o = P := by
  unfold Process.destroyCache
  rw [Option.isNone_iff_eq_none.mp h]

theorem NamesOk.ne (h : NamesOk P) (hc : c ∈ P.centrals) (hd : d ∈ P.centrals) (hne : d.id ≠ c.id) :
    d.address ≠ c.address := fun he => hne (by rw [List.inj_on_of_nodup_map h.addresses hd hc he])

/-- An object that has not expired, under the address of a living `CentralState`, names it. -/
theorem NamesOk.names (h : NamesOk P) (hc : c ∈ P.centrals) (hlook : (P.tlsCaches t).lookup c.address = some o)
    (hlive : P.expired o = false) : o.central = c.id := by
  obtain ⟨d, hd, hdo⟩ := not_expired_iff.mp hlive
  have hplace := (h.slots t).place _ (mem_of_lookup hlook) d hd hdo
  rw [← List.inj_on_of_nodup_map h.addresses hd hc hplace]
  exact hdo.symm

theorem cachesFor_update (tls : Nat → List (Nat × CacheObject)) (entries : List (Nat × CacheObject))
    (hother : ∀ a, a ≠ c.address → entries.lookup a = (tls t).lookup a) (haddr : d.address ≠ c.address) :
    cachesFor (Function.update tls t entries) d = cachesFor tls d := by
  funext u
  unfold cachesFor
  by_cases hu : u = t
  · rw [hu, Function.update_self, hother _ haddr]
  · rw [Function.update_of_ne hu]

/-- The object of `c` in thread `t` is set. -/
theorem cachesFor_store (P : Process) (t : Nat) (c : CentralState) (k : ThreadCache) :
    cachesFor (P.store t c.address ⟨c.id, k⟩).tlsCaches c = Function.update (cachesFor P.tlsCaches c) t k := by
  funext u
  unfold cachesFor Process.store
  dsimp only
  by_cases hu : u = t
  · rw [hu, Function.update_self, Function.update_self, List.lookup_cons_self]
    exact if_pos rfl
  · rw [Function.update_of_ne hu, Function.update_of_ne hu]

theorem cachesFor_store_of_ne (P : Process) (t : Nat) (o : CacheObject) (haddr : d.address ≠ c.address) :
    cachesFor (P.store t c.address o).tlsCaches d = cachesFor P.tlsCaches d :=
  cachesFor_update _ _ (fun _ ha => lookup_put_of_ne ha) haddr

/-- Other pools, and nothing that names an allocator. -/
theorem NamesOk.congr (h : NamesOk P) (hids : P'.centrals.map CentralState.id = P.centrals.map CentralState.id)
    (haddr : ∀ d ∈ P'.centrals, ∃ c ∈ P.centrals, c.id = d.id ∧ c.address = d.address)
    (hadd : P'.centrals.map CentralState.address = P.centrals.map CentralState.address)
    (hcr : P'.created = P.created) (htls : P'.tlsCaches = P.tlsCaches) : NamesOk P' := by
  refine ⟨hids ▸ h.ids, fun d hd => ?_, hadd ▸ h.addresses, fun t => ?_⟩
  · obtain ⟨c, hc, hcd, -⟩ := haddr d hd
    rw [hcr, ← hcd]
    exact h.known c hc
  · have ht := h.slots t
    rw [htls]
    refine ⟨ht.once, fun e he => hcr ▸ ht.known e he, fun e he d hd hde => ?_⟩
    obtain ⟨c, hc, hcd, hca⟩ := haddr d hd
    rw [← hca]
    exact ht.place e he c hc (hcd.trans hde)

theorem NamesOk.store (h : NamesOk P) (hc : c ∈ P.centrals) (t : Nat) (k : ThreadCache) :
    NamesOk (P.store t c.address ⟨c.id, k⟩) := by
  refine ⟨h.ids, h.known, h.addresses, fun u => ?_⟩
  unfold Process.store
  dsimp only
  by_cases hu : u = t
  · rw [hu, Function.update_self]
    have ht := h.slots t
    refine ⟨nodup_put ht.once, ?_, ?_⟩
    · intro e he
      rcases List.mem_cons.mp he with rfl | he
      · exact h.known c hc
      · exact ht.known e (List.mem_of_mem_filter he)
    · intro e he d hd hde
      rcases List.mem_cons.mp he with rfl | he
      · rw [List.inj_on_of_nodup_map h.ids hd hc hde]
      · exact ht.place e (List.mem_of_mem_filter he) d hd hde
  · rw [Function.update_of_ne hu]
    exact h.slots u

end Slots

/-! ## A call -/

/-- Allocator `d` is as it was: its pools, the caches of all threads for it, and the bytes of its runs. -/
structure Untouched (P P' : Process) (d : CentralState) : Prop where
  central : d ∈ P'.centrals
  caches : cachesFor P'.tlsCaches d = cachesFor P.tlsCaches d
  bytes : ∀ r ∈ allRuns d.pools, SameOn P.mem P'.mem r.data r.size

section Calls
variable {P Q : Process} {held : Nat → List Held} {parts : Nat → Places} {c d : CentralState}
  {caches' : Caches} {r : World × PoolAllocator} {t k : Nat}

theorem Untouched.trans {R : Process} (h : Untouched P Q d) (h' : Untouched Q R d) : Untouched P R d :=
  ⟨h'.central, h'.caches.trans h.caches, fun r hr => (h.bytes r hr).trans (h'.bytes r hr)⟩

/-- The runs of one allocator, and those of the others. -/
theorem runs_split {centrals : List CentralState} (hids : (centrals.map CentralState.id).Nodup)
    (hd : d ∈ centrals) :
    (centrals.flatMap fun c => allRuns c.pools).Perm (allRuns d.pools ++ othersOf centrals d.id) :=
  (perm_filter_key hids hd).flatMap_right _

theorem mem_othersOf {centrals : List CentralState} {id : Nat} {r : Span} (hd : d ∈ centrals)
    (hne : d.id ≠ id) (hr : r ∈ allRuns d.pools) : r ∈ othersOf centrals id :=
  List.mem_flatMap.mpr ⟨d, List.mem_filter.mpr ⟨hd, decide_eq_true hne⟩, hr⟩

/-- An allocator around whose runs the world changes. -/
theorem ProcessOk.frame (h : ProcessOk P held parts) (hd : d ∈ P.centrals) (hnames : NamesOk Q)
    (hu : Untouched P Q d) (hw : Q.world.Ok)
    (hm : Q.world.mapped.Perm (Q.centrals.flatMap fun c => allRuns c.pools)) :
    InstanceOk Q.world d.pools (cachesFor Q.tlsCaches d) (held d.id) (parts d.id) (othersOf Q.centrals d.id) := by
  rw [hu.caches]
  exact (h.alone d hd).frame hw (hm.trans (runs_split hnames.ids hu.central)) hu.bytes

/-- Only the map of a thread has changed, and nothing in it that counts. -/
theorem ProcessOk.retable (h : ProcessOk P held parts) (hnames : NamesOk Q) (hw : Q.world = P.world)
    (hcen : Q.centrals = P.centrals)
    (hcaches : ∀ d ∈ P.centrals, cachesFor Q.tlsCaches d = cachesFor P.tlsCaches d) :
    ProcessOk Q held parts ∧ ∀ d ∈ P.centrals, Untouched P Q d := by
  have hu : ∀ d ∈ P.centrals, Untouched P Q d := by
    intro d hd
    refine ⟨hcen ▸ hd, hcaches d hd, fun r _ => ?_⟩
    unfold Process.mem
    rw [hw]
    exact SameOn.refl _ _ _
  have hm : Q.world.mapped.Perm (Q.centrals.flatMap fun c => allRuns c.pools) := by
    rw [hw, hcen]
    exact h.mapped
  refine ⟨⟨hnames, hw ▸ h.world, hm, fun d hd => ?_, hcen ▸ h.gone⟩, hu⟩
  rw [hcen] at hd
  exact h.frame hd hnames (hu d hd) (hw ▸ h.world) hm

theorem mem_setPools (h : NamesOk P) (hc : c ∈ P.centrals) :
    d ∈ (P.setPools c.id r).centrals ↔
      d = { c with pools := r.2 } ∨ (d ∈ P.centrals ∧ d.id ≠ c.id) := by
  unfold Process.setPools
  dsimp only
  rw [List.mem_map]
  constructor
  · rintro ⟨e, he, rfl⟩
    by_cases hec : e.id = c.id
    · obtain rfl := List.inj_on_of_nodup_map h.ids he hc hec
      exact Or.inl (if_pos rfl)
    · rw [if_neg hec]
      exact Or.inr ⟨he, hec⟩
  · rintro (rfl | ⟨hd, hne⟩)
    · exact ⟨c, hc, if_pos rfl⟩
    · exact ⟨d, hd, if_neg hne⟩

theorem othersOf_setPools (centrals : List CentralState) (id : Nat) (pools : PoolAllocator) :
    othersOf (centrals.map fun c => if c.id = id then { c with pools := pools } else c) id =
      othersOf centrals id := by
  unfold othersOf
  induction centrals with
  | nil => rfl
  | cons e l ih =>
    rw [List.map_cons]
    by_cases he : e.id = id
    · rw [if_pos he, List.filter_cons_of_neg (by simp [he]), List.filter_cons_of_neg (by simp [he]), ih]
    · rw [if_neg he, List.filter_cons_of_pos (by simp [he]), List.filter_cons_of_pos (by simp [he]),
        List.flatMap_cons, List.flatMap_cons, ih]

theorem NamesOk.setPools (h : NamesOk P) (id : Nat) (r : World × PoolAllocator) : NamesOk (P.setPools id r) := by
  have hkeep : ∀ (e : CentralState), (if e.id = id then { e with pools := r.2 } else e).id = e.id ∧
      (if e.id = id then { e with pools := r.2 } else e).address = e.address := by
    intro e
    split <;> exact ⟨rfl, rfl⟩
  have hids : (P.setPools id r).centrals.map CentralState.id = P.centrals.map CentralState.id := by
    unfold Process.setPools
    rw [List.map_map]
    exact List.map_congr_left fun e _ => (hkeep e).1
  have haddr : (P.setPools id r).centrals.map CentralState.address = P.centrals.map CentralState.address := by
    unfold Process.setPools
    rw [List.map_map]
    exact List.map_congr_left fun e _ => (hkeep e).2
  apply h.congr hids _ haddr rfl rfl
  intro d hd
  obtain ⟨e, he, rfl⟩ := List.mem_map.mp hd
  exact ⟨e, he, (hkeep e).1.symm, (hkeep e).2.symm⟩

/-! ### The object of a thread -/

/-- Thread `t` has the object `r.1` for `c`, or goes without; nothing that counts has changed. -/
structure Found (P : Process) (c : CentralState) (t : Nat) (r : Option CacheObject × Process) : Prop where
  names : NamesOk r.2
  world : r.2.world = P.world
  centrals : r.2.centrals = P.centrals
  caches : ∀ d ∈ P.centrals, cachesFor r.2.tlsCaches d = cachesFor P.tlsCaches d
  object : ∀ k, r.1 = some k → k = ⟨c.id, cachesFor P.tlsCaches c t⟩

/-- A new object for `c`, where the old one, if any, is dead. -/
theorem renew_spec (h : NamesOk P) (hc : c ∈ P.centrals)
    (hdead : ∀ o, (P.tlsCaches t).lookup c.address = some o → P.expired o = true) :
    Found P c t (P.renew t c) := by
  have hempty : cachesFor P.tlsCaches c t = ThreadCache.empty := by
    unfold cachesFor
    cases hlook : (P.tlsCaches t).lookup c.address with
    | none => rfl
    | some o => exact if_neg (Ne.symm (expired_iff.mp (hdead o hlook) c hc))
  have hstored : ∀ d ∈ P.centrals, cachesFor (P.store t c.address ⟨c.id, ThreadCache.empty⟩).tlsCaches d =
      cachesFor P.tlsCaches d := by
    intro d hd
    by_cases hdc : d.id = c.id
    · obtain rfl := List.inj_on_of_nodup_map h.ids hd hc hdc
      rw [cachesFor_store, ← hempty, Function.update_eq_self]
    · exact cachesFor_store_of_ne _ _ _ (h.ne hc hd hdc)
  have hnames := h.store hc t ThreadCache.empty
  have hfresh : Found P c t (some ⟨c.id, ThreadCache.empty⟩,
      { P with cacheFaults := P.cacheFaults.tail }.store t c.address ⟨c.id, ThreadCache.empty⟩) := by
    refine ⟨⟨hnames.ids, hnames.known, hnames.addresses, hnames.slots⟩, rfl, rfl, hstored, fun k hk => ?_⟩
    rw [hempty]
    exact (Option.some.inj hk).symm
  unfold Process.renew
  split
  · exact ⟨⟨h.ids, h.known, h.addresses, h.slots⟩, rfl, rfl, fun _ _ => rfl,
      fun k hk => absurd hk (Option.some_ne_none k).symm⟩
  · dsimp only
    cases hlook : (P.tlsCaches t).lookup c.address with
    | none => exact hfresh
    | some old =>
      have hgone : ({ P with cacheFaults := P.cacheFaults.tail }.store t c.address
          ⟨c.id, ThreadCache.empty⟩).expired old = true := expired_iff.mpr (expired_iff.mp (hdead old hlook))
      dsimp only
      rw [destroyCache_expired hgone]
      exact hfresh

/-- **The object of a thread is found or made.** -/
theorem threadCache_spec (h : NamesOk P) (hc : c ∈ P.centrals) (t : Nat) :
    Found P c t (P.threadCache t c) := by
  unfold Process.threadCache
  split
  · cases hlook : (P.tlsCaches t).lookup c.address with
    | none =>
      apply renew_spec h hc
      intro o ho
      rw [hlook] at ho
      cases ho
    | some o =>
      dsimp only
      by_cases hex : P.expired o = true
      · rw [if_pos hex]
        apply renew_spec h hc
        intro o' ho
        rw [hlook] at ho
        exact Option.some.inj ho ▸ hex
      · rw [if_neg hex]
        have hname := h.names hc hlook (by simpa using hex)
        refine ⟨h, rfl, rfl, fun _ _ => rfl, fun k hk => ?_⟩
        obtain rfl := Option.some.inj hk
        unfold cachesFor
        rw [hlook]
        dsimp only
        rw [if_pos hname, ← hname]
  · exact ⟨h, rfl, rfl, fun _ _ => rfl, fun k hk => absurd hk (Option.some_ne_none k).symm⟩

/-! ### What a call leaves -/

/-- `Q` is `P` after a call of the pools of `c`, the caches for it being `caches'` now. -/
structure Called (P : Process) (c : CentralState) (r : World × PoolAllocator) (caches' : Caches)
    (Q : Process) : Prop where
  names : NamesOk Q
  world : Q.world = r.1
  centrals : Q.centrals = (P.setPools c.id r).centrals
  own : cachesFor Q.tlsCaches c = caches'
  rest : ∀ d ∈ P.centrals, d.id ≠ c.id → cachesFor Q.tlsCaches d = cachesFor P.tlsCaches d

/-- Memory alone changes afterwards. -/
theorem Called.setMem (h : Called P c r caches' Q) (m : Mem) :
    Called P c ({ r.1 with mem := m }, r.2) caches' (Q.setMem m) := by
  obtain ⟨hn, hw, hcen, hown, hrest⟩ := h
  refine ⟨⟨hn.ids, hn.known, hn.addresses, hn.slots⟩, ?_, hcen, hown, hrest⟩
  unfold Process.setMem
  rw [hw]

/-- The call goes through the cache of the thread. -/
theorem Found.cached {o : CacheObject} {P₁ : Process} (h : Found P c t (some o, P₁)) (hc : c ∈ P.centrals)
    (r : World × PoolAllocator) (k : ThreadCache) :
    Called P c r (Function.update (cachesFor P.tlsCaches c) t k)
      ((P₁.setPools c.id r).store t c.address { o with caches := k }) := by
  obtain rfl := h.object o rfl
  have hc1 : c ∈ P₁.centrals := h.centrals ▸ hc
  have hids : (P₁.setPools c.id r).centrals = (P.setPools c.id r).centrals := by
    have hcen := h.centrals
    dsimp only at hcen
    unfold Process.setPools
    rw [hcen]
  have hin : { c with pools := r.2 } ∈ (P₁.setPools c.id r).centrals :=
    (mem_setPools h.names hc1).mpr (Or.inl rfl)
  refine ⟨(h.names.setPools c.id r).store hin t k, rfl, hids, ?_, fun d hd hne => ?_⟩
  · rw [← h.caches c hc]
    exact cachesFor_store (P₁.setPools c.id r) t c k
  · rw [← h.caches d hd]
    exact cachesFor_store_of_ne (P₁.setPools c.id r) t _ (h.names.ne hc1 (h.centrals ▸ hd) hne)

/-- The call goes straight to the pools. -/
theorem Found.direct {P₁ : Process} (h : Found P c t (none, P₁)) (hc : c ∈ P.centrals)
    (r : World × PoolAllocator) :
    Called P c r (cachesFor P.tlsCaches c) (P₁.setPools c.id r) := by
  have hids : (P₁.setPools c.id r).centrals = (P.setPools c.id r).centrals := by
    have hcen := h.centrals
    dsimp only at hcen
    unfold Process.setPools
    rw [hcen]
  exact ⟨h.names.setPools c.id r, rfl, hids, h.caches c hc, fun d hd _ => h.caches d hd⟩

/-- **A call keeps the invariant, and touches no other allocator.** -/
theorem ProcessOk.call (h : ProcessOk P held parts) (hc : c ∈ P.centrals) (hcall : Called P c r caches' Q)
    {held' : List Held} {parts' : Places}
    (hi : InstanceOk r.1 r.2 caches' held' parts' (othersOf P.centrals c.id))
    (hb : ∀ s ∈ othersOf P.centrals c.id, SameOn P.mem r.1.mem s.data s.size) :
    ProcessOk Q (Function.update held c.id held') (Function.update parts c.id parts') ∧
      ∀ d ∈ P.centrals, d.id ≠ c.id → Untouched P Q d := by
  have hmem : ∀ e, e ∈ Q.centrals ↔ e = { c with pools := r.2 } ∨ (e ∈ P.centrals ∧ e.id ≠ c.id) := by
    intro e
    rw [hcall.centrals]
    exact mem_setPools h.names hc
  have hothers : othersOf Q.centrals c.id = othersOf P.centrals c.id := by
    rw [hcall.centrals]
    exact othersOf_setPools _ _ _
  have hmapped : Q.world.mapped.Perm (Q.centrals.flatMap fun c => allRuns c.pools) := by
    have hsplit := runs_split (d := { c with pools := r.2 }) hcall.names.ids ((hmem _).mpr (Or.inl rfl))
    dsimp only at hsplit
    rw [hothers] at hsplit
    rw [hcall.world]
    exact hi.small.pools.mapped.trans hsplit.symm
  have hw : Q.world.Ok := hcall.world ▸ hi.small.pools.world
  have hu : ∀ d ∈ P.centrals, d.id ≠ c.id → Untouched P Q d := by
    intro d hd hne
    refine ⟨(hmem d).mpr (Or.inr ⟨hd, hne⟩), hcall.rest d hd hne, fun s hs => ?_⟩
    unfold Process.mem
    rw [hcall.world]
    exact hb s (mem_othersOf hd hne hs)
  refine ⟨⟨hcall.names, hw, hmapped, fun d hd => ?_, fun id hid => ?_⟩, hu⟩
  · rcases (hmem d).mp hd with rfl | ⟨hdP, hne⟩
    · dsimp only
      rw [Function.update_self, Function.update_self, hothers, hcall.world]
      exact hcall.own ▸ hi
    · rw [Function.update_of_ne hne, Function.update_of_ne hne]
      exact h.frame hdP hcall.names (hu d hdP hne) hw hmapped
  · have hne : id ≠ c.id := fun he => hid _ ((hmem _).mpr (Or.inl rfl)) he.symm
    rw [Function.update_of_ne hne]
    apply h.gone
    intro e he hei
    exact hid e ((hmem e).mpr (Or.inr ⟨he, fun h0 => hne (hei.symm.trans h0)⟩)) hei

theorem Found.poolsOf {P₁ : Process} {o : Option CacheObject} (h : Found P c t (o, P₁)) (hc : c ∈ P.centrals) :
    P₁.poolsOf c.id = c.pools := poolsOf_mem h.names (h.centrals ▸ hc)

theorem takeSmall_spec (h : ProcessOk P held parts) (hc : c ∈ P.centrals) (t : Nat) (hk : k < 30) :
    ∃ o w' pools' caches' Q, P.takeSmall t c k = (o, Q) ∧ Called P c (w', pools') caches' Q ∧
      SmallAlloc P.world (parts c.id) (othersOf P.centrals c.id) k w' pools' caches' o := by
  have hi := h.alone c hc
  have hf := threadCache_spec h.names hc t
  unfold Process.takeSmall
  cases hq : P.threadCache t c with
  | mk o P₁ =>
    rw [hq] at hf
    have hpools := hf.poolsOf hc
    have hworld : P₁.world = P.world := hf.world
    cases o with
    | some o =>
      obtain rfl := hf.object o rfl
      obtain ⟨b, k', w', pools', he, hs⟩ := allocateBlock_spec hi.small hk t
      dsimp only
      rw [hpools, hworld, he]
      exact ⟨b, w', pools', _, _, rfl, hf.cached hc (w', pools') _, hs⟩
    | none =>
      obtain ⟨b, w', pools', he, hs⟩ := poolAllocateBlock_spec hi.small hk
      dsimp only
      rw [hpools, hworld, he]
      exact ⟨b, w', pools', _, _, rfl, hf.direct hc (w', pools'), hs⟩

theorem giveSmall_spec (hn : NamesOk P) (hc : c ∈ P.centrals) (t : Nat) (hk : k < 30) {own : Places}
    {others : List Span} (hs : SmallOk P.world c.pools (cachesFor P.tlsCaches c) own others) {b : Nat}
    (hb : b ∈ own k .client) :
    ∃ w' pools' caches' own', Called P c (w', pools') caches' (P.giveSmall t c k b) ∧
      SmallFree P.world own others k b w' pools' caches' own' := by
  have hf := threadCache_spec hn hc t
  unfold Process.giveSmall
  cases hq : P.threadCache t c with
  | mk o P₁ =>
    rw [hq] at hf
    have hpools := hf.poolsOf hc
    have hworld : P₁.world = P.world := hf.world
    cases o with
    | some o =>
      obtain rfl := hf.object o rfl
      obtain ⟨k', w', pools', own', he, hs⟩ := freeBlock_spec hs hk t hb
      dsimp only
      rw [hpools, hworld, he]
      exact ⟨w', pools', _, own', hf.cached hc (w', pools') _, hs⟩
    | none =>
      obtain ⟨w', pools', own', he, hs⟩ := poolFreeBlock_spec hs hk hb
      dsimp only
      rw [hpools, hworld, he]
      exact ⟨w', pools', _, own', hf.direct hc (w', pools'), hs⟩

/-! ### The steps -/

/-- **The small branch of an allocation.** -/
theorem allocateSmall_ok (h : ProcessOk P held parts) (hc : c ∈ P.centrals) (t : Nat) {size : Nat}
    (hsz : size ≤ kSmallMax) :
    ∃ parts', ProcessOk (P.allocateSmall t c size).2
        (Function.update held c.id (received (held c.id) size (P.allocateSmall t c size).1)) parts' ∧
      ∀ d ∈ P.centrals, d.id ≠ c.id → Untouched P (P.allocateSmall t c size).2 d := by
  have hi := h.alone c hc
  obtain ⟨o, w', pools', caches', Q, he, hcall, hs⟩ := takeSmall_spec h hc t (classIndex_lt hsz)
  unfold Process.allocateSmall
  rw [he]
  cases hs with
  | refused hok hk hnow => exact ⟨_, h.call hc hcall (hi.refused hok hk hnow) hk.outside⟩
  | @took own b hok hk hnow =>
    obtain ⟨hserved, hhead, hout⟩ := hi.served hsz hok hk hnow
    have hstored := hcall.setMem (BlockHeader.store w'.mem b (rawHeader size .Small))
    have hQ : Q.mem = w'.mem := by
      unfold Process.mem
      rw [hcall.world]
    unfold Process.handOut
    dsimp only
    rw [hhead, hQ]
    exact ⟨_, h.call hc hstored hserved hout⟩

/-- A block goes back after memory has become `m`. -/
theorem ProcessOk.giveBack (h : ProcessOk P held parts) (hc : c ∈ P.centrals) (t : Nat) (hk : k < 30) {m : Mem}
    {held' : List Held} {b : Nat} (hb : b ∈ parts c.id k .client)
    (hs : SmallOk { P.world with mem := m } c.pools (cachesFor P.tlsCaches c) (parts c.id)
      (othersOf P.centrals c.id))
    (hfreed : ∀ w' pools' caches' own', SmallFree { P.world with mem := m } (parts c.id)
        (othersOf P.centrals c.id) k b w' pools' caches' own' →
      InstanceOk w' pools' caches' held' own' (othersOf P.centrals c.id) ∧
        ∀ r ∈ othersOf P.centrals c.id, SameOn P.mem w'.mem r.data r.size) :
    ∃ parts', ProcessOk ((P.setMem m).giveSmall t c k b) (Function.update held c.id held') parts' ∧
      ∀ d ∈ P.centrals, d.id ≠ c.id → Untouched P ((P.setMem m).giveSmall t c k b) d := by
  have hn : NamesOk (P.setMem m) := ⟨h.names.ids, h.names.known, h.names.addresses, h.names.slots⟩
  obtain ⟨w', pools', caches', own', hcall, hfree⟩ := giveSmall_spec hn hc t hk hs hb
  obtain ⟨hok, hout⟩ := hfreed w' pools' caches' own' hfree
  have hcalled : Called P c (w', pools') caches' ((P.setMem m).giveSmall t c k b) :=
    ⟨hcall.names, hcall.world, hcall.centrals, hcall.own, hcall.rest⟩
  exact ⟨_, h.call hc hcalled hok hout⟩

/-- **The small branch of a deallocation.** -/
theorem deallocateSmall_ok (h : ProcessOk P held parts) (hc : c ∈ P.centrals) (t : Nat) {a : Held}
    (ha : a ∈ held c.id) :
    ∃ parts', ProcessOk (P.deallocateSmall t c a.user) (Function.update held c.id ((held c.id).erase a)) parts' ∧
      ∀ d ∈ P.centrals, d.id ≠ c.id → Untouched P (P.deallocateSmall t c a.user) d := by
  have hi := h.alone c hc
  obtain ⟨hlt, hb⟩ := hi.held_mem ha
  obtain ⟨hmarked, -, -⟩ := hi.marked ha
  have hread := hi.class_read ha
  have hblock : headerOf a.user = a.block := rfl
  unfold Process.deallocateSmall
  rw [hblock, hread]
  exact h.giveBack hc t hlt hb hmarked fun _ _ _ _ hfree => hi.freed ha hfree

/-- **A client writes a byte of what it holds.** -/
theorem write_ok (h : ProcessOk P held parts) (hc : c ∈ P.centrals) {a : Held} (ha : a ∈ held c.id) {addr : Nat}
    (h1 : a.user ≤ addr) (h2 : addr < a.user + a.size) (v : UInt8) :
    ∃ parts', ProcessOk (P.setMem (Function.update P.mem addr v)) held parts' ∧
      ∀ d ∈ P.centrals, d.id ≠ c.id → Untouched P (P.setMem (Function.update P.mem addr v)) d := by
  obtain ⟨hwritten, hout⟩ := (h.alone c hc).write_byte ha h1 h2 v
  have hsame : (P.setPools c.id (P.world, c.pools)).centrals = P.centrals := by
    unfold Process.setPools
    dsimp only
    refine (List.map_congr_left fun e he => ?_).trans (List.map_id _)
    by_cases hec : e.id = c.id
    · obtain rfl := List.inj_on_of_nodup_map h.names.ids he hc hec
      exact if_pos rfl
    · exact if_neg hec
  have hcall : Called P c (P.world, c.pools) (cachesFor P.tlsCaches c) P :=
    ⟨h.names, rfl, hsame.symm, rfl, fun _ _ _ => rfl⟩
  have hok := h.call hc (hcall.setMem (Function.update P.mem addr v)) hwritten hout
  rw [Function.update_eq_self] at hok
  exact ⟨_, hok⟩

/-! ### Birth and death -/

theorem allRuns_empty : allRuns (fun _ => {}) = [] := by simp [allRuns]

/-- **An allocator is born.** No cache counts for it, whatever stands under its address. -/
theorem create_ok (h : ProcessOk P held parts) {address : Nat} (hfree : ∀ c ∈ P.centrals, c.address ≠ address)
    (enableThreadCache : Bool) :
    ∃ parts', ProcessOk (P.create address enableThreadCache) held parts' ∧
      ∀ d ∈ P.centrals, Untouched P (P.create address enableThreadCache) d := by
  have hfresh : ∀ c ∈ P.centrals, c.id ≠ P.created := fun c hc => Nat.ne_of_lt (h.names.known c hc)
  have hnames : NamesOk (P.create address enableThreadCache) := by
    refine ⟨?_, ?_, ?_, fun t => ?_⟩
    · refine List.nodup_cons.mpr ⟨fun hin => ?_, h.names.ids⟩
      obtain ⟨c, hc, he⟩ := List.mem_map.mp hin
      exact hfresh c hc he
    · intro c hc
      rcases List.mem_cons.mp hc with rfl | hc
      · exact Nat.lt_succ_self _
      · exact Nat.lt_succ_of_lt (h.names.known c hc)
    · refine List.nodup_cons.mpr ⟨fun hin => ?_, h.names.addresses⟩
      obtain ⟨c, hc, he⟩ := List.mem_map.mp hin
      exact hfree c hc he
    · have ht := h.names.slots t
      refine ⟨ht.once, fun e he => Nat.lt_succ_of_lt (ht.known e he), fun e he c hc hce => ?_⟩
      rcases List.mem_cons.mp hc with rfl | hc
      · exact absurd hce (Nat.ne_of_gt (ht.known e he))
      · exact ht.place e he c hc hce
  have hruns : ((P.create address enableThreadCache).centrals.flatMap fun c => allRuns c.pools) =
      P.centrals.flatMap fun c => allRuns c.pools := by
    unfold Process.create
    dsimp only
    rw [List.flatMap_cons, allRuns_empty, List.nil_append]
  have hmapped : (P.create address enableThreadCache).world.mapped.Perm
      ((P.create address enableThreadCache).centrals.flatMap fun c => allRuns c.pools) := by
    rw [hruns]
    exact h.mapped
  have hu : ∀ d ∈ P.centrals, Untouched P (P.create address enableThreadCache) d := fun d hd =>
    ⟨List.mem_cons_of_mem _ hd, rfl, fun r _ => SameOn.refl _ _ _⟩
  refine ⟨Function.update parts P.created fun _ _ => [], ⟨hnames, h.world, hmapped, fun d hd => ?_,
    fun id hid => h.gone id fun c hc => hid c (List.mem_cons_of_mem _ hc)⟩, hu⟩
  rcases List.mem_cons.mp hd with rfl | hdP
  · have hnone : cachesFor (P.create address enableThreadCache).tlsCaches
        ⟨address, P.created, enableThreadCache, fun _ => {}⟩ = fun _ => ThreadCache.empty := by
      funext t
      unfold cachesFor Process.create
      dsimp only
      cases hlook : (P.tlsCaches t).lookup address with
      | none => rfl
      | some o => exact if_neg (Nat.ne_of_lt ((h.names.slots t).known _ (mem_of_lookup hlook)))
    dsimp only
    rw [Function.update_self, hnone, h.gone P.created hfresh]
    have hothers := runs_split hnames.ids List.mem_cons_self
    rw [hruns, allRuns_empty, List.nil_append] at hothers
    have hsmall := Raw.SmallOk.frame (smallOk_empty h.world) h.world
      (by rw [allRuns_empty]; exact h.mapped.trans hothers) fun r _ => SameOn.refl P.mem r.data r.size
    exact ⟨hsmall, fun k _ => List.Perm.refl _, fun a ha => absurd ha List.not_mem_nil⟩
  · rw [Function.update_of_ne (hfresh d hdP)]
    exact h.frame hdP hnames (hu d hdP) h.world hmapped

/-- Regions are unmapped; memory stays. -/
theorem destroyAll_mem (w : World) (l : List MappedRegion) : (destroyAll w l).mem = w.mem := by
  induction l generalizing w with
  | nil => rfl
  | cons r l ih =>
    refine (ih (MappedRegion.destroy w r)).trans ?_
    unfold MappedRegion.destroy MappedRegion.reset
    split <;> rfl

/-- **An allocator dies**: exactly its runs go back, and the others stay. -/
theorem destroy_ok (h : ProcessOk P held parts) (hc : c ∈ P.centrals) :
    ProcessOk (P.destroy c) (Function.update held c.id []) parts ∧
      (P.destroy c).world.returned.Perm (allRuns c.pools ++ P.world.returned) ∧
      ∀ d ∈ P.centrals, d.id ≠ c.id → Untouched P (P.destroy c) d := by
  have hsplit : P.world.mapped.Perm (PoolAllocator.runsOf c.pools ++ othersOf P.centrals c.id) :=
    (h.mapped.trans (runs_split h.names.ids hc)).trans ((runsOf_perm c.pools).symm.append_right _)
  obtain ⟨hw, hm, hg⟩ := destroyAll_ok h.world hsplit
  have hmem : ∀ d, d ∈ (P.destroy c).centrals ↔ d ∈ P.centrals ∧ d.id ≠ c.id := by
    intro d
    unfold Process.destroy
    rw [List.mem_filter, decide_eq_true_iff]
  have hsub : (P.destroy c).centrals.Sublist P.centrals := List.filter_sublist
  have hnames : NamesOk (P.destroy c) := by
    refine ⟨h.names.ids.sublist (hsub.map _), fun d hd => h.names.known d ((hmem d).mp hd).1,
      h.names.addresses.sublist (hsub.map _), fun t => ?_⟩
    have ht := h.names.slots t
    exact ⟨ht.once, ht.known, fun e he d hd hde => ht.place e he d ((hmem d).mp hd).1 hde⟩
  have hu : ∀ d ∈ P.centrals, d.id ≠ c.id → Untouched P (P.destroy c) d := by
    intro d hd hne
    refine ⟨(hmem d).mpr ⟨hd, hne⟩, rfl, fun r _ => ?_⟩
    have hkeep := destroyAll_mem P.world (MappedRegion.owners (PoolAllocator.runsOf c.pools))
    unfold Process.mem Process.destroy
    rw [hkeep]
    exact SameOn.refl _ _ _
  refine ⟨⟨hnames, hw, hm, fun d hd => ?_, fun id hid => ?_⟩, ?_, hu⟩
  · obtain ⟨hdP, hne⟩ := (hmem d).mp hd
    rw [Function.update_of_ne hne]
    exact h.frame hdP hnames (hu d hdP hne) hw hm
  · by_cases hid' : id = c.id
    · rw [hid', Function.update_self]
    · rw [Function.update_of_ne hid']
      apply h.gone
      intro d hd hdi
      exact hid d ((hmem d).mpr ⟨hd, fun h0 => hid' (hdi.symm.trans h0)⟩) hdi
  · -- what was granted has gone back or is mapped, before and after
    have hafter : P.world.granted.Perm ((P.destroy c).world.returned ++ othersOf P.centrals c.id) := by
      have hbal := hw.balanced
      rw [hg] at hbal
      exact hbal.trans (hm.append_left _)
    have hbefore : P.world.granted.Perm
        (allRuns c.pools ++ P.world.returned ++ othersOf P.centrals c.id) := by
      have hmap := (h.mapped.trans (runs_split h.names.ids hc)).append_left P.world.returned
      refine (h.world.balanced.trans hmap).trans ?_
      rw [← List.append_assoc]
      exact List.perm_append_comm.append_right _
    exact (List.perm_append_right_iff _).mp (hafter.symm.trans hbefore)

/-! ### The end of a cache -/

/-- What a destructor of a cache object does. -/
structure Dropped (P P' : Process) (t address : Nat) (o : CacheObject) : Prop where
  gone : (P'.tlsCaches t).lookup address = none
  kept : ∀ a, a ≠ address → (P'.tlsCaches t).lookup a = (P.tlsCaches t).lookup a
  dead : (∀ c ∈ P.centrals, c.id ≠ o.central) → P'.world = P.world ∧ P'.centrals = P.centrals
  alive : ∀ c ∈ P.centrals, c.id = o.central → ∃ c' ∈ P'.centrals, c'.id = c.id ∧
    Flushed P.mem P'.mem c.pools c'.pools o.caches ∧
    cachesFor P'.tlsCaches c' = Function.update (cachesFor P.tlsCaches c) t ThreadCache.empty
  others : ∀ d ∈ P.centrals, d.id ≠ o.central → Untouched P P' d

theorem NamesOk.takeOut (h : NamesOk P) (t address : Nat) : NamesOk (P.takeOut t address) := by
  refine ⟨h.ids, h.known, h.addresses, fun u => ?_⟩
  unfold Process.takeOut
  dsimp only
  by_cases hu : u = t
  · rw [hu, Function.update_self]
    have ht := h.slots t
    exact ⟨nodup_filter_key ht.once, fun e he => ht.known e (List.mem_of_mem_filter he),
      fun e he => ht.place e (List.mem_of_mem_filter he)⟩
  · rw [Function.update_of_ne hu]
    exact h.slots u

theorem takeOut_gone (P : Process) (t address : Nat) :
    ((P.takeOut t address).tlsCaches t).lookup address = none := by
  unfold Process.takeOut
  dsimp only
  rw [Function.update_self]
  exact lookup_filter_self

theorem takeOut_kept (P : Process) (t : Nat) {address a : Nat} (ha : a ≠ address) :
    ((P.takeOut t address).tlsCaches t).lookup a = (P.tlsCaches t).lookup a := by
  unfold Process.takeOut
  dsimp only
  rw [Function.update_self]
  exact lookup_filter_key ha

theorem takeOut_of_ne (P : Process) {t u : Nat} (address : Nat) (hu : u ≠ t) :
    (P.takeOut t address).tlsCaches u = P.tlsCaches u := Function.update_of_ne hu _ _

/-- The cache of thread `t` for `c` is out. -/
theorem cachesFor_takeOut (P : Process) (t : Nat) (c : CentralState) :
    cachesFor (P.takeOut t c.address).tlsCaches c =
      Function.update (cachesFor P.tlsCaches c) t ThreadCache.empty := by
  funext u
  by_cases hu : u = t
  · rw [hu, Function.update_self]
    unfold cachesFor
    rw [takeOut_gone]
  · rw [Function.update_of_ne hu]
    unfold cachesFor
    rw [takeOut_of_ne P _ hu]

theorem cachesFor_takeOut_of_ne {address : Nat} {o : CacheObject}
    (hlook : (P.tlsCaches t).lookup address = some o) (hne : d.id ≠ o.central) :
    cachesFor (P.takeOut t address).tlsCaches d = cachesFor P.tlsCaches d := by
  funext u
  unfold cachesFor
  by_cases hu : u = t
  · rw [hu]
    by_cases ha : d.address = address
    · rw [ha, takeOut_gone, hlook]
      exact (if_neg (Ne.symm hne)).symm
    · rw [takeOut_kept P t ha]
  · rw [takeOut_of_ne P _ hu]

/-- **The destructor of a cache object.** -/
theorem dropCache_ok (h : ProcessOk P held parts) {address : Nat} {o : CacheObject}
    (hlook : (P.tlsCaches t).lookup address = some o) :
    ∃ parts', ProcessOk (P.dropCache t address o) held parts' ∧
      Dropped P (P.dropCache t address o) t address o := by
  have hnames := h.names.takeOut t address
  unfold Process.dropCache
  by_cases hdead : ∀ c ∈ P.centrals, c.id ≠ o.central
  · rw [destroyCache_expired (P := P.takeOut t address) (expired_iff.mpr hdead)]
    have hok := h.retable hnames rfl rfl fun d hd => cachesFor_takeOut_of_ne hlook (hdead d hd)
    exact ⟨parts, hok.1, takeOut_gone P t address, fun a ha => takeOut_kept P t ha, fun _ => ⟨rfl, rfl⟩,
      fun c hc hco => absurd hco (hdead c hc), fun d hd _ => hok.2 d hd⟩
  · obtain ⟨c, hc, hco⟩ : ∃ c ∈ P.centrals, c.id = o.central := by
      by_contra hno
      exact hdead fun c hc hco => hno ⟨c, hc, hco⟩
    obtain rfl : c.address = address := (h.names.slots t).place _ (mem_of_lookup hlook) c hc hco
    have hmine : cachesFor P.tlsCaches c t = o.caches := by
      unfold cachesFor
      rw [hlook]
      exact if_pos hco.symm
    obtain ⟨w', pools', own', he, hi, hf, hout, -⟩ := (h.alone c hc).flush t
    rw [hmine] at he hf
    have hempty := cachesFor_takeOut P t c
    have hdes : (P.takeOut t c.address).destroyCache o =
        (P.takeOut t c.address).setPools c.id (w', pools') := by
      have hl : (P.takeOut t c.address).lock o.central = some c := hco ▸ lock_of_mem hnames hc
      have hw : (P.takeOut t c.address).world = P.world := rfl
      unfold Process.destroyCache
      rw [hl]
      dsimp only
      rw [hw, he]
    have hcalled : Called P c (w', pools') (Function.update (cachesFor P.tlsCaches c) t ThreadCache.empty)
        ((P.takeOut t c.address).setPools c.id (w', pools')) :=
      ⟨hnames.setPools c.id (w', pools'), rfl, rfl, hempty,
        fun d _ hne => cachesFor_takeOut_of_ne hlook (hco ▸ hne)⟩
    obtain ⟨hok, hu⟩ := h.call hc hcalled hi hout
    rw [Function.update_eq_self] at hok
    rw [hdes]
    refine ⟨_, hok, takeOut_gone P t c.address, fun a ha => takeOut_kept P t ha,
      fun hall => absurd hco (hall c hc), fun d hd hdo => ?_, fun d hd hne => hu d hd (hco ▸ hne)⟩
    obtain rfl := List.inj_on_of_nodup_map h.names.ids hd hc (hdo.trans hco.symm)
    exact ⟨{ d with pools := pools' }, (mem_setPools hnames hc).mpr (Or.inl rfl), rfl, hf, hempty⟩

end Calls

end MAlloc.Small
