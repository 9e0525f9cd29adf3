/-
  What a cache of a dead allocator holds is never read.

  Two processes are alike when they differ only in the contents of cache objects whose allocator is dead
  (`Alike`). Each operation keeps two processes alike and gives the same answer in both: an object
  that has expired is replaced before it is used, and its destructor returns at once. So the
  blocks such an object still names, whose memory the OS may have given to somebody else, decide
  nothing (`inert_of_run`).
-/
import MAlloc.Small.Lifetimes

namespace MAlloc.Small

open Lib PoolAllocator SizeClassTable

/-- The same object, as far as it counts while `centrals` are alive. -/
structure SameObject (centrals : List CentralState) (o o' : CacheObject) : Prop where
  central : o'.central = o.central
  caches : (∃ c ∈ centrals, c.id = o.central) → o'.caches = o.caches

/-- The same map of a thread, as far as it counts while `centrals` are alive. -/
def SameSlots (centrals : List CentralState) (entries entries' : List (Nat × CacheObject)) : Prop :=
  List.Forall₂ (fun e e' => e.1 = e'.1 ∧ SameObject centrals e.2 e'.2) entries entries'

structure Alike (P P' : Process) : Prop where
  world : P'.world = P.world
  centrals : P'.centrals = P.centrals
  created : P'.created = P.created
  cacheFaults : P'.cacheFaults = P.cacheFaults
  slots : ∀ t, SameSlots P.centrals (P.tlsCaches t) (P'.tlsCaches t)

section Alike
variable {P P' Q : Process} {o o' : CacheObject} {c : CentralState} {t k : Nat}

theorem SameObject.refl (centrals : List CentralState) (o : CacheObject) : SameObject centrals o o :=
  ⟨rfl, fun _ => rfl⟩

/-- Objects may expire; none comes back to life. -/
theorem SameSlots.mono {centrals centrals' : List CentralState} {l l' : List (Nat × CacheObject)}
    (h : SameSlots centrals l l')
    (hlive : ∀ e ∈ l, (∃ c ∈ centrals', c.id = e.2.central) → ∃ c ∈ centrals, c.id = e.2.central) :
    SameSlots centrals' l l' :=
  imp_inStep h fun e he _ _ hee => ⟨hee.1, hee.2.central, fun hl => hee.2.caches (hlive e he hl)⟩

theorem Alike.expired (h : Alike P P') (ho : SameObject P.centrals o o') : P'.expired o' = P.expired o := by
  unfold Process.expired Process.lock
  rw [h.centrals, ho.central]

theorem Alike.poolsOf (h : Alike P P') (id : Nat) : P'.poolsOf id = P.poolsOf id := by
  unfold Process.poolsOf Process.lock
  rw [h.centrals]

theorem Alike.setMem (h : Alike P P') (m : Mem) : Alike (P.setMem m) (P'.setMem m) := by
  refine ⟨?_, h.centrals, h.created, h.cacheFaults, h.slots⟩
  unfold Process.setMem
  rw [h.world]

theorem Alike.setPools (h : Alike P P') (id : Nat) (r : World × PoolAllocator) :
    Alike (P.setPools id r) (P'.setPools id r) := by
  refine ⟨rfl, ?_, h.created, h.cacheFaults, fun t => (h.slots t).mono fun e _ hlive => ?_⟩
  · unfold Process.setPools
    rw [h.centrals]
  · obtain ⟨d, hd, hdo⟩ := hlive
    obtain ⟨d', hd', rfl⟩ := List.mem_map.mp hd
    refine ⟨d', hd', Eq.trans ?_ hdo⟩
    split <;> rfl

theorem Alike.store (h : Alike P P') (t address : Nat) (ho : SameObject P.centrals o o') :
    Alike (P.store t address o) (P'.store t address o') := by
  refine ⟨h.world, h.centrals, h.created, h.cacheFaults, fun u => ?_⟩
  unfold Process.store
  dsimp only
  by_cases hu : u = t
  · rw [hu, Function.update_self, Function.update_self]
    exact .cons ⟨rfl, ho⟩ (filter_inStep (fun e e' he => he.1) (h.slots t) address)
  · rw [Function.update_of_ne hu, Function.update_of_ne hu]
    exact h.slots u

theorem Alike.takeOut (h : Alike P P') (t address : Nat) : Alike (P.takeOut t address) (P'.takeOut t address) := by
  refine ⟨h.world, h.centrals, h.created, h.cacheFaults, fun u => ?_⟩
  unfold Process.takeOut
  dsimp only
  by_cases hu : u = t
  · rw [hu, Function.update_self, Function.update_self]
    exact filter_inStep (fun e e' he => he.1) (h.slots t) address
  · rw [Function.update_of_ne hu, Function.update_of_ne hu]
    exact h.slots u

/-- The destructor of an object. -/
theorem Alike.destroyCache (h : Alike P P') (ho : SameObject P.centrals o o') :
    Alike (P.destroyCache o) (P'.destroyCache o') := by
  by_cases hex : P.expired o = true
  · rw [destroyCache_expired hex, destroyCache_expired ((h.expired ho).trans hex)]
    exact h
  · have hcaches := ho.caches (not_expired_iff.mp (by simpa using hex))
    have hlock : P'.lock o'.central = P.lock o.central := by
      unfold Process.lock
      rw [h.centrals, ho.central]
    unfold Process.destroyCache
    rw [hlock, hcaches, h.world]
    split
    · exact h
    · exact h.setPools _ _

/-- The map of a thread has an object at an address in both, or in neither. -/
theorem SameSlots.lookup {centrals : List CentralState} {l l' : List (Nat × CacheObject)}
    (h : SameSlots centrals l l') (address : Nat) :
    (l.lookup address = none ∧ l'.lookup address = none) ∨
      ∃ o o', l.lookup address = some o ∧ l'.lookup address = some o' ∧ SameObject centrals o o' := by
  induction h with
  | nil => exact Or.inl ⟨rfl, rfl⟩
  | @cons e e' l l' hee _ ih =>
    rw [List.lookup_cons, List.lookup_cons, ← hee.1]
    by_cases ha : (address == e.1) = true
    · rw [ha]
      exact Or.inr ⟨e.2, e'.2, rfl, rfl, hee.2⟩
    · rw [Bool.not_eq_true] at ha
      rw [ha]
      exact ih

theorem Alike.renew (h : Alike P P') (t : Nat) (c : CentralState) :
    (P'.renew t c).1 = (P.renew t c).1 ∧ Alike (P.renew t c).2 (P'.renew t c).2 := by
  have hnext : Alike { P with cacheFaults := P.cacheFaults.tail }
      { P' with cacheFaults := P'.cacheFaults.tail } :=
    ⟨h.world, h.centrals, h.created, congrArg List.tail h.cacheFaults, h.slots⟩
  unfold Process.renew
  rw [h.cacheFaults] at hnext ⊢
  split
  · exact ⟨rfl, hnext⟩
  · have hstored := hnext.store t c.address (SameObject.refl P.centrals ⟨c.id, ThreadCache.empty⟩)
    dsimp only
    rcases (h.slots t).lookup c.address with ⟨hn, hn'⟩ | ⟨old, old', ho, ho', hsame⟩
    · rw [hn, hn']
      exact ⟨rfl, hstored⟩
    · rw [ho, ho']
      exact ⟨rfl, hstored.destroyCache hsame⟩

theorem Alike.threadCache (h : Alike P P') (t : Nat) (c : CentralState) :
    (P'.threadCache t c).1 = (P.threadCache t c).1 ∧ Alike (P.threadCache t c).2 (P'.threadCache t c).2 := by
  unfold Process.threadCache
  split
  · rcases (h.slots t).lookup c.address with ⟨hn, hn'⟩ | ⟨o, o', ho, ho', hsame⟩
    · rw [hn, hn']
      exact h.renew t c
    · rw [ho, ho']
      dsimp only
      rw [h.expired hsame]
      by_cases hex : P.expired o = true
      · rw [if_pos hex, if_pos hex]
        exact h.renew t c
      · rw [if_neg hex, if_neg hex]
        -- an object that is used is the same
        obtain ⟨central, caches⟩ := o
        obtain ⟨central', caches'⟩ := o'
        obtain rfl : central' = central := hsame.central
        obtain rfl : caches' = caches := hsame.caches (not_expired_iff.mp (by simpa using hex))
        exact ⟨rfl, h⟩
  · exact ⟨rfl, h⟩

theorem Alike.takeSmall (h : Alike P P') (t : Nat) (c : CentralState) (k : Nat) :
    (P'.takeSmall t c k).1 = (P.takeSmall t c k).1 ∧ Alike (P.takeSmall t c k).2 (P'.takeSmall t c k).2 := by
  have hf := h.threadCache t c
  unfold Process.takeSmall
  cases hq : P.threadCache t c with
  | mk o Q =>
    cases hq' : P'.threadCache t c with
    | mk o' Q' =>
      rw [hq, hq'] at hf
      obtain ⟨ho, halike⟩ := hf
      dsimp only at ho halike
      subst ho
      cases o' with
      | some o =>
        dsimp only
        rw [halike.world, halike.poolsOf]
        exact ⟨rfl, (halike.setPools _ _).store _ _ (SameObject.refl _ _)⟩
      | none =>
        dsimp only
        rw [halike.world, halike.poolsOf]
        exact ⟨rfl, halike.setPools _ _⟩

theorem Alike.giveSmall (h : Alike P P') (t : Nat) (c : CentralState) (k block : Nat) :
    Alike (P.giveSmall t c k block) (P'.giveSmall t c k block) := by
  have hf := h.threadCache t c
  unfold Process.giveSmall
  cases hq : P.threadCache t c with
  | mk o Q =>
    cases hq' : P'.threadCache t c with
    | mk o' Q' =>
      rw [hq, hq'] at hf
      obtain ⟨ho, halike⟩ := hf
      dsimp only at ho halike
      subst ho
      cases o' with
      | some o =>
        dsimp only
        rw [halike.world, halike.poolsOf]
        exact (halike.setPools _ _).store _ _ (SameObject.refl _ _)
      | none =>
        dsimp only
        rw [halike.world, halike.poolsOf]
        exact halike.setPools _ _

theorem Alike.allocateSmall (h : Alike P P') (t : Nat) (c : CentralState) (size : Nat) :
    (P'.allocateSmall t c size).1 = (P.allocateSmall t c size).1 ∧
      Alike (P.allocateSmall t c size).2 (P'.allocateSmall t c size).2 := by
  have hf := h.takeSmall t c (classIndex size)
  unfold Process.allocateSmall
  cases hq : P.takeSmall t c (classIndex size) with
  | mk o Q =>
    cases hq' : P'.takeSmall t c (classIndex size) with
    | mk o' Q' =>
      rw [hq, hq'] at hf
      obtain ⟨ho, halike⟩ := hf
      dsimp only at ho halike
      subst ho
      cases o' with
      | none => exact ⟨rfl, halike⟩
      | some b =>
        have hmem : Q'.mem = Q.mem := by
          unfold Process.mem
          rw [halike.world]
        unfold Process.handOut
        dsimp only
        rw [hmem]
        exact ⟨rfl, halike.setMem _⟩

theorem Alike.deallocateSmall (h : Alike P P') (t : Nat) (c : CentralState) (user : Nat) :
    Alike (P.deallocateSmall t c user) (P'.deallocateSmall t c user) := by
  have hmem : P'.mem = P.mem := by
    unfold Process.mem
    rw [h.world]
  unfold Process.deallocateSmall
  rw [hmem]
  exact (h.setMem _).giveSmall _ _ _ _

/-- A new allocator has a control block that no object names. -/
theorem Alike.create (h : Alike P P') (hn : NamesOk P) (address : Nat) (enableThreadCache : Bool) :
    Alike (P.create address enableThreadCache) (P'.create address enableThreadCache) := by
  refine ⟨h.world, ?_, ?_, h.cacheFaults, fun t => (h.slots t).mono fun e he hlive => ?_⟩
  · unfold Process.create
    rw [h.centrals, h.created]
  · unfold Process.create
    rw [h.created]
  · obtain ⟨d, hd, hdo⟩ := hlive
    rcases List.mem_cons.mp hd with rfl | hd
    · exact absurd hdo (Nat.ne_of_gt ((hn.slots t).known e he))
    · exact ⟨d, hd, hdo⟩

theorem Alike.destroy (h : Alike P P') (c : CentralState) : Alike (P.destroy c) (P'.destroy c) := by
  refine ⟨?_, ?_, h.created, h.cacheFaults, fun t => (h.slots t).mono fun e _ hlive => ?_⟩
  · unfold Process.destroy
    rw [h.world]
  · unfold Process.destroy
    rw [h.centrals]
  · obtain ⟨d, hd, hdo⟩ := hlive
    exact ⟨d, (List.mem_filter.mp hd).1, hdo⟩

end Alike

/-! ## Runs -/

/-- Two systems that differ only in what caches of dead allocators hold. -/
structure AlikeRuns (s s' : Instances) : Prop where
  process : Alike s.process s'.process
  exiting : s'.exiting = s.exiting
  held : s'.held = s.held

section Runs
variable {s s' u : Instances} {mem : Mem} {page : PageSize} {answers : List (Option Nat)}
  {cacheFaults : List Bool} {es fs : List InstanceEvent}

/-- **One step** is enabled in both, or in neither, and does the same. -/
theorem AlikeRuns.step (h : AlikeRuns s s') (hn : NamesOk s.process) {e : InstanceEvent}
    (hs : s.step e = some u) : ∃ u', s'.step e = some u' ∧ AlikeRuns u u' := by
  obtain ⟨P, exiting, held⟩ := s
  obtain ⟨P', exiting', held'⟩ := s'
  obtain ⟨hP, rfl, rfl⟩ := h
  dsimp only at hP hn
  have hlock : ∀ id, P'.lock id = P.lock id := by
    intro id
    unfold Process.lock
    rw [hP.centrals]
  cases e with
  | create address enableThreadCache =>
    obtain ⟨hfree, hs⟩ := Option.ite_none_right_eq_some.mp hs
    obtain rfl := Option.some.inj hs
    have hfree' : ∀ c ∈ P'.centrals, c.address ≠ address := hP.centrals ▸ hfree
    exact ⟨_, if_pos hfree', hP.create hn address enableThreadCache, rfl, rfl⟩
  | destroy id =>
    obtain ⟨c, hl, rfl⟩ := Option.map_eq_some_iff.mp hs
    exact ⟨_, Option.map_eq_some_iff.mpr ⟨c, (hlock id).trans hl, rfl⟩, hP.destroy c, rfl, rfl⟩
  | allocate t id size =>
    obtain ⟨hidle, hs⟩ := Option.ite_none_right_eq_some.mp hs
    obtain ⟨c, hl, rfl⟩ := Option.map_eq_some_iff.mp hs
    obtain ⟨ho, halike⟩ := hP.allocateSmall t c size
    refine ⟨_, (if_pos hidle).trans (Option.map_eq_some_iff.mpr ⟨c, (hlock id).trans hl, rfl⟩), halike, rfl, ?_⟩
    unfold Instances.receive
    dsimp only
    rw [ho]
  | deallocate t id user =>
    obtain ⟨hidle, hs⟩ := Option.ite_none_right_eq_some.mp hs
    obtain ⟨c, hl, hs⟩ := Option.bind_eq_some_iff.mp hs
    obtain ⟨a, ha, rfl⟩ := Option.map_eq_some_iff.mp hs
    refine ⟨_, (if_pos hidle).trans (Option.bind_eq_some_iff.mpr ⟨c, (hlock id).trans hl,
      Option.map_eq_some_iff.mpr ⟨a, ha, rfl⟩⟩), hP.deallocateSmall t c user, rfl, rfl⟩
  | write id addr value =>
    obtain ⟨hin, hs⟩ := Option.ite_none_right_eq_some.mp hs
    obtain rfl := Option.some.inj hs
    refine ⟨_, if_pos hin, ?_, rfl, rfl⟩
    have hmem : P'.mem = P.mem := by
      unfold Process.mem
      rw [hP.world]
    dsimp only
    rw [hmem]
    exact hP.setMem _
  | exit t =>
    obtain rfl := Option.some.inj hs
    exact ⟨_, rfl, hP, rfl, rfl⟩
  | dropCache t address =>
    obtain ⟨hexit, hs⟩ := Option.ite_none_right_eq_some.mp hs
    obtain ⟨o, ho, rfl⟩ := Option.map_eq_some_iff.mp hs
    rcases (hP.slots t).lookup address with ⟨hno, -⟩ | ⟨d, d', hd, hd', hsame⟩
    · rw [hno] at ho
      cases ho
    · obtain rfl : d = o := Option.some.inj (hd.symm.trans ho)
      exact ⟨_, (if_pos hexit).trans (Option.map_eq_some_iff.mpr ⟨d', hd', rfl⟩),
        (hP.takeOut t address).destroyCache hsame, rfl, rfl⟩

/-- The likeness, and the invariant on one side. -/
def Carried (s s' : Instances) : Prop := (∃ parts, ProcessOk s.process s.held parts) ∧ AlikeRuns s s'

theorem Carried.step (h : Carried s s') {e : InstanceEvent} (hs : s.step e = some u) :
    ∃ u', s'.step e = some u' ∧ Carried u u' := by
  obtain ⟨⟨parts, hok⟩, halike⟩ := h
  obtain ⟨u', hu', hnext⟩ := halike.step hok.names hs
  exact ⟨u', hu', (hok.step hs).1, hnext⟩

/-- **Caches of dead allocators are inert.** Change, in a state of any run, what the cache objects of
    dead allocators hold: the rest of the run goes through step by step as before, with the same
    answers, memory, mappings, pools and live caches. -/
theorem inert_of_run (hrun : runFrom Instances.step (Instances.start mem page answers cacheFaults) es = some s)
    (h : AlikeRuns s s') (hrun' : runFrom Instances.step s fs = some u) :
    ∃ u', runFrom Instances.step s' fs = some u' ∧ AlikeRuns u u' := by
  have hstep : ∀ a b e a', Carried a b → Instances.step a e = some a' →
      ∃ b', Instances.step b e = some b' ∧ Carried a' b' := fun _ _ _ _ hab hs => hab.step hs
  obtain ⟨u', hu', -, halike⟩ := run_inStep hstep ⟨processOk_of_run hrun, h⟩ hrun'
  exact ⟨u', hu', halike⟩

/-- The caches of dead allocators are emptied. -/
def forgetDead (s : Instances) : Instances :=
  { s with process := { s.process with tlsCaches := fun t => (s.process.tlsCaches t).map fun e =>
      (e.1, if s.process.expired e.2 then { e.2 with caches := ThreadCache.empty } else e.2) } }

theorem forgetDead_alike (s : Instances) : AlikeRuns s (forgetDead s) := by
  refine ⟨⟨rfl, rfl, rfl, rfl, fun t => ?_⟩, rfl, rfl⟩
  apply List.forall₂_map_right_iff.mpr
  apply List.forall₂_same.mpr
  intro e _
  refine ⟨rfl, ?_⟩
  dsimp only
  by_cases hex : s.process.expired e.2 = true
  · rw [if_pos hex]
    exact ⟨rfl, fun hlive => by rw [not_expired_iff.mpr hlive] at hex; cases hex⟩
  · rw [if_neg hex]
    exact SameObject.refl _ _

theorem inert_of_run_reborn : ∃ s u u', runFrom Instances.step desk (reborn.take 4) = some s ∧
    runFrom Instances.step s (reborn.drop 4) = some u ∧
    runFrom Instances.step (forgetDead s) (reborn.drop 4) = some u' ∧ u'.held 1 = [⟨66032, 8, 0⟩] := by
  have hrun : (runFrom Instances.step desk (reborn.take 4)).map (fun s =>
      (runFrom Instances.step s (reborn.drop 4)).map fun u => u.held 1) = some (some [⟨66032, 8, 0⟩]) := by
    decide +kernel
  obtain ⟨s, hs, hrest⟩ := Option.map_eq_some_iff.mp hrun
  obtain ⟨u, hu, hheld⟩ := Option.map_eq_some_iff.mp hrest
  obtain ⟨u', hu', halike⟩ := inert_of_run hs (forgetDead_alike s) hu
  exact ⟨s, u, u', hs, hu, hu', by rw [halike.held]; exact hheld⟩

end Runs

end MAlloc.Small
