/-
  Caches never mix allocators.

  The map of a thread is keyed by addresses, and an address may come to stand for another allocator. A
  call on an allocator goes through an object that names that very one, with blocks carved from its runs
  (`Serving`); an object whose allocator is gone serves nothing and pushes nothing. When a thread ends, each
  entry of its map is destroyed once, whatever the other threads do between two of these destructors
  (`exit_of_exiting`), and the blocks it counts go back to the allocator they came from, each once, since no
  free list holds a block twice (`Chain.nodup`).
-/
import MAlloc.Small.Lifetimes

namespace MAlloc.Small

open Lib PoolAllocator SizeClassTable

/-! ## The map of another thread -/

section Maps
variable {P : Process} {t u k b a : Nat} {c : CentralState} {o : CacheObject}

theorem store_tls (hu : t ≠ u) : (P.store u a o).tlsCaches t = P.tlsCaches t := Function.update_of_ne hu _ _

theorem destroyCache_tls : (P.destroyCache o).tlsCaches = P.tlsCaches := by
  unfold Process.destroyCache
  cases P.lock o.central <;> rfl

theorem renew_tls (hu : t ≠ u) : (P.renew u c).2.tlsCaches t = P.tlsCaches t := by
  unfold Process.renew
  split
  · rfl
  · dsimp only
    cases (P.tlsCaches u).lookup c.address with
    | none => exact store_tls hu
    | some old =>
      dsimp only
      rw [destroyCache_tls]
      exact store_tls hu

theorem threadCache_tls (hu : t ≠ u) : (P.threadCache u c).2.tlsCaches t = P.tlsCaches t := by
  unfold Process.threadCache
  split
  · cases (P.tlsCaches u).lookup c.address with
    | none => exact renew_tls hu
    | some o =>
      dsimp only
      split
      · exact renew_tls hu
      · rfl
  · rfl

theorem takeSmall_tls (hu : t ≠ u) : (P.takeSmall u c k).2.tlsCaches t = P.tlsCaches t := by
  have hfound := threadCache_tls (P := P) (c := c) hu
  unfold Process.takeSmall
  generalize P.threadCache u c = q at hfound
  obtain ⟨o, P₁⟩ := q
  cases o with
  | none => exact hfound
  | some o => exact (store_tls hu).trans hfound

theorem giveSmall_tls (hu : t ≠ u) : (P.giveSmall u c k b).tlsCaches t = P.tlsCaches t := by
  have hfound := threadCache_tls (P := P) (c := c) hu
  unfold Process.giveSmall
  generalize P.threadCache u c = q at hfound
  obtain ⟨o, P₁⟩ := q
  cases o with
  | none => exact hfound
  | some o => exact (store_tls hu).trans hfound

theorem allocateSmall_tls (hu : t ≠ u) {size : Nat} :
    (P.allocateSmall u c size).2.tlsCaches t = P.tlsCaches t := by
  have htaken := takeSmall_tls (P := P) (c := c) (k := classIndex size) hu
  unfold Process.allocateSmall Process.handOut
  generalize P.takeSmall u c (classIndex size) = q at htaken
  obtain ⟨o, P₁⟩ := q
  cases o <;> exact htaken

theorem setMem_centrals (m : Mem) : (P.setMem m).centrals = P.centrals := rfl

theorem allocateSmall_centrals {size : Nat} :
    (P.allocateSmall t c size).2.centrals = (P.takeSmall t c (classIndex size)).2.centrals := by
  unfold Process.allocateSmall
  generalize P.takeSmall t c (classIndex size) = q
  obtain ⟨o, P₁⟩ := q
  cases o with
  | none => rfl
  | some b => exact setMem_centrals _

end Maps

/-! ## A thread that ends -/

section Exit
variable {s s' : Instances} {t address : Nat} {o : CacheObject} {e : InstanceEvent} {fs : List InstanceEvent}

/-- Nothing enters the map of a thread that ends, and an entry leaves it by its own destructor. -/
theorem exiting_step (ht : s.exiting t = true) (hs : s.step e = some s') : s'.exiting t = true ∧
    ∀ a, e ≠ .dropCache t a → (s'.process.tlsCaches t).lookup a = (s.process.tlsCaches t).lookup a := by
  have hother : ∀ {u}, s.exiting u = false → t ≠ u := by
    rintro u hu rfl
    rw [ht] at hu
    cases hu
  cases e with
  | create address enableThreadCache =>
    obtain ⟨-, hs⟩ := Option.ite_none_right_eq_some.mp hs
    obtain rfl := Option.some.inj hs
    exact ⟨ht, fun _ _ => rfl⟩
  | destroy id =>
    obtain ⟨c, -, rfl⟩ := Option.map_eq_some_iff.mp hs
    exact ⟨ht, fun _ _ => rfl⟩
  | allocate u id size =>
    obtain ⟨⟨hu, -⟩, hs⟩ := Option.ite_none_right_eq_some.mp hs
    obtain ⟨c, -, rfl⟩ := Option.map_eq_some_iff.mp hs
    exact ⟨ht, fun a _ => congrArg (List.lookup a) (allocateSmall_tls (hother hu))⟩
  | deallocate u id user =>
    obtain ⟨hu, hs⟩ := Option.ite_none_right_eq_some.mp hs
    obtain ⟨c, -, hs⟩ := Option.bind_eq_some_iff.mp hs
    obtain ⟨h, -, rfl⟩ := Option.map_eq_some_iff.mp hs
    exact ⟨ht, fun a _ => congrArg (List.lookup a) (giveSmall_tls (hother hu))⟩
  | write id addr value =>
    obtain ⟨-, hs⟩ := Option.ite_none_right_eq_some.mp hs
    obtain rfl := Option.some.inj hs
    exact ⟨ht, fun _ _ => rfl⟩
  | exit u =>
    obtain rfl := Option.some.inj hs
    refine ⟨?_, fun _ _ => rfl⟩
    by_cases hu : t = u
    · rw [hu]
      exact Function.update_self _ _ _
    · exact (Function.update_of_ne hu _ _).trans ht
  | dropCache u address =>
    obtain ⟨-, hs⟩ := Option.ite_none_right_eq_some.mp hs
    obtain ⟨o, -, rfl⟩ := Option.map_eq_some_iff.mp hs
    refine ⟨ht, fun a hne => ?_⟩
    dsimp only
    unfold Process.dropCache
    rw [destroyCache_tls]
    by_cases hu : t = u
    · subst hu
      exact takeOut_kept _ _ fun ha => hne (by rw [ha])
    · rw [takeOut_of_ne _ _ hu]

/-- What has left the map does not come back. -/
theorem gone_of_exiting (ht : s.exiting t = true) (hnone : (s.process.tlsCaches t).lookup address = none)
    (hrun : runFrom Instances.step s fs = some s') :
    (s'.process.tlsCaches t).lookup address = none ∧ fs.count (.dropCache t address) = 0 := by
  induction fs generalizing s with
  | nil =>
    cases hrun
    exact ⟨hnone, rfl⟩
  | cons e fs ih =>
    obtain ⟨u, hu, hrest⟩ := run_cons.mp hrun
    have hne : e ≠ .dropCache t address := by
      rintro rfl
      obtain ⟨-, hu⟩ := Option.ite_none_right_eq_some.mp hu
      rw [hnone] at hu
      cases hu
    obtain ⟨ht', hkept⟩ := exiting_step ht hu
    obtain ⟨hgone, hcount⟩ := ih ht' ((hkept address hne).trans hnone) hrest
    exact ⟨hgone, (List.count_cons_of_ne hne).trans hcount⟩

/-- The step that destroys the object `o` of thread `t` in the run of `fs` from `s`. -/
structure DroppedAlong (s : Instances) (fs : List InstanceEvent) (t address : Nat) (o : CacheObject)
    (u u' : Instances) : Prop where
  run : ∃ before later, fs = before ++ .dropCache t address :: later ∧ runFrom Instances.step s before = some u
  step : u.step (.dropCache t address) = some u'
  found : (u.process.tlsCaches t).lookup address = some o
  dropped : Dropped u.process u'.process t address o
  carved : ∀ c ∈ u.process.centrals, c.id = o.central → ∀ k < kClassCount,
    ∀ b ∈ (o.caches k).below (o.caches k).count, b ∈ carved (blockStride k) (c.pools k)

/-- The blocks that an object under the address of its allocator counts were carved by that one. -/
theorem ProcessOk.carved_of_object {P : Process} {held : Nat → List Held} {parts : Nat → Places}
    (h : ProcessOk P held parts) {c : CentralState} (hc : c ∈ P.centrals) {t k b : Nat} (hk : k < kClassCount)
    (hb : b ∈ ((cachesFor P.tlsCaches c t) k).below ((cachesFor P.tlsCaches c t) k).count) :
    b ∈ carved (blockStride k) (c.pools k) := by
  have hi := h.alone c hc
  rw [← hi.small.cached t k hk] at hb
  exact ((hi.small.pools.parts k hk).cover b).mpr ⟨_, hb⟩

/-- **The exit of a thread, entry by entry.** An object of its map is either still there, or has been destroyed
    once, and it was the same object until then. -/
theorem exit_of_exiting {parts : Nat → Places} (h : ProcessOk s.process s.held parts) (ht : s.exiting t = true)
    (hlook : (s.process.tlsCaches t).lookup address = some o)
    (hrun : runFrom Instances.step s fs = some s') :
    ((s'.process.tlsCaches t).lookup address = some o ∧ fs.count (.dropCache t address) = 0) ∨
      ((s'.process.tlsCaches t).lookup address = none ∧ fs.count (.dropCache t address) = 1 ∧
        ∃ u u', DroppedAlong s fs t address o u u') := by
  induction fs generalizing s parts with
  | nil =>
    cases hrun
    exact Or.inl ⟨hlook, rfl⟩
  | cons e fs ih =>
    obtain ⟨v, hv, hrest⟩ := run_cons.mp hrun
    obtain ⟨ht', hkept⟩ := exiting_step ht hv
    by_cases he : e = .dropCache t address
    · right
      subst he
      obtain ⟨-, hdrop⟩ := Option.ite_none_right_eq_some.mp hv
      rw [hlook] at hdrop
      obtain rfl := Option.some.inj hdrop
      obtain ⟨-, -, hd⟩ := dropCache_ok h hlook
      obtain ⟨hgone, hcount⟩ := gone_of_exiting ht' hd.gone hrest
      refine ⟨hgone, ?_, s, _, ⟨⟨[], fs, rfl, rfl⟩, hv, hlook, hd, fun c hc hco k hk b hb => ?_⟩⟩
      · rw [List.count_cons_self, hcount]
      · obtain rfl := (h.names.slots t).place _ (mem_of_lookup hlook) c hc hco
        have hmine : cachesFor s.process.tlsCaches c t = o.caches := by
          unfold cachesFor
          rw [hlook]
          exact if_pos hco.symm
        rw [← hmine] at hb
        exact h.carved_of_object hc hk hb
    · obtain ⟨⟨parts', h'⟩, -⟩ := h.step hv
      have hcount : (e :: fs).count (.dropCache t address) = fs.count (.dropCache t address) :=
        List.count_cons_of_ne he
      rw [hcount]
      refine (ih h' ht' ((hkept address he).trans hlook) hrest).imp id ?_
      rintro ⟨hgone, hone, u, u', ⟨before, later, rfl, hbefore⟩, hstep, hfound, hd, hcarved⟩
      exact ⟨hgone, hone, u, u', ⟨e :: before, later, rfl, run_cons.mpr ⟨v, hv, hbefore⟩⟩, hstep, hfound, hd, hcarved⟩

end Exit

/-! ## What a call goes through -/

/-- A call of thread `t` on `c` goes through the object `o`: it names `c`, which is alive, all it counts was
    carved by `c`, and nothing was pushed to put it there. -/
structure Serving (P : Process) (t : Nat) (c : CentralState) (o : CacheObject) (Q : Process) : Prop where
  names : o.central = c.id
  alive : Q.expired o = false
  carved : ∀ k < kClassCount, ∀ b ∈ (o.caches k).below (o.caches k).count, b ∈ carved (blockStride k) (c.pools k)
  world : Q.world = P.world
  centrals : Q.centrals = P.centrals

/-- The block of class `k` was carved from a run of the allocator `id`, which is alive and still has it. -/
structure CarvedBy (P : Process) (id k b : Nat) (c : CentralState) : Prop where
  alive : c ∈ P.centrals
  id : c.id = id
  carved : b ∈ carved (blockStride k) (c.pools k)
  run : ∃ r ∈ (c.pools k).runs, r ∈ P.world.mapped ∧ Span.Inside ⟨b, blockStride k⟩ r

/-- No cache works for an allocator other than its own. -/
structure Unmixed (s : Instances) : Prop where
  serving : ∀ t, ∀ c ∈ s.process.centrals, ∀ o Q, s.process.threadCache t c = (some o, Q) →
    Serving s.process t c o Q
  served : ∀ t, ∀ c ∈ s.process.centrals, ∀ size ≤ kSmallMax, ∀ user Q,
    s.process.allocateSmall t c size = (some user, Q) →
      ∃ c', CarvedBy Q c.id (classIndex size) (headerOf user) c' ∧ c'.address = c.address
  expired : ∀ o, s.process.expired o = true → s.process.destroyCache o = s.process ∧
    ∀ t, ∀ c ∈ s.process.centrals, (s.process.threadCache t c).1 ≠ some o
  exits : ∀ t address o, s.exiting t = true → (s.process.tlsCaches t).lookup address = some o →
    ∀ fs s', runFrom Instances.step s fs = some s' → (s'.process.tlsCaches t).lookup address = none →
      fs.count (.dropCache t address) = 1 ∧ ∃ u u', DroppedAlong s fs t address o u u'

section Calls
variable {P Q : Process} {held : Nat → List Held} {parts : Nat → Places} {c : CentralState} {o : CacheObject}
  {t size user : Nat}

theorem ProcessOk.serving (h : ProcessOk P held parts) (hc : c ∈ P.centrals)
    (hq : P.threadCache t c = (some o, Q)) : Serving P t c o Q := by
  have hf := threadCache_spec h.names hc t
  rw [hq] at hf
  obtain rfl := hf.object o rfl
  refine ⟨rfl, ?_, fun k hk b hb => h.carved_of_object hc hk hb, hf.world, hf.centrals⟩
  exact not_expired_iff.mpr ⟨c, hf.centrals ▸ hc, rfl⟩

/-- An allocation moves no allocator. -/
theorem ProcessOk.same_place (h : ProcessOk P held parts) (hc : c ∈ P.centrals) (hsz : size ≤ kSmallMax)
    {c' : CentralState} (hc' : c' ∈ (P.allocateSmall t c size).2.centrals) (hid : c'.id = c.id) :
    c'.address = c.address := by
  obtain ⟨o, w', pools', caches', Q, he, hcall, -⟩ := takeSmall_spec h hc t (classIndex_lt hsz)
  rw [allocateSmall_centrals, he, hcall.centrals] at hc'
  rcases (mem_setPools h.names hc).mp hc' with rfl | ⟨-, hne⟩
  · rfl
  · exact absurd hid hne

/-- The client holds what it is given, and what clients hold was carved. -/
theorem ProcessOk.served (h : ProcessOk P held parts) (hc : c ∈ P.centrals) (hsz : size ≤ kSmallMax)
    (hq : P.allocateSmall t c size = (some user, Q)) :
    ∃ c', CarvedBy Q c.id (classIndex size) (headerOf user) c' ∧ c'.address = c.address := by
  have hk : classIndex size < kClassCount := classIndex_lt hsz
  obtain ⟨parts', hok, -⟩ := allocateSmall_ok h hc t hsz
  rw [hq] at hok
  have halive : ∃ c' ∈ Q.centrals, c'.id = c.id := by
    by_contra hno
    have hnone := hok.gone c.id fun c' hc' hid => hno ⟨c', hc', hid⟩
    rw [Function.update_self] at hnone
    cases hnone
  obtain ⟨c', hc', hid⟩ := halive
  have hi := hok.alone c' hc'
  rw [hid, Function.update_self] at hi
  have ha : (⟨user, size, classIndex size⟩ : Held) ∈ received (held c.id) size (some user) := List.mem_cons_self
  have hcarved := hi.held_carved ha
  obtain ⟨r, hr, hin⟩ := hi.small.pools.inside hk hcarved
  refine ⟨c', ⟨hc', hid, hcarved, r, hr, hi.small.pools.run_mapped (mem_allRuns hk hr), hin⟩, ?_⟩
  exact h.same_place hc hsz (by rw [hq]; exact hc') hid

theorem ProcessOk.unmixed {s : Instances} (h : ProcessOk s.process s.held parts) : Unmixed s where
  serving _ _ hc _ _ hq := h.serving hc hq
  served _ _ hc _ hsz _ _ hq := h.served hc hsz hq
  expired o ho := by
    refine ⟨destroyCache_expired ho, fun t c hc hq => ?_⟩
    have hs := h.serving (t := t) (Q := (s.process.threadCache t c).2) hc (Prod.ext hq rfl)
    exact expired_iff.mp ho c hc hs.names.symm
  exits t address o ht hlook fs s' hrun hgone := by
    rcases exit_of_exiting h ht hlook hrun with ⟨hstill, -⟩ | ⟨-, hend⟩
    · rw [hgone] at hstill
      cases hstill
    · exact hend

end Calls

/-- **Thread caches never mix allocators**, whatever allocators have lived and died before, and wherever they
    stood: a call goes through the cache of the allocator it is made on and gets a block from its runs; an
    object whose allocator is dead is of no effect; and a thread that ends destroys each of its objects once,
    their blocks going back to where they came from. -/
theorem unmixed_of_run {mem : Mem} {page : PageSize} {answers : List (Option Nat)} {cacheFaults : List Bool}
    {s : Instances} {es : List InstanceEvent}
    (hrun : runFrom Instances.step (Instances.start mem page answers cacheFaults) es = some s) : Unmixed s := by
  obtain ⟨parts, h⟩ := processOk_of_run hrun
  exact h.unmixed

/-- Thread 0 has a cache for allocator 0 and one for allocator 1; allocator 0 dies, allocator 2 is born at its
    address, and thread 0 ends. -/
def succession : List InstanceEvent :=
  [.create 4096 true, .create 8192 true, .allocate 0 0 8, .allocate 0 1 8, .deallocate 0 0 66032,
    .destroy 0, .create 4096 true, .exit 0]

/-- The map of thread 0 is destroyed while thread 1 works with allocator 2. -/
def farewell : List InstanceEvent := [.dropCache 0 4096, .allocate 1 2 8, .dropCache 0 8192]

theorem unmixed_of_run_exit : ∃ s s' o o' u u' v v',
    runFrom Instances.step (Instances.start (fun _ => 0) smallWorld.page [some 65536, some 131072, some 65536] [])
      succession = some s ∧ runFrom Instances.step s farewell = some s' ∧ Unmixed s ∧
    o.central = 0 ∧ s.process.expired o = true ∧ DroppedAlong s farewell 0 4096 o u u' ∧
    o'.central = 1 ∧ DroppedAlong s farewell 0 8192 o' v v' ∧ s'.held 2 = [⟨66032, 8, 0⟩] := by
  have hrun : (runFrom Instances.step
      (Instances.start (fun _ => 0) smallWorld.page [some 65536, some 131072, some 65536] []) succession).map
      (fun s => ([4096, 8192].map fun a => ((s.process.tlsCaches 0).lookup a).map CacheObject.central,
        s.exiting 0 && (s.process.lock 0).isNone)) = some ([some 0, some 1], true) := by
    decide +kernel
  have hrun' : (runFrom Instances.step
      (Instances.start (fun _ => 0) smallWorld.page [some 65536, some 131072, some 65536] [])
      (succession ++ farewell)).map
      (fun s => (s.held 2, [4096, 8192].all fun a => ((s.process.tlsCaches 0).lookup a).isNone)) =
        some ([⟨66032, 8, 0⟩], true) := by
    decide +kernel
  obtain ⟨s, hs, hv⟩ := Option.map_eq_some_iff.mp hrun
  obtain ⟨s', hs', hv'⟩ := Option.map_eq_some_iff.mp hrun'
  obtain ⟨u, hu, hs'⟩ := run_append.mp hs'
  obtain rfl := Option.some.inj (hs.symm.trans hu)
  obtain ⟨hnames, hflags⟩ := Prod.mk.inj hv
  obtain ⟨hexit, hdead⟩ := (Bool.and_eq_true _ _).mp hflags
  obtain ⟨hfirst, hnames⟩ := List.cons.inj hnames
  obtain ⟨hsecond, -⟩ := List.cons.inj hnames
  obtain ⟨hheld, hgones⟩ := Prod.mk.inj hv'
  have hgone := List.all_eq_true.mp hgones 4096 (by decide)
  have hgone' := List.all_eq_true.mp hgones 8192 (by decide)
  obtain ⟨o, ho, hname⟩ := Option.map_eq_some_iff.mp hfirst
  obtain ⟨o', ho', hname'⟩ := Option.map_eq_some_iff.mp hsecond
  have h := unmixed_of_run hs
  obtain ⟨-, u, u', hu⟩ := h.exits 0 4096 o hexit ho _ _ hs' (Option.isNone_iff_eq_none.mp hgone)
  obtain ⟨-, v, v', hv⟩ := h.exits 0 8192 o' hexit ho' _ _ hs' (Option.isNone_iff_eq_none.mp hgone')
  have hexpired : s.process.expired o = true := by
    unfold Process.expired
    rw [hname]
    exact hdead
  exact ⟨s, s', o, o', u, u', v, v', hs, hs', h, hname, hexpired, hu, hname', hv, hheld⟩

end MAlloc.Small
