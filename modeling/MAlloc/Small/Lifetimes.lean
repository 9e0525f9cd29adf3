/-
  Allocators and threads that come and go.

  A step is a call on one allocator that is alive, the birth or the death of an allocator, or a
  part of a thread's exit: the destructors of its caches run one after another, in any order, and the
  steps of others come between them. An allocator may be born at the address of a dead one while caches
  of threads still name the dead one.

  In every state of every run the caches and the clients have what was carved for them, from the right
  allocator (`provenance_of_run`); allocators do not touch each other (`untouched_of_run`); a
  cache that ends gives back what it has to the allocator it came from (`dropped_of_run`), and an allocator
  that ends gives back its runs (`returned_of_run`).
-/
import MAlloc.Lib.Run
import MAlloc.Small.Process

namespace MAlloc.Small

open Lib PoolAllocator SizeClassTable SystemMemory MappedRegion

/-- `held id` is what clients hold of the allocator with that control block. A thread in `exiting`
    has ended its calls; its map is being destroyed. -/
structure Instances where
  process : Process
  exiting : Nat → Bool := fun _ => false
  held : Nat → List Held := fun _ => []

inductive InstanceEvent where
  | create (address : Nat) (enableThreadCache : Bool)
  | destroy (id : Nat)
  | allocate (t id size : Nat)
  | deallocate (t id user : Nat)
  | write (id addr : Nat) (value : UInt8)
  | exit (t : Nat)
  | dropCache (t address : Nat)
  deriving DecidableEq, Repr

namespace Instances

/-- A client gets what the call has returned. -/
def receive (s : Instances) (id size : Nat) (r : Option Nat × Process) : Instances :=
  { s with process := r.2, held := Function.update s.held id (received (s.held id) size r.1) }

def step (s : Instances) : InstanceEvent → Option Instances
  | .create address enableThreadCache =>
    if ∀ c ∈ s.process.centrals, c.address ≠ address then
      some { s with process := s.process.create address enableThreadCache }
    else none
  | .destroy id =>
    (s.process.lock id).map fun c =>
      { s with process := s.process.destroy c, held := Function.update s.held id [] }
  | .allocate t id size =>
    if s.exiting t = false ∧ size ≤ kSmallMax then
      (s.process.lock id).map fun c => s.receive id size (s.process.allocateSmall t c size)
    else none
  | .deallocate t id user =>
    if s.exiting t = false then
      (s.process.lock id).bind fun c =>
        ((s.held id).find? fun h => decide (h.user = user)).map fun h =>
          { s with
            process := s.process.deallocateSmall t c user
            held := Function.update s.held id ((s.held id).erase h) }
    else none
  | .write id addr value =>
    if (s.held id).any fun h => decide (h.user ≤ addr ∧ addr < h.user + h.size) then
      some { s with process := s.process.setMem (Function.update s.process.mem addr value) }
    else none
  | .exit t => some { s with exiting := Function.update s.exiting t true }
  | .dropCache t address =>
    if s.exiting t = true then
      ((s.process.tlsCaches t).lookup address).map fun o =>
        { s with process := s.process.dropCache t address o }
    else none

/-- Nobody has made an allocator yet. -/
def start (mem : Mem) (page : PageSize) (answers : List (Option Nat)) (cacheFaults : List Bool) : Instances :=
  { process := { world := World.boot mem page answers, cacheFaults := cacheFaults } }

end Instances

section Steps
variable {s s' : Instances} {parts : Nat → Places}

/-- The steps that are about the allocator `id`. -/
def InstanceEvent.Concerns (s : Instances) (id : Nat) : InstanceEvent → Prop
  | .create _ _ => False
  | .destroy i => i = id
  | .allocate _ i _ => i = id
  | .deallocate _ i _ => i = id
  | .write i _ _ => i = id
  | .exit _ => False
  | .dropCache t address => ((s.process.tlsCaches t).lookup address).map CacheObject.central = some id

instance (s : Instances) (id : Nat) : (e : InstanceEvent) → Decidable (e.Concerns s id)
  | .create _ _ => inferInstanceAs (Decidable False)
  | .destroy i => inferInstanceAs (Decidable (i = id))
  | .allocate _ i _ => inferInstanceAs (Decidable (i = id))
  | .deallocate _ i _ => inferInstanceAs (Decidable (i = id))
  | .write i _ _ => inferInstanceAs (Decidable (i = id))
  | .exit _ => inferInstanceAs (Decidable False)
  | .dropCache _ _ => inferInstanceAs (Decidable (Option.map _ _ = some id))

/-- What a step leaves alone. -/
structure Spared (s s' : Instances) (e : InstanceEvent) : Prop where
  untouched : ∀ d ∈ s.process.centrals, ¬ e.Concerns s d.id → Untouched s.process s'.process d
  held : ∀ id, ¬ e.Concerns s id → s'.held id = s.held id

/-- **One step.** -/
theorem ProcessOk.step (h : ProcessOk s.process s.held parts) {e : InstanceEvent}
    (hs : s.step e = some s') : (∃ parts', ProcessOk s'.process s'.held parts') ∧ Spared s s' e := by
  cases e with
  | create address enableThreadCache =>
    obtain ⟨hfree, hs⟩ := Option.ite_none_right_eq_some.mp hs
    obtain rfl := Option.some.inj hs
    obtain ⟨parts', hok, hu⟩ := create_ok h hfree enableThreadCache
    exact ⟨⟨parts', hok⟩, fun d hd _ => hu d hd, fun _ _ => rfl⟩
  | destroy id =>
    obtain ⟨c, hl, rfl⟩ := Option.map_eq_some_iff.mp hs
    obtain ⟨hc, rfl⟩ := mem_of_lock hl
    obtain ⟨hok, -, hu⟩ := destroy_ok h hc
    exact ⟨⟨parts, hok⟩, fun d hd hne => hu d hd fun he => hne he.symm,
      fun id hne => Function.update_of_ne (fun he => hne he.symm) _ _⟩
  | allocate t id size =>
    obtain ⟨⟨-, hsz⟩, hs⟩ := Option.ite_none_right_eq_some.mp hs
    obtain ⟨c, hl, rfl⟩ := Option.map_eq_some_iff.mp hs
    obtain ⟨hc, rfl⟩ := mem_of_lock hl
    obtain ⟨parts', hok, hu⟩ := allocateSmall_ok h hc t hsz
    exact ⟨⟨parts', hok⟩, fun d hd hne => hu d hd fun he => hne he.symm,
      fun id hne => Function.update_of_ne (fun he => hne he.symm) _ _⟩
  | deallocate t id user =>
    obtain ⟨-, hs⟩ := Option.ite_none_right_eq_some.mp hs
    obtain ⟨c, hl, hs⟩ := Option.bind_eq_some_iff.mp hs
    obtain ⟨a, ha, rfl⟩ := Option.map_eq_some_iff.mp hs
    obtain ⟨hc, rfl⟩ := mem_of_lock hl
    have huser := List.find?_some ha
    obtain rfl := of_decide_eq_true huser
    obtain ⟨parts', hok, hu⟩ := deallocateSmall_ok h hc t (List.mem_of_find?_eq_some ha)
    exact ⟨⟨parts', hok⟩, fun d hd hne => hu d hd fun he => hne he.symm,
      fun id hne => Function.update_of_ne (fun he => hne he.symm) _ _⟩
  | write id addr value =>
    obtain ⟨hin, hs⟩ := Option.ite_none_right_eq_some.mp hs
    obtain rfl := Option.some.inj hs
    obtain ⟨a, ha, hrange⟩ := List.any_eq_true.mp hin
    obtain ⟨h1, h2⟩ := of_decide_eq_true hrange
    -- somebody holds the block, so its allocator is alive
    obtain ⟨c, hc, rfl⟩ : ∃ c ∈ s.process.centrals, c.id = id := by
      by_contra hno
      rw [h.gone id fun c hc he => hno ⟨c, hc, he⟩] at ha
      cases ha
    obtain ⟨parts', hok, hu⟩ := write_ok h hc ha h1 h2 value
    exact ⟨⟨parts', hok⟩, fun d hd hne => hu d hd fun he => hne he.symm, fun _ _ => rfl⟩
  | exit t =>
    obtain rfl := Option.some.inj hs
    have hidle := h.retable h.names rfl rfl fun _ _ => rfl
    exact ⟨⟨parts, h⟩, fun d hd _ => hidle.2 d hd, fun _ _ => rfl⟩
  | dropCache t address =>
    obtain ⟨-, hs⟩ := Option.ite_none_right_eq_some.mp hs
    obtain ⟨o, ho, rfl⟩ := Option.map_eq_some_iff.mp hs
    obtain ⟨parts', hok, hd⟩ := dropCache_ok h ho
    refine ⟨⟨parts', hok⟩, fun d hdm hne => hd.others d hdm fun he => hne ?_, fun _ _ => rfl⟩
    rw [he]
    exact congrArg (Option.map CacheObject.central) ho

end Steps

/-! ## Runs -/

/-- The blocks of class `k` that are at the clients of `c` or count in the caches of the threads `ts`. -/
def outside (s : Instances) (c : CentralState) (k : Nat) (ts : List Nat) : List Nat :=
  heldBlocks (s.held c.id) k ++ ts.flatMap fun t =>
    ((cachesFor s.process.tlsCaches c t) k).below ((cachesFor s.process.tlsCaches c t) k).count

/-- Who has what, and from where. -/
structure Provenance (s : Instances) : Prop where
  mapped : s.process.world.mapped.Perm (s.process.centrals.flatMap fun c => allRuns c.pools)
  apart : (s.process.centrals.flatMap fun c => allRuns c.pools).Pairwise Span.Disjoint
  stands : ∀ t, ∀ e ∈ s.process.tlsCaches t, ∀ c ∈ s.process.centrals, c.id = e.2.central →
    c.address = e.1
  found : ∀ t, ∀ c ∈ s.process.centrals, ∀ o, (s.process.tlsCaches t).lookup c.address = some o →
    s.process.expired o = false → o.central = c.id
  blocks : ∀ c ∈ s.process.centrals, ∀ k < kClassCount, ∃ free,
    Chain (FreeList.next s.process.mem) (c.pools k).freeList.head free ∧
      ∀ ts : List Nat, ts.Nodup → (free ++ outside s c k ts).Nodup ∧
        ∀ b ∈ free ++ outside s c k ts, b ∈ carved (blockStride k) (c.pools k)
  headers : ∀ c ∈ s.process.centrals, ∀ a ∈ s.held c.id, HeldOk s.process.mem a

section Runs
variable {mem : Mem} {page : PageSize} {answers : List (Option Nat)} {cacheFaults : List Bool}
  {s s' : Instances} {parts : Nat → Places} {es fs : List InstanceEvent}

theorem processOk_start : ProcessOk (Instances.start mem page answers cacheFaults).process (fun _ => [])
    fun _ _ _ => [] where
  names := ⟨List.nodup_nil, fun _ h => absurd h List.not_mem_nil, List.nodup_nil,
    fun _ => ⟨List.nodup_nil, fun _ h => absurd h List.not_mem_nil, fun _ h => absurd h List.not_mem_nil⟩⟩
  world := World.boot_ok mem page answers
  mapped := List.Perm.refl _
  alone _ h := absurd h List.not_mem_nil
  gone _ _ := rfl

theorem processOk_of_run (hrun : runFrom Instances.step (Instances.start mem page answers cacheFaults) es =
    some s) : ∃ parts, ProcessOk s.process s.held parts :=
  run_invariant (P := fun s : Instances => ∃ parts, ProcessOk s.process s.held parts)
    (fun _ _ _ ⟨_, h⟩ hs => (h.step hs).1) ⟨_, processOk_start⟩ hrun

theorem ProcessOk.provenance (h : ProcessOk s.process s.held parts) : Provenance s where
  mapped := h.mapped
  apart := Span.pairwise_disjoint_perm h.mapped h.world.apart
  stands t := (h.names.slots t).place
  found _ _ hc _ hlook hlive := h.names.names hc hlook hlive
  blocks c hc k hk := by
    have hi := h.alone c hc
    have hparts := hi.small.pools.parts k hk
    have hcached : ∀ t, ((cachesFor s.process.tlsCaches c t) k).below
        ((cachesFor s.process.tlsCaches c t) k).count = parts c.id k (.cached t) := fun t =>
      (hi.small.cached t k hk).symm
    have hout : ∀ ts, outside s c k ts =
        heldBlocks (s.held c.id) k ++ ts.flatMap fun t => parts c.id k (.cached t) := by
      intro ts
      unfold outside
      simp only [hcached]
    refine ⟨parts c.id k .free, (hi.small.pools.shard k hk).chain, fun ts hts => ?_⟩
    rw [hout]
    have hclient := hi.client k hk
    constructor
    · have hcaches : (ts.flatMap fun t => parts c.id k (.cached t)).Nodup := by
        refine List.nodup_flatMap.mpr ⟨fun t _ => hparts.once _, hts.imp fun hne b hb hb' => ?_⟩
        have hpl := hparts.apart _ _ b hb hb'
        exact hne (Place.cached.inj hpl)
      have hheld : (heldBlocks (s.held c.id) k ++ ts.flatMap fun t => parts c.id k (.cached t)).Nodup := by
        refine List.nodup_append'.mpr ⟨hclient.nodup_iff.mp (hparts.once _), hcaches, fun b hb hb' => ?_⟩
        obtain ⟨t, -, hbt⟩ := List.mem_flatMap.mp hb'
        have hpl := hparts.apart _ _ b (hclient.mem_iff.mpr hb) hbt
        cases hpl
      refine List.nodup_append'.mpr ⟨hparts.once _, hheld, fun b hb hb' => ?_⟩
      rcases List.mem_append.mp hb' with hb' | hb'
      · have hpl := hparts.apart _ _ b hb (hclient.mem_iff.mpr hb')
        cases hpl
      · obtain ⟨t, -, hbt⟩ := List.mem_flatMap.mp hb'
        have hpl := hparts.apart _ _ b hb hbt
        cases hpl
    · intro b hb
      apply (hparts.cover b).mpr
      rcases List.mem_append.mp hb with hb | hb
      · exact ⟨_, hb⟩
      · rcases List.mem_append.mp hb with hb | hb
        · exact ⟨_, hclient.mem_iff.mpr hb⟩
        · obtain ⟨t, -, hbt⟩ := List.mem_flatMap.mp hb
          exact ⟨_, hbt⟩
  headers c hc := (h.alone c hc).held

/-- **Every block is with the allocator it came from.** Whatever allocators have lived and died before, and
    wherever they stood: in every state of every run the free list of a class, what clients hold of it and
    what the caches of any threads count for it are different blocks, all carved for that class by that
    allocator; the runs of the allocators alive are apart, and they are all that is mapped; and a
    cache that a thread finds under the address of an allocator is that one's, or has expired. -/
theorem provenance_of_run (hrun : runFrom Instances.step (Instances.start mem page answers cacheFaults) es =
    some s) : Provenance s := by
  obtain ⟨parts, h⟩ := processOk_of_run hrun
  exact h.provenance

/-- One allocator dies while a cache of thread 0 holds sixteen of its blocks; at its address another is
    born, and the thread allocates from it. -/
def reborn : List InstanceEvent :=
  [.create 4096 true, .allocate 0 0 8, .deallocate 0 0 66032, .destroy 0, .create 4096 true,
    .allocate 0 1 8]

def desk : Instances :=
  Instances.start (fun _ => 0) smallWorld.page [some 65536, some 65536, some 131072] []

theorem provenance_of_run_reborn : ∃ s, runFrom Instances.step desk reborn = some s ∧
    s.held 1 = [⟨66032, 8, 0⟩] ∧ Provenance s := by
  have hrun : (runFrom Instances.step desk reborn).map (fun s => s.held 1) = some [⟨66032, 8, 0⟩] := by
    decide +kernel
  obtain ⟨s, hs, hheld⟩ := Option.map_eq_some_iff.mp hrun
  exact ⟨s, hs, hheld, provenance_of_run hs⟩

/-- **Allocators do not touch each other.** In a stretch of any run without a step about allocator `c`, its
    pools, the caches of all threads for it, the bytes of its runs and what clients hold of it stay. -/
theorem untouched_of_run (hrun : runFrom Instances.step (Instances.start mem page answers cacheFaults) es =
    some s) (hrun' : runFrom Instances.step s fs = some s') {c : CentralState} (hc : c ∈ s.process.centrals)
    (hfar : Along Instances.step (fun s e => ¬ e.Concerns s c.id) s fs) :
    Untouched s.process s'.process c ∧ s'.held c.id = s.held c.id := by
  have hstart : (∃ parts, ProcessOk s.process s.held parts) ∧ Untouched s.process s.process c ∧
      s.held c.id = s.held c.id :=
    ⟨processOk_of_run hrun, ⟨hc, rfl, fun _ _ => SameOn.refl _ _ _⟩, rfl⟩
  have hend := run_along (P := fun u : Instances => (∃ parts, ProcessOk u.process u.held parts) ∧
    Untouched s.process u.process c ∧ u.held c.id = s.held c.id) ?_ hfar hstart hrun'
  · exact hend.2
  · rintro u e u' hne ⟨⟨parts, h⟩, hu, hheld⟩ hs
    obtain ⟨hok, hspared⟩ := h.step hs
    exact ⟨hok, hu.trans (hspared.untouched c hu.central hne), (hspared.held c.id hne).trans hheld⟩

theorem untouched_of_run_neighbour : ∃ s s', ∃ c ∈ s.process.centrals,
    runFrom Instances.step desk [.create 4096 true, .create 8192 true, .allocate 0 0 8] = some s ∧
      runFrom Instances.step s [.allocate 0 1 8, .destroy 1] = some s' ∧ c.id = 0 ∧
      Untouched s.process s'.process c ∧ s'.held 0 = [⟨66032, 8, 0⟩] := by
  have hrun : (runFrom Instances.step desk [.create 4096 true, .create 8192 true, .allocate 0 0 8]).map
      (fun s => (s.held 0, (s.process.lock 0).isSome,
        (runFrom Instances.step s [.allocate 0 1 8, .destroy 1]).isSome,
        decide (Along Instances.step (fun s e => ¬ e.Concerns s 0) s [.allocate 0 1 8, .destroy 1]))) =
      some ([⟨66032, 8, 0⟩], true, true, true) := by decide +kernel
  obtain ⟨s, hs, hfacts⟩ := Option.map_eq_some_iff.mp hrun
  obtain ⟨hheld, hfacts⟩ := Prod.mk.inj hfacts
  obtain ⟨hlock, hfacts⟩ := Prod.mk.inj hfacts
  obtain ⟨hrun', hfar⟩ := Prod.mk.inj hfacts
  obtain ⟨c, hc⟩ := Option.isSome_iff_exists.mp hlock
  obtain ⟨s', hs'⟩ := Option.isSome_iff_exists.mp hrun'
  obtain ⟨hc, hid⟩ := mem_of_lock hc
  obtain ⟨hu, hkept⟩ := untouched_of_run hs hs' hc (by rw [hid]; exact of_decide_eq_true hfar)
  rw [hid, hheld] at hkept
  exact ⟨s, s', c, hc, hs, hs', hid, hu, hkept⟩

/-- **A cache that ends.** Its object leaves the map of the thread. If the allocator it came from is dead,
    nothing else happens, though another may stand at the address; otherwise each block it counts goes
    to that allocator's free list of its class, once, and to no other's. -/
theorem dropped_of_run (hrun : runFrom Instances.step (Instances.start mem page answers cacheFaults) es =
    some s) {t address : Nat} (hs : s.step (.dropCache t address) = some s') :
    ∃ o, (s.process.tlsCaches t).lookup address = some o ∧ Dropped s.process s'.process t address o ∧
      s'.held = s.held := by
  obtain ⟨parts, h⟩ := processOk_of_run hrun
  obtain ⟨-, hs⟩ := Option.ite_none_right_eq_some.mp hs
  obtain ⟨o, ho, rfl⟩ := Option.map_eq_some_iff.mp hs
  obtain ⟨-, -, hd⟩ := dropCache_ok h ho
  exact ⟨o, ho, hd, rfl⟩

theorem dropped_of_run_reborn : ∃ s s' o, runFrom Instances.step desk (reborn ++ [.exit 0]) = some s ∧
    s.step (.dropCache 0 4096) = some s' ∧ Dropped s.process s'.process 0 4096 o ∧ s'.held = s.held := by
  have hrun : (runFrom Instances.step desk (reborn ++ [.exit 0])).map
      (fun s => (s.step (.dropCache 0 4096)).isSome) = some true := by decide +kernel
  obtain ⟨s, hs, hstep⟩ := Option.map_eq_some_iff.mp hrun
  obtain ⟨s', hs'⟩ := Option.isSome_iff_exists.mp hstep
  obtain ⟨o, -, hd, hheld⟩ := dropped_of_run hs hs'
  exact ⟨s, s', o, hs, hs', hd, hheld⟩

/-- **An allocator that ends** gives back its runs, each once, and no other region; when none is left
    nothing is mapped, and the OS has got back all it has granted. -/
theorem returned_of_run (hrun : runFrom Instances.step (Instances.start mem page answers cacheFaults) es =
    some s) :
    (∀ id s', s.step (.destroy id) = some s' → ∃ c ∈ s.process.centrals, c.id = id ∧
      s'.process.world.returned.Perm (allRuns c.pools ++ s.process.world.returned)) ∧
    (s.process.centrals = [] → s.process.world.mapped = [] ∧
      s.process.world.returned.Perm s.process.world.granted) := by
  obtain ⟨parts, h⟩ := processOk_of_run hrun
  constructor
  · intro id s' hs
    obtain ⟨c, hl, rfl⟩ := Option.map_eq_some_iff.mp hs
    obtain ⟨hc, hid⟩ := mem_of_lock hl
    obtain ⟨-, hreturned, -⟩ := destroy_ok h hc
    exact ⟨c, hc, hid, hreturned⟩
  · intro hnone
    have hmapped := h.mapped
    rw [hnone] at hmapped
    have hempty := hmapped.eq_nil
    have hbal := h.world.balanced
    rw [hempty, List.append_nil] at hbal
    exact ⟨hempty, hbal.symm⟩

theorem returned_of_run_reborn : ∃ s s', runFrom Instances.step desk reborn = some s ∧
    s.step (.destroy 1) = some s' ∧
    ∃ c ∈ s.process.centrals, s'.process.world.returned.Perm (allRuns c.pools ++ s.process.world.returned) := by
  have hrun : (runFrom Instances.step desk reborn).map (fun s => (s.step (.destroy 1)).isSome) = some true := by
    decide +kernel
  obtain ⟨s, hs, hstep⟩ := Option.map_eq_some_iff.mp hrun
  obtain ⟨s', hs'⟩ := Option.isSome_iff_exists.mp hstep
  obtain ⟨c, hc, -, hreturned⟩ := (returned_of_run hs).1 1 s' hs'
  exact ⟨s, s', hs, hs', c, hc, hreturned⟩

end Runs

end MAlloc.Small
