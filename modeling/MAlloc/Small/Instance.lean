/-
  One allocator among `others`.

  `InstanceOk` is the invariant of its pools, the caches of all threads and what clients hold of it. Each
  call is looked at from outside here: what it leaves of the invariant, and that it leaves the bytes of
  the others alone (`served`, `freed`, `write_byte`, `flush`).
-/
import MAlloc.Raw.State
import MAlloc.Small.System

namespace MAlloc.Small

open Lib PoolAllocator SizeClassTable SystemMemory

/-- The blocks of class `k` among what clients hold. -/
def heldBlocks (held : List Held) (k : Nat) : List Nat :=
  (held.filter fun h => decide (h.cls = k)).map Held.block

structure InstanceOk (w : World) (pools : PoolAllocator) (caches : Caches) (held : List Held)
    (parts : Places) (others : List Span) : Prop where
  small : SmallOk w pools caches parts others
  client : ∀ k < 30, (parts k .client).Perm (heldBlocks held k)
  held : ∀ h ∈ held, HeldOk w.mem h

section Instance
variable {w w' : World} {pools pools' : PoolAllocator} {caches caches' : Caches} {held : List Held}
  {parts parts' : Places} {others others' : List Span} {a : Held} {k t : Nat}

/-- What a client holds is a block of its class. -/
theorem InstanceOk.held_mem (h : InstanceOk w pools caches held parts others) (ha : a ∈ held) :
    a.cls < 30 ∧ a.block ∈ parts a.cls .client := by
  have hlt : a.cls < 30 := by
    rw [(h.held a ha).cls]
    exact classIndex_lt (h.held a ha).size
  refine ⟨hlt, (h.client a.cls hlt).mem_iff.mpr ?_⟩
  exact List.mem_map.mpr ⟨a, List.mem_filter.mpr ⟨ha, by simp⟩, rfl⟩

theorem InstanceOk.held_carved (h : InstanceOk w pools caches held parts others) (ha : a ∈ held) :
    a.block ∈ carved (blockStride a.cls) (pools a.cls) := by
  obtain ⟨hc, hb⟩ := h.held_mem ha
  exact ((h.small.pools.parts _ hc).cover _).mpr ⟨_, hb⟩

/-- The bytes of a block lie in a run. -/
theorem InstanceOk.home (h : InstanceOk w pools caches held parts others) (hk : k < 30) {b : Nat}
    (hb : b ∈ carved (blockStride k) (pools k)) : ∃ r ∈ allRuns pools, Span.Inside ⟨b, blockStride k⟩ r := by
  obtain ⟨r, hr, hi⟩ := h.small.pools.inside hk hb
  exact ⟨r, mem_allRuns hk hr, hi⟩

/-- The world around the runs changes. -/
theorem InstanceOk.frame (h : InstanceOk w pools caches held parts others) (hw : w'.Ok)
    (hm : w'.mapped.Perm (allRuns pools ++ others'))
    (hk : ∀ r ∈ allRuns pools, SameOn w.mem w'.mem r.data r.size) :
    InstanceOk w' pools caches held parts others' := by
  refine ⟨Raw.SmallOk.frame h.small hw hm hk, h.client, fun a ha => ?_⟩
  obtain ⟨hc, -⟩ := h.held_mem ha
  have hs := blockStride_bounds _ hc
  obtain ⟨r, hr, hi⟩ := h.home hc (h.held_carved ha)
  exact (h.held a ha).congr ((hk r hr).mono hi.1 (by have := hi.2; simp only at this; omega))

/-- A write inside one client block, its header kept. -/
theorem InstanceOk.write_block (h : InstanceOk w pools caches held parts others) (hk : k < 30) {b : Nat}
    (hb : b ∈ parts k .client) {m : Mem} (hm : ∀ x, ¬ (b ≤ x ∧ x < b + blockStride k) → m x = w.mem x)
    (hown : ∀ a ∈ held, (a.cls, a.block) = (k, b) → HeldOk m a) :
    InstanceOk { w with mem := m } pools caches held parts others := by
  refine ⟨⟨h.small.pools.write hk (by simp) hb hm, h.small.cached, h.small.count⟩, h.client, fun a ha => ?_⟩
  by_cases hne : (a.cls, a.block) = (k, b)
  · exact hown a ha hne
  · obtain ⟨hc, -⟩ := h.held_mem ha
    have hs := blockStride_bounds _ hc
    have hap := h.small.pools.apart hc hk (h.held_carved ha)
      (((h.small.pools.parts _ hk).cover _).mpr ⟨_, hb⟩) hne
    unfold Span.Disjoint at hap
    simp only at hap
    exact (h.held a ha).congr fun x h1 h2 => hm x (by omega)

/-- A write inside a block of the allocator leaves the others alone. -/
theorem InstanceOk.write_outside (h : InstanceOk w pools caches held parts others) (hk : k < 30) {b : Nat}
    (hb : b ∈ parts k .client) {m : Mem} (hm : ∀ x, ¬ (b ≤ x ∧ x < b + blockStride k) → m x = w.mem x) :
    ∀ r ∈ others, SameOn w.mem m r.data r.size := by
  intro r hr x h1 h2
  obtain ⟨q, hq, hi⟩ := h.home hk (((h.small.pools.parts _ hk).cover b).mpr ⟨_, hb⟩)
  have hap := (List.pairwise_append.mp
    (Span.pairwise_disjoint_perm h.small.pools.mapped h.small.pools.world.apart)).2.2 q hq r hr
  exact hm x fun hx => hap.not_has (hi.has (x := x) hx) ⟨h1, h2⟩

/-- What clients keep holding keeps its headers. -/
theorem InstanceOk.held_keeps (h : InstanceOk w pools caches held parts others) {held' : List Held}
    (hsub : ∀ a ∈ held', a ∈ held) (hcl : ∀ a ∈ held', a.block ∈ parts' a.cls .client)
    (hk : SmallKeeps w w' parts' others) : ∀ a ∈ held', HeldOk w'.mem a := by
  intro a ha
  obtain ⟨hc, -⟩ := h.held_mem (hsub a ha)
  have hs := blockStride_bounds a.cls hc
  exact (h.held a (hsub a ha)).congr ((hk.blocks a.cls hc a.block (hcl a ha)).mono (Nat.le_refl _) (by omega))

/-- The OS has refused: nothing is handed out. -/
theorem InstanceOk.refused (h : InstanceOk w pools caches held parts others)
    (hok : SmallOk w' pools' caches' parts' others) (hk : SmallKeeps w w' parts others)
    (hnow : ClientsNow parts parts' k (parts k .client)) : InstanceOk w' pools' caches' held parts' others := by
  refine ⟨hok, fun d hd => ?_, h.held_keeps (fun _ ha => ha) (fun a ha => (h.held_mem ha).2) hk⟩
  by_cases hdk : d = k
  · rw [hdk] at hd ⊢
    exact hnow.here.trans (h.client k hd)
  · rw [hnow.other d hdk]
    exact h.client d hd

/-- A block is handed out, and its header written. -/
theorem InstanceOk.served (h : InstanceOk w pools caches held parts others) {size b : Nat}
    (hsz : size ≤ kSmallMax) (hok : SmallOk w' pools' caches' parts' others) (hk : SmallKeeps w w' parts others)
    (hnow : ClientsNow parts parts' (classIndex size) (b :: parts (classIndex size) .client)) :
    InstanceOk { w' with mem := BlockHeader.store w'.mem b (rawHeader size .Small) } pools' caches'
        (⟨userPointerOf b, size, classIndex size⟩ :: held) parts' others ∧
      headerOf (userPointerOf b) = b ∧
      ∀ r ∈ others, SameOn w.mem (BlockHeader.store w'.mem b (rawHeader size .Small)) r.data r.size := by
  have hc : classIndex size < 30 := classIndex_lt hsz
  have hst := blockStride_bounds _ hc
  have hb : b ∈ parts' (classIndex size) .client := hnow.here.mem_iff.mpr List.mem_cons_self
  have hcv := ((hok.pools.parts _ hc).cover b).mpr ⟨_, hb⟩
  have hbok := hok.pools.block_ok hc hcv
  have hhead : headerOf (userPointerOf b) = b := headerOf_eq (p := b + 16) (by omega) (by omega)
  have hm : ∀ x, ¬ (b ≤ x ∧ x < b + blockStride (classIndex size)) →
      BlockHeader.store w'.mem b (rawHeader size .Small) x = w'.mem x := fun x hx =>
    BlockHeader.store_of_not (by omega)
  have hblock : Held.block ⟨userPointerOf b, size, classIndex size⟩ = b := hhead
  have hnew : HeldOk (BlockHeader.store w'.mem b (rawHeader size .Small))
      ⟨userPointerOf b, size, classIndex size⟩ := by
    refine ⟨hsz, rfl, ?_, ?_⟩
    · rw [hblock]
      rfl
    · rw [hblock]
      exact BlockHeader.load_store ⟨lt_of_le_of_lt hsz (by decide), (by decide : 0x51 < 2 ^ 16),
        (by decide : 0xA11C < 2 ^ 16), (by decide : 0 < 2 ^ 32)⟩
  -- the old blocks are others than the new one
  have hfresh : ∀ a ∈ held, (a.cls, a.block) ≠ (classIndex size, b) := by
    rintro a ha he
    obtain ⟨h1, h2⟩ := Prod.mk.inj he
    have hin := (h.held_mem ha).2
    rw [h1, h2] at hin
    have hnd := (hok.pools.parts _ hc).once .client
    rw [hnow.here.nodup_iff] at hnd
    exact (List.nodup_cons.mp hnd).1 hin
  have hclient : ∀ d < 30, (parts' d .client).Perm
      (heldBlocks (⟨userPointerOf b, size, classIndex size⟩ :: held) d) := by
    intro d hd
    unfold heldBlocks
    by_cases hdk : d = classIndex size
    · rw [hdk, List.filter_cons_of_pos (by simp), List.map_cons, hblock]
      exact hnow.here.trans ((h.client _ hc).cons b)
    · rw [hnow.other d hdk, List.filter_cons_of_neg (by simpa using Ne.symm hdk)]
      exact h.client d hd
  have hold := h.held_keeps (fun _ ha => ha) (fun a ha => (h.held_mem ha).2) hk
  refine ⟨⟨⟨hok.pools.write hc (by simp) hb hm, hok.cached, hok.count⟩, hclient, fun a ha => ?_⟩, hhead, ?_⟩
  · rcases List.mem_cons.mp ha with rfl | ha
    · exact hnew
    · obtain ⟨hac, hab⟩ := h.held_mem ha
      have has := blockStride_bounds _ hac
      have hab' : a.block ∈ parts' a.cls .client := by
        by_cases hdk : a.cls = classIndex size
        · rw [hdk] at hab ⊢
          exact hnow.here.mem_iff.mpr (List.mem_cons_of_mem _ hab)
        · rw [hnow.other _ hdk]
          exact hab
      have hap := hok.pools.apart hac hc (((hok.pools.parts _ hac).cover _).mpr ⟨_, hab'⟩) hcv (hfresh a ha)
      unfold Span.Disjoint at hap
      simp only at hap
      exact (hold a ha).congr fun x h1 h2 => hm x (by omega)
  · intro r hr
    refine (hk.outside r hr).trans fun x h1 h2 => hm x fun hx => ?_
    obtain ⟨q, hq, hi⟩ := hok.pools.inside hc hcv
    have hap := (List.pairwise_append.mp
      (Span.pairwise_disjoint_perm hok.pools.mapped hok.pools.world.apart)).2.2 q (mem_allRuns hc hq) r hr
    exact hap.not_has (hi.has (x := x) hx) ⟨h1, h2⟩

/-- What clients hold of a class is the block of `a` and the rest. -/
theorem heldBlocks_erase (ha : a ∈ held) :
    (heldBlocks held a.cls).Perm (a.block :: heldBlocks (held.erase a) a.cls) := by
  unfold heldBlocks
  have h := ((List.perm_cons_erase ha).filter fun h => decide (h.cls = a.cls)).map Held.block
  rwa [List.filter_cons_of_pos (by simp), List.map_cons] at h

theorem heldBlocks_erase_other (ha : a ∈ held) (hk : k ≠ a.cls) :
    (heldBlocks held k).Perm (heldBlocks (held.erase a) k) := by
  unfold heldBlocks
  have h := ((List.perm_cons_erase ha).filter fun h => decide (h.cls = k)).map Held.block
  rwa [List.filter_cons_of_neg (by simpa using Ne.symm hk)] at h

/-- No other allocation stands in the block of `a`. -/
theorem InstanceOk.erase_ne (h : InstanceOk w pools caches held parts others) (ha : a ∈ held) {d : Held}
    (hd : d ∈ held.erase a) : (d.cls, d.block) ≠ (a.cls, a.block) := by
  intro he
  obtain ⟨h1, h2⟩ := Prod.mk.inj he
  obtain ⟨hc, -⟩ := h.held_mem ha
  have hnd := ((h.client _ hc).trans (heldBlocks_erase ha)).nodup_iff.mp ((h.small.pools.parts _ hc).once _)
  refine (List.nodup_cons.mp hnd).1 (List.mem_map.mpr ⟨d, List.mem_filter.mpr ⟨hd, ?_⟩, h2⟩)
  exact decide_eq_true h1

/-- The class read from the header is the one the block was carved for. -/
theorem InstanceOk.class_read (h : InstanceOk w pools caches held parts others) (ha : a ∈ held) :
    classIndex (BlockHeader.load w.mem a.block).payloadSize = a.cls := by
  rw [(h.held a ha).header]
  exact (h.held a ha).cls.symm

/-- The block is marked freed. -/
theorem InstanceOk.marked (h : InstanceOk w pools caches held parts others) (ha : a ∈ held) :
    SmallOk { w with mem := BlockHeader.setState w.mem a.block kStateFreed } pools caches parts others ∧
      (∀ d ∈ held.erase a, HeldOk (BlockHeader.setState w.mem a.block kStateFreed) d) ∧
      ∀ r ∈ others, SameOn w.mem (BlockHeader.setState w.mem a.block kStateFreed) r.data r.size := by
  obtain ⟨hc, hb⟩ := h.held_mem ha
  have hs := blockStride_bounds _ hc
  have hm : ∀ x, ¬ (a.block ≤ x ∧ x < a.block + blockStride a.cls) →
      BlockHeader.setState w.mem a.block kStateFreed x = w.mem x := fun x hx =>
    BlockHeader.setState_of_not (by omega)
  refine ⟨⟨h.small.pools.write hc (by simp) hb hm, h.small.cached, h.small.count⟩, fun d hd => ?_,
    h.write_outside hc hb hm⟩
  have hd' := List.mem_of_mem_erase hd
  obtain ⟨hdc, -⟩ := h.held_mem hd'
  have hds := blockStride_bounds _ hdc
  have hap := h.small.pools.apart hdc hc (h.held_carved hd') (h.held_carved ha) (h.erase_ne ha hd)
  unfold Span.Disjoint at hap
  simp only at hap
  exact (h.held d hd').congr fun x h1 h2 => hm x (by omega)

/-- A block goes back. -/
theorem InstanceOk.freed (h : InstanceOk w pools caches held parts others) (ha : a ∈ held)
    (hf : SmallFree { w with mem := BlockHeader.setState w.mem a.block kStateFreed } parts others a.cls a.block w'
      pools' caches' parts') :
    InstanceOk w' pools' caches' (held.erase a) parts' others ∧
      ∀ r ∈ others, SameOn w.mem w'.mem r.data r.size := by
  obtain ⟨hc, hb⟩ := h.held_mem ha
  obtain ⟨-, hheld, hout⟩ := h.marked ha
  have hclient : ∀ k < 30, (parts' k .client).Perm (heldBlocks (held.erase a) k) := by
    intro k hk
    by_cases hkc : k = a.cls
    · subst hkc
      have hperm := ((h.client _ hc).trans (heldBlocks_erase ha)).erase a.block
      rw [List.erase_cons_head] at hperm
      exact hf.clients.here.trans hperm
    · rw [hf.clients.other k hkc]
      exact (h.client k hk).trans (heldBlocks_erase_other ha hkc)
  refine ⟨⟨hf.ok, hclient, fun d hd => ?_⟩, fun r hr => (hout r hr).trans (hf.keeps.outside r hr)⟩
  obtain ⟨hdc, -⟩ := h.held_mem (List.mem_of_mem_erase hd)
  have hds := blockStride_bounds _ hdc
  have hin : d.block ∈ parts' d.cls .client := by
    refine (hclient d.cls hdc).mem_iff.mpr (List.mem_map.mpr ⟨d, List.mem_filter.mpr ⟨hd, ?_⟩, rfl⟩)
    exact decide_eq_true rfl
  exact (hheld d hd).congr ((hf.keeps.blocks d.cls hdc d.block hin).mono (Nat.le_refl _) (by omega))

/-- A client writes a byte of what it holds. -/
theorem InstanceOk.write_byte (h : InstanceOk w pools caches held parts others) (ha : a ∈ held) {addr : Nat}
    (h1 : a.user ≤ addr) (h2 : addr < a.user + a.size) (v : UInt8) :
    InstanceOk { w with mem := Function.update w.mem addr v } pools caches held parts others ∧
      ∀ r ∈ others, SameOn w.mem (Function.update w.mem addr v) r.data r.size := by
  obtain ⟨hc, hb⟩ := h.held_mem ha
  have hok := h.held a ha
  have hs := blockStride_bounds _ hc
  have hfit := le_classSize hok.size
  have huser := hok.user
  rw [← hok.cls] at hfit
  have hm : ∀ x, ¬ (a.block ≤ x ∧ x < a.block + blockStride a.cls) →
      Function.update w.mem addr v x = w.mem x := fun x hx => Function.update_of_ne (by omega) _ _
  refine ⟨h.write_block hc hb hm fun d hd he => ?_, h.write_outside hc hb hm⟩
  have hbe := (Prod.mk.inj he).2
  exact (h.held d hd).congr fun x hx1 hx2 => Function.update_of_ne (by omega) _ _

/-! ## The destructor of a cache -/

/-- It changes nothing of a shard but the free list. -/
theorem flushFrom_shard (cache : ThreadCache) (n c : Nat) (w : World) (pools : PoolAllocator) (d : Nat) :
    ∃ l, (ThreadCache.flushFrom cache n c w pools).2 d = { pools d with freeList := l } := by
  induction n generalizing c w pools with
  | zero => exact ⟨(pools d).freeList, rfl⟩
  | succ n ih =>
    obtain ⟨l, hl⟩ := ih (c + 1) (if 0 < (cache c).count then
      freeBatch w pools c ((cache c).below (cache c).count) else (w, pools)).1 (if 0 < (cache c).count then
      freeBatch w pools c ((cache c).below (cache c).count) else (w, pools)).2
    refine ⟨l, hl.trans ?_⟩
    split
    · unfold PoolAllocator.freeBatch
      dsimp only
      by_cases hd : d = c
      · rw [hd, Function.update_self]
      · rw [Function.update_of_ne hd]
    · rfl

/-- **The free list gains each cached block of the class once.** -/
theorem flush_free (h : SmallOk w pools caches parts others)
    (h' : SmallOk w' pools' (Function.update caches t ThreadCache.empty) parts' others)
    (hcv : carved (blockStride k) (pools' k) = carved (blockStride k) (pools k))
    (hp : ∀ d p, p ≠ .free → (∀ u, p ≠ .cached u) → parts' d p = parts d p) (hk : k < 30) :
    (parts' k .free).Perm ((caches t k).below (caches t k).count ++ parts k .free) := by
  have hP := h.pools.parts k hk
  have hP' := h'.pools.parts k hk
  rw [hcv] at hP'
  have hmine : parts' k (.cached t) = [] := by
    rw [h'.cached t k hk, Function.update_self]
    rfl
  have hothers : ∀ u, u ≠ t → parts' k (.cached u) = parts k (.cached u) := by
    intro u hu
    rw [h'.cached u k hk, h.cached u k hk, Function.update_of_ne hu]
  rw [← h.cached t k hk]
  have hnd : (parts k (.cached t) ++ parts k .free).Nodup := by
    refine List.nodup_append'.mpr ⟨hP.once _, hP.once _, fun b hb hb' => ?_⟩
    have hpl := hP.apart _ _ b hb hb'
    cases hpl
  refine (List.perm_ext_iff_of_nodup (hP'.once _) hnd).mpr fun b => ?_
  rw [List.mem_append]
  constructor
  · intro hb
    obtain ⟨q, hq⟩ := (hP.cover b).mp ((hP'.cover b).mpr ⟨_, hb⟩)
    -- a block that was elsewhere is still there
    cases q with
    | free => exact Or.inr hq
    | cached u =>
      by_cases hu : u = t
      · exact Or.inl (hu ▸ hq)
      · rw [← hothers u hu] at hq
        have hpl := hP'.apart _ _ b hb hq
        cases hpl
    | flight u =>
      rw [← hp k _ (by simp) (by simp)] at hq
      have hpl := hP'.apart _ _ b hb hq
      cases hpl
    | client =>
      rw [← hp k _ (by simp) (by simp)] at hq
      have hpl := hP'.apart _ _ b hb hq
      cases hpl
  · intro hb
    have hin : b ∈ carved (blockStride k) (pools k) :=
      (hP.cover b).mpr (hb.elim (fun hb => ⟨_, hb⟩) fun hb => ⟨_, hb⟩)
    obtain ⟨q, hq⟩ := (hP'.cover b).mp hin
    have hold : ∀ p, b ∈ parts k p → p = .cached t ∨ p = .free := by
      intro p hbp
      rcases hb with hb | hb
      · exact Or.inl (hP.apart _ _ b hbp hb)
      · exact Or.inr (hP.apart _ _ b hbp hb)
    cases q with
    | free => exact hq
    | cached u =>
      by_cases hu : u = t
      · rw [hu, hmine] at hq
        cases hq
      · rw [hothers u hu] at hq
        rcases hold _ hq with hpl | hpl
        · exact absurd (Place.cached.inj hpl) hu
        · cases hpl
    | flight u =>
      rw [hp k _ (by simp) (by simp)] at hq
      rcases hold _ hq with hpl | hpl <;> cases hpl
    | client =>
      rw [hp k _ (by simp) (by simp)] at hq
      rcases hold _ hq with hpl | hpl <;> cases hpl

/-- The blocks of a cache go to the pools it came from. -/
structure Flushed (m m' : Mem) (pools pools' : PoolAllocator) (cache : ThreadCache) : Prop where
  runs : ∀ k, (pools' k).runs = (pools k).runs
  pushed : ∀ k < 30, ∀ l, Chain (FreeList.next m) (pools k).freeList.head l →
    ∃ l', Chain (FreeList.next m') (pools' k).freeList.head l' ∧
      l'.Perm ((cache k).below (cache k).count ++ l)

theorem InstanceOk.flush (h : InstanceOk w pools caches held parts others) (t : Nat) :
    ∃ w' pools' parts', ThreadCache.flush (caches t) w pools = (w', pools') ∧
      InstanceOk w' pools' (Function.update caches t ThreadCache.empty) held parts' others ∧
      Flushed w.mem w'.mem pools pools' (caches t) ∧ (∀ r ∈ others, SameOn w.mem w'.mem r.data r.size) ∧
      w'.mapped = w.mapped := by
  obtain ⟨w', pools', parts', he, hok, hp, hk, -, hmp⟩ := flush_spec h.small t
  have hshard : ∀ d, ∃ l, pools' d = { pools d with freeList := l } := by
    intro d
    obtain ⟨l, hl⟩ := flushFrom_shard (caches t) kClassCount 0 w pools d
    unfold ThreadCache.flush at he
    rw [he] at hl
    exact ⟨l, hl⟩
  have hcv : ∀ d, carved (blockStride d) (pools' d) = carved (blockStride d) (pools d) := by
    intro d
    obtain ⟨l, hl⟩ := hshard d
    rw [hl]
    rfl
  have hruns : ∀ d, (pools' d).runs = (pools d).runs := by
    intro d
    obtain ⟨l, hl⟩ := hshard d
    rw [hl]
  have hcl : ∀ d, parts' d .client = parts d .client := fun d => hp d _ (by simp) (by simp)
  refine ⟨w', pools', parts', he, ⟨hok, fun d hd => ?_, ?_⟩, ⟨hruns, fun k hk' l hl => ?_⟩,
    fun r hr => hk.outside r hr, hmp⟩
  · rw [hcl]
    exact h.client d hd
  · exact h.held_keeps (fun _ ha => ha) (fun a ha => (h.held_mem ha).2) hk
  · obtain rfl := hl.unique (h.small.pools.shard k hk').chain
    exact ⟨_, (hok.pools.shard k hk').chain, flush_free h.small hok (hcv k) hp hk'⟩

end Instance

end MAlloc.Small
