/-
  Over-aligned allocations: where the shim stands, and how `deallocate` finds the raw block again.

  `WellPlaced r n A` is about the address arithmetic alone, for any raw address `r`. `Recovered` is
  about `deallocate(u)` in a later state: it hands `rawDeallocate` the address the allocation
  came from, with the raw header as it was written, so the block goes back to its own tier and
  class. `recovery_of_run` proves it after any calls that do not free `u`.
-/
import MAlloc.Client.Separation

namespace MAlloc.Client

open Lib AllocatorImpl DebugLayer SizeClassTable

/-- The user address for `n` bytes at a multiple of `A`, in the raw payload of `n + A` bytes
    at `r`. -/
structure WellPlaced (r n A : Nat) : Prop where
  aligned : alignedAddressOf r A % A = 0
  shim : r ≤ alignedAddressOf r A - 16 ∧ 16 ≤ alignedAddressOf r A
  inside : alignedAddressOf r A + n ≤ r + n + A
  offset : (alignedShim n (ptrSub (alignedAddressOf r A) r)).offset = alignedAddressOf r A - r

theorem wellPlaced {r n A : Nat} (hpow : isPowerOfTwo A = true) (hlo : 16 < A) (hhi : A ≤ 2 ^ 30)
    (hr : r % 16 = 0) (hb : r + n + A < 2 ^ 64) : WellPlaced r n A := by
  obtain ⟨k, rfl⟩ := isPowerOfTwo_iff.mp hpow
  have hk : 4 < k := (Nat.pow_lt_pow_iff_right (show 1 < 2 by decide)).mp (show 2 ^ 4 < 2 ^ k from hlo)
  have hk' : k ≤ 30 := (Nat.pow_le_pow_iff_right (show 1 < 2 by decide)).mp hhi
  obtain ⟨h1, h2, h3⟩ := alignedAddressOf_spec hk hk' hr (show r + 2 ^ k < 2 ^ 64 by omega)
  refine ⟨h3, ⟨by omega, by omega⟩, by omega, ?_⟩
  unfold alignedShim
  dsimp only
  rw [ptrSub_eq (by omega) (by omega), Nat.mod_eq_of_lt (by omega)]

/-- The tier `rawAllocate` takes `size` bytes from. -/
def tierFor (size : Nat) : Tier :=
  if size ≤ kSmallMax then .Small else if size ≤ kMediumMax then .Medium else .Large

theorem tier_eq {b : Raw.Block} (h : b.Ok) : b.tier = tierFor b.size := by
  unfold tierFor
  rcases h.tiers with ht | ht | ht
  · rw [if_pos (h.small ht).1, ht]
  · have hm := h.medium ht
    rw [if_neg (Nat.not_le.mpr hm.1), if_pos hm.2, ht]
  · have hl := (h.large ht).1
    have hsm : kSmallMax < kMediumMax := by decide
    rw [if_neg (Nat.not_le.mpr (hsm.trans hl)), if_neg (Nat.not_le.mpr hl), ht]

/-- The tiers as `deallocate` hands them to `rawDeallocate`: the user bytes are poisoned, and the
    shim is marked freed. -/
def shimFreed (cfg : AllocatorConfig) (T : Tiers) (ptr requested : Nat) : Tiers :=
  (poisonOld cfg T ptr requested).setMem
    (BlockHeader.setState (poisonOld cfg T ptr requested).mem (headerOf ptr) kStateFreed)

/-- `rawDeallocate` of a raw block of `size` bytes at `r` that goes to the tier, and the class, that
    serves this size. -/
def returned (T : Tiers) (enabled : Bool) (t r size : Nat) : Except Error Nat × Tiers :=
  if size ≤ kSmallMax then T.rawDeallocateSmall enabled t (r - 16) (classIndex size)
  else if size ≤ kMediumMax then T.rawDeallocateMedium (r - 16)
  else T.rawDeallocateLarge (r - 16)

/-- `deallocate(u)` by thread `t` finds the raw block of `size` bytes at `r`. -/
structure Recovered (s : ClientSys) (t u n r size : Nat) : Prop where
  succeeds : (s.impl.deallocate t u).1 = .ok ()
  hands : release s.impl.config s.impl.tiers t u (BlockHeader.load s.mem (headerOf u)) =
    (shimFreed s.impl.config s.impl.tiers u n).rawDeallocate s.impl.config.enableThreadCache t r
  header : BlockHeader.load (shimFreed s.impl.config s.impl.tiers u n).mem (r - 16) =
    rawHeader size (tierFor size)
  returns : (shimFreed s.impl.config s.impl.tiers u n).rawDeallocate
      s.impl.config.enableThreadCache t r =
    returned (shimFreed s.impl.config s.impl.tiers u n) s.impl.config.enableThreadCache t r size
  tiers : (s.impl.deallocate t u).2.tiers =
    (returned (shimFreed s.impl.config s.impl.tiers u n) s.impl.config.enableThreadCache t r size).2

section Recovery
variable {s : ClientSys} {live : List Alloc} {a : Alloc}

/-- A raw header decides where a block goes. -/
theorem rawDeallocate_returned {T : Tiers} {r size : Nat} (hr : 16 ≤ r) (hb : r < 2 ^ 64)
    (h : BlockHeader.load T.mem (r - 16) = rawHeader size (tierFor size)) (enabled : Bool) (t : Nat) :
    T.rawDeallocate enabled t r = returned T enabled t r size := by
  have hhead : headerOf r = r - 16 := headerOf_eq hr hb
  have htier : (rawHeader size (tierFor size)).tierValue = some (tierFor size) :=
    BlockHeader.tierValue_of_code rfl
  unfold Tiers.rawDeallocate Tiers.rawDeallocateBy returned
  rw [hhead, h, htier]
  unfold tierFor
  by_cases h1 : size ≤ kSmallMax
  · rw [if_pos h1, if_pos h1]
    rfl
  · rw [if_neg h1, if_neg h1]
    by_cases h2 : size ≤ kMediumMax
    · rw [if_pos h2, if_pos h2]
    · rw [if_neg h2, if_neg h2]

theorem Good.recovered (h : Good s live) (ha : a ∈ live) {A : Nat} (hs : a.shape = .aligned A) (t : Nat) :
    Recovered s t a.ptr a.size a.raw.user (a.size + A) := by
  have hb := h.memory.bounds ha
  have hok := h.memory.ok a ha
  have hp := hok.placed
  unfold Alloc.Placed at hp
  rw [hs] at hp
  have hsize : a.raw.size = a.size + A := hp.1
  have hshim := hok.placed.shim (by rw [hs]; simp)
  have hptr := h.memory.headerOf_ptr ha
  obtain ⟨T', hrel, he, -⟩ :=
    deallocate_checked h.memory ha (h.passes ha) (Or.inr (h.guards a ha)) t
  have hhead : BlockHeader.load s.mem (headerOf a.ptr) = a.header := by
    rw [hptr]
    exact hok.header
  -- neither the poison nor the mark on the shim reaches the raw header
  have hpoison : ∀ x, ¬ (a.ptr ≤ x ∧ x < a.ptr + a.size) →
      (poisonOld s.impl.config s.impl.tiers a.ptr a.size).mem x = s.mem x := fun x hx => by
    rw [poisonOld_eq, Tiers.setMem_mem]
    exact poisonedOld_of_not hx
  have hraw : BlockHeader.load (shimFreed s.impl.config s.impl.tiers a.ptr a.size).mem a.raw.start =
      rawHeader a.raw.size a.raw.tier := by
    refine (BlockHeader.load_congr fun x h1 h2 => ?_).trans
      (h.memory.raw.header a.raw (Live.raw_mem ha))
    unfold shimFreed
    rw [Tiers.setMem_mem, hptr, BlockHeader.setState_of_not (by omega), hpoison x (by omega)]
  obtain ⟨parts, segs, hr⟩ := h.memory.raw.tiers
  have htier : a.raw.tier = tierFor a.raw.size := tier_eq (hr.ok _ (Live.raw_mem ha))
  have hstart : a.raw.user - 16 = a.raw.start := Nat.add_sub_cancel _ _
  have hheader : BlockHeader.load (shimFreed s.impl.config s.impl.tiers a.ptr a.size).mem
      (a.raw.user - 16) = rawHeader (a.size + A) (tierFor (a.size + A)) := by
    rw [hstart, hraw, htier, hsize]
  have hhands : release s.impl.config s.impl.tiers t a.ptr a.header =
      (shimFreed s.impl.config s.impl.tiers a.ptr a.size).rawDeallocate
        s.impl.config.enableThreadCache t a.raw.user := by
    have hoff : (BlockHeader.load (shimFreed s.impl.config s.impl.tiers a.ptr a.size).mem
        (headerOf a.ptr)).offset = a.header.offset := by
      unfold shimFreed
      rw [Tiers.setMem_mem, setState_keeps_offset, hptr]
      refine congrArg BlockHeader.offset ((BlockHeader.load_congr fun x h1 h2 => ?_).trans hok.header)
      exact hpoison x (by omega)
    have hfound := hok.raw_of_offset (by rw [hs]; simp) (show a.ptr < 2 ^ 64 by omega)
    unfold release
    rw [a.header_size, a.header_tier, hs]
    change Tiers.rawDeallocate (shimFreed s.impl.config s.impl.tiers a.ptr a.size)
      s.impl.config.enableThreadCache t (ptrSub a.ptr (BlockHeader.load
        (shimFreed s.impl.config s.impl.tiers a.ptr a.size).mem (headerOf a.ptr)).offset) = _
    rw [hoff, hfound]
  have hreturns : (shimFreed s.impl.config s.impl.tiers a.ptr a.size).rawDeallocate
      s.impl.config.enableThreadCache t a.raw.user =
      returned (shimFreed s.impl.config s.impl.tiers a.ptr a.size) s.impl.config.enableThreadCache t
        a.raw.user (a.size + A) := by
    refine rawDeallocate_returned ?_ ?_ hheader _ t
    · unfold Raw.Block.user
      omega
    · unfold Raw.Block.user
      omega
  refine ⟨by rw [he], by rw [hhead]; exact hhands, hheader, hreturns, ?_⟩
  -- what `deallocate` ends with is what `release` left
  rw [he, discharge_tiers, ← hreturns, ← hhands, hrel]

/-! ### The request -/

/-- The tiers after an over-aligned request has got the raw block at `r`. -/
def shimmed (cfg : AllocatorConfig) (T : Tiers) (r n A : Nat) : Tiers :=
  poisonNew cfg (T.setMem (BlockHeader.store T.mem (headerOf (alignedAddressOf r A))
    (alignedShim n (ptrSub (alignedAddressOf r A) r)))) (alignedAddressOf r A) n

theorem aligned_verdict {n A : Nat} (hpow : isPowerOfTwo A = true) (hhi : A ≤ 2 ^ 30) (hn : 1 ≤ n)
    (hmax : n ≤ 2 ^ 46) : (Request.alignedAllocate A n).verdict = none := by
  have hone : atLeastOne n = n := if_neg (by omega)
  have hok : ¬ (isPowerOfTwo A = false ∨ A > kMaxAlignment) := by
    rintro (h0 | h0)
    · rw [hpow] at h0
      cases h0
    · exact absurd hhi (Nat.not_le.mpr h0)
  unfold Request.verdict
  dsimp only
  rw [if_neg hok, hone, if_neg (Nat.not_lt.mpr hmax)]

theorem aligned_acquire {cfg : AllocatorConfig} {T T1 : Tiers} {t n A : Nat} (hlo : 16 < A)
    (hhi : A ≤ 2 ^ 30) (hn : 1 ≤ n) (hmax : n ≤ 2 ^ 46) {raw : RawAllocation}
    (hraw : T.rawAllocate cfg.enableThreadCache t (n + A) = (.ok raw, T1)) :
    (Request.alignedAllocate A n).acquire cfg T t =
      (.ok ⟨alignedAddressOf raw.user A, raw.reserved⟩, shimmed cfg T1 raw.user n A) := by
  have hone : atLeastOne n = n := if_neg (by omega)
  have hsm : ¬ A ≤ kDefaultAlignment := Nat.not_le.mpr hlo
  unfold Request.acquire
  dsimp only
  rw [if_neg hsm, hone]
  unfold acquireAligned
  rw [Nat.mod_eq_of_lt (show n + A < 2 ^ 64 by omega), hraw]
  rfl

/-- The header in front of the user address is the shim. -/
theorem shimmed_header (cfg : AllocatorConfig) (T : Tiers) {r n A : Nat} (h : WellPlaced r n A)
    (hb : r + n + A < 2 ^ 64) : BlockHeader.load (shimmed cfg T r n A).mem (alignedAddressOf r A - 16) =
      alignedShim n (ptrSub (alignedAddressOf r A) r) := by
  have hshim := h.shim
  have hinside := h.inside
  have hhead : headerOf (alignedAddressOf r A) = alignedAddressOf r A - 16 :=
    headerOf_eq hshim.2 (by omega)
  unfold shimmed
  rw [poisonNew_eq, Tiers.setMem_mem, hhead]
  refine (BlockHeader.load_congr fun x h1 h2 => poisoned_of_not (by omega)).trans ?_
  exact BlockHeader.load_store ⟨show n < 2 ^ 64 by omega, (by decide : 0x54 < 2 ^ 16),
    (by decide : 0xA11C < 2 ^ 16), Nat.mod_lt _ (by decide)⟩

/-- The shim in front of an allocation leads to the raw block it stands in. -/
theorem Live.user_of_shim {T : Tiers} (h : Live T (a :: live)) {r n A : Nat}
    (hp : a.ptr = alignedAddressOf r A) (hw : WellPlaced r n A)
    (hl : BlockHeader.load T.mem (a.ptr - 16) = alignedShim n (ptrSub (alignedAddressOf r A) r)) :
    a.raw.user = r := by
  have hload := (h.ok a List.mem_cons_self).header
  rw [hl] at hload
  have hoff := congrArg BlockHeader.offset hload
  rw [hw.offset] at hoff
  have hdist := Alloc.offset_eq h List.mem_cons_self
  have hshim := hw.shim
  rw [← hoff, hp] at hdist
  omega

/-- A request that gets its memory opens an allocation. -/
theorem request_opened {t : Nat} {r : Request} {raw : RawAllocation} {T' : Tiers} (hv : r.verdict = none)
    (hacq : r.acquire s.impl.config s.impl.tiers t = (.ok raw, T')) :
    s.request t r = s.opened ({ s.impl with tiers := T' }.enroll raw.user r.size raw.reserved)
      ⟨raw.user, r.size, r.align, raw.reserved⟩ := by
  have hres : r.reserved s.impl t = raw.reserved := by
    unfold Request.reserved
    rw [hacq]
  unfold ClientSys.request
  rw [Request.run_eq, hv, hres]
  dsimp only
  rw [hacq]
  rfl

theorem Good.opened_guarded (h : Good s live) {T' : Tiers} (hl : Live T' (a :: live)) {align : Nat}
    (halign : a.ptr % align = 0) (hk : s.impl.tiers.world.Keeps T'.world (spans live) [a.raw.span])
    (hg : a.Guarded T'.mem) :
    Good (s.opened ({ s.impl with tiers := T' }.enroll a.ptr a.size a.raw.reserved)
      ⟨a.ptr, a.size, align, a.raw.reserved⟩) (a :: live) := by
  refine ⟨h.opened hl (hl.ptr_mod_16 List.mem_cons_self) halign, fun d hd => ?_⟩
  rw [ClientSys.opened, ClientSys.mem, enroll_tiers]
  rcases List.mem_cons.mp hd with rfl | hd
  · exact hg
  · exact (h.guards d hd).congr (h.memory.ok d hd).placed (h.memory.fits hd) fun x hx _ =>
      hk.bytes _ (mem_spans hd) x hx.1 hx.2

/-- What an over-aligned request that gets its memory leads to. -/
theorem Good.request_aligned (h : Good s live) {t n A : Nat} (hpow : isPowerOfTwo A = true)
    (hlo : 16 < A) (hhi : A ≤ 2 ^ 30) (hn : 1 ≤ n) (hmax : n ≤ 2 ^ 46) {raw : RawAllocation} {T1 : Tiers}
    (hraw : s.impl.tiers.rawAllocate s.impl.config.enableThreadCache t (n + A) = (.ok raw, T1)) :
    ∃ a, Good (s.request t (.alignedAllocate A n)) (a :: live) ∧ a.shape = .aligned A ∧
      a.ptr = alignedAddressOf raw.user A ∧ a.size = n ∧ a.raw.user = raw.user := by
  have hv := aligned_verdict hpow hhi hn hmax
  have hsize : (Request.alignedAllocate A n).size = n := if_neg (by omega)
  have hshape : (Request.alignedAllocate A n).shape s.impl.config = .aligned A :=
    if_neg (Nat.not_le.mpr hlo)
  have hacq := aligned_acquire hlo hhi hn hmax hraw
  -- the raw block lies in the address space, so the shim is well placed in it
  obtain ⟨h16, hbound⟩ : raw.user % 16 = 0 ∧ raw.user + n + A < 2 ^ 64 := by
    have hout := Raw.rawAllocate_spec h.memory.raw s.impl.config.enableThreadCache t (n := n + A) (by omega)
    rw [hraw] at hout
    cases hout with
    | served hok hsz hk =>
      obtain ⟨h16, hfit, hbd, -⟩ := raw_facts hok
      exact ⟨h16, by simp only; omega⟩
  have hplaced := wellPlaced (n := n) hpow hlo hhi h16 hbound
  have hspec := Request.acquire_spec s.impl.config h.memory t hv
  have hopened := request_opened hv hacq
  have hshim := shimmed_header s.impl.config T1 hplaced hbound
  rw [hacq, hshape, hsize] at hspec
  rw [hsize] at hopened
  generalize shimmed s.impl.config T1 raw.user n A = T' at *
  generalize hq : ((.ok ⟨alignedAddressOf raw.user A, raw.reserved⟩, T') :
    Except Error RawAllocation × Tiers) = q at hspec
  cases hspec with
  | refused => cases hq
  | @served T2 a hl hsh hsz hk hpoison hguard =>
    obtain ⟨hraw', rfl⟩ := Prod.mk.inj hq
    have hptr : a.ptr = alignedAddressOf raw.user A := (congrArg RawAllocation.user (Except.ok.inj hraw')).symm
    have hres : a.raw.reserved = raw.reserved := (congrArg RawAllocation.reserved (Except.ok.inj hraw')).symm
    refine ⟨a, ?_, hsh, hptr, hsz, ?_⟩
    · rw [hopened]
      dsimp only
      rw [← hptr, ← hres, ← hsz]
      exact h.opened_guarded hl (hl.ptr_aligned List.mem_cons_self hsh) hk hguard
    · exact hl.user_of_shim hptr hplaced (by rw [hptr]; exact hshim)

end Recovery

/-- **Placement and recovery.** For every alignment above 16 and every size, the shim is well placed
    behind any raw address; and when a run has got its raw block at `r`, then after any further
    calls that do not free the user address, `deallocate` gives back the block at `r`. -/
theorem recovery_of_run {A n : Nat} (hpow : isPowerOfTwo A = true) (hlo : 16 < A) (hhi : A ≤ 2 ^ 30)
    (hn : 1 ≤ n) (hmax : n ≤ 2 ^ 46) :
    (∀ r, r % 16 = 0 → r + n + A < 2 ^ 64 → WellPlaced r n A) ∧
    ∀ {cfg : AllocatorConfig} {m : Mem} {page : PageSize} {answers : List (Option Nat)}
      {faults : List Bool} {calls : List ClientCall} {s : ClientSys} {t : Nat} {raw : RawAllocation}
      {T1 : Tiers},
      runFrom ClientSys.step (ClientSys.start cfg (World.boot m page answers) faults) calls = some s →
      s.impl.tiers.rawAllocate cfg.enableThreadCache t (n + A) = (.ok raw, T1) →
      alignedAddressOf raw.user A ∈ (s.request t (.alignedAllocate A n)).pointers ∧
      ∀ {calls' : List ClientCall} {s' : ClientSys},
        (∀ c ∈ calls', c.Spares (alignedAddressOf raw.user A)) →
        runFrom ClientSys.step (s.request t (.alignedAllocate A n)) calls' = some s' →
        ∀ t', Recovered s' t' (alignedAddressOf raw.user A) n raw.user (n + A) := by
  refine ⟨fun r hr hb => wellPlaced hpow hlo hhi hr hb, ?_⟩
  intro cfg m page answers faults calls s t raw T1 hrun hraw
  obtain ⟨live, h⟩ := good_of_run hrun
  rw [← config_of_run hrun] at hraw
  obtain ⟨a, hg, hshape, hptr, hsize, huser⟩ := h.request_aligned hpow hlo hhi hn hmax hraw
  refine ⟨?_, fun {calls' s'} hsp hrun' t' => ?_⟩
  · rw [← hptr]
    exact hg.ptrs.mem_iff.mp (List.mem_map_of_mem List.mem_cons_self)
  · rw [← hptr] at hsp ⊢
    obtain ⟨live', h', ha⟩ := run_persists hg List.mem_cons_self hsp hrun'
    have hrec := h'.recovered ha hshape t'
    rw [hsize, huser] at hrec
    exact hrec

/-- A shim for 100 bytes at a multiple of 32, with requests to other tiers and a thread exit before
    the free. -/
theorem recovery_of_run_roomyWorld : ∃ r s',
    runFrom ClientSys.step ((ClientSys.start {} roomyWorld []).request 0 (.alignedAllocate 32 100))
      [.request 1 (.allocate 10), .request 1 (.allocate 5000), .exit 0] = some s' ∧
    Recovered s' 1 (alignedAddressOf r 32) 100 r (100 + 32) := by
  have hok : ((ClientSys.start {} roomyWorld []).impl.tiers.rawAllocate true 0 (100 + 32)).1.isOk = true := by
    decide +kernel
  generalize hraw : (ClientSys.start {} roomyWorld []).impl.tiers.rawAllocate true 0 (100 + 32) = q at hok
  obtain ⟨res, T1⟩ := q
  cases res with
  | error e => cases hok
  | ok raw =>
    have hrun : runFrom ClientSys.step (ClientSys.start {} roomyWorld []) [] =
        some (ClientSys.start {} roomyWorld []) := rfl
    have hstep : (ClientSys.start {} roomyWorld []).step (.request 0 (.alignedAllocate 32 100)) =
        some ((ClientSys.start {} roomyWorld []).request 0 (.alignedAllocate 32 100)) := rfl
    have hstart : Running (ClientSys.start {} roomyWorld []).impl := ⟨rfl, rfl⟩
    have hlater : ∀ c ∈ [ClientCall.request 1 (.allocate 10), .request 1 (.allocate 5000), .exit 0], c.Always := by
      simp [ClientCall.Always]
    obtain ⟨s', hs'⟩ := run_always (running_stable.step hstart hstep) hlater
    have hrec := ((recovery_of_run (A := 32) (n := 100) (by decide) (by decide) (by decide) (by decide)
      (by decide)).2 hrun hraw).2 (by simp [ClientCall.Spares]) hs'
    exact ⟨raw.user, s', hs', hrec 1⟩

end MAlloc.Client
