/-
  When an underflow is missed.

  `Heeded` is not only enough for a safe free (`Live.caught`), it is needed. What stands beyond the block is
  for others to write, so a free that is caught safely must come out the same whatever stands there. Each way
  in which a free trusts a changed field shows for some memory beyond the block: a guard zone across the end
  of the block passes or fails, poison behind the block covers a byte, the offset leads to a block of the
  small or of the medium tier. Then the report is missing, or another block than the one under `p` has gone
  back (`caught_iff_of_run`).
-/
import MAlloc.Client.Astray

namespace MAlloc.Client

open Lib AllocatorImpl DebugLayer

/-! ## What a safe free shows -/

section Shows
variable {s : AllocatorImpl} {live : List Alloc} {a : Alloc} {m m' m₀ w : Mem} {t : Nat} {h : BlockHeader}
  {l : List (Error × Nat)} {res : Except Error Unit} {bad : Bool} {tier : Tier}

/-- The free of `a` comes out as `l`, `res` and `w` say, in all memory with the same block. -/
def Settles (s : AllocatorImpl) (t : Nat) (a : Alloc) (m₀ : Mem) (l : List (Error × Nat))
    (res : Except Error Unit) (w : Mem) : Prop :=
  ∀ m, SameOff (Beyond a.ptr a.raw.reserved) m₀ m → EndsAs s t a.ptr a.raw.reserved l res w m

/-- The guard check comes to `bad` in all memory with the same block, and the free goes on. -/
structure Judged (s : AllocatorImpl) (a : Alloc) (m₀ : Mem) (h : BlockHeader) (bad : Bool) : Prop where
  check : ∀ m, SameOff (Beyond a.ptr a.raw.reserved) m₀ m → corrupt s.config m a.ptr h = bad
  goes : bad = true → s.config.abortOnError = false
  spotted : bad = true → Spotted m₀ a.ptr a.raw.reserved h.payloadSize

theorem release_poisoned
    (hm : poisonedOld s.config m a.ptr h.payloadSize = poisonedOld s.config m' a.ptr h.payloadSize) :
    release s.config (s.tiers.setMem m) t a.ptr h = release s.config (s.tiers.setMem m') t a.ptr h := by
  unfold release
  rw [poisonOld_eq, poisonOld_eq, Tiers.setMem_mem, Tiers.setMem_mem, Tiers.setMem_setMem, Tiers.setMem_setMem, hm]

/-- What the free of an allocated block comes to, read off at one memory. -/
theorem Underflown.outcome (hu : Underflown s live a m₀) (hh : BlockHeader.load m₀ (a.ptr - 16) = h)
    (hA : h.state = kStateAllocated) (ht : h.tierValue = some tier)
    (hbad : corrupt s.config m a.ptr h = bad) (hgo : bad = true → s.config.abortOnError = false)
    (hm : SameOff (Beyond a.ptr a.raw.reserved) m₀ m) (hE : EndsAs s t a.ptr a.raw.reserved l res w m)
    {r : Except Error Nat} {T' : Tiers} (hrel : release s.config (s.tiers.setMem m) t a.ptr h = (r, T')) :
    l = (if bad then [(.HeapCorruption, a.ptr)] else []) ++ (match r with
        | .error e => [(e, a.ptr)]
        | .ok _ => []) ∧
      ∃ m₁, SameOff (shimOn a.ptr a.raw.reserved).Has m m₁ ∧
        T' = settled (s.tiers.setMem m₁) s.config.enableThreadCache t (a.ptr - 32) (r.map fun _ => ()) := by
  have hread := hu.memory.deallocate_reads hu.out hu.passes ((hu.load hm).trans hh) t
  rw [deallocateBy_allocated hA ht] at hread
  obtain ⟨h1, h2, h3⟩ := giveBack_spec (s := { s with tiers := s.tiers.setMem m }) hbad hgo hrel
  rw [← hread] at h1 h2 h3
  obtain ⟨m₁, hin, -, htiers⟩ := hE.tiers
  refine ⟨List.append_cancel_left (hE.reports.symm.trans h2), m₁, hin, ?_⟩
  rw [← h3, htiers, ← hE.result, h1]

/-- A free that is not complained about is not silent: it fails. -/
theorem Underflown.fails (hu : Underflown s live a m₀) (hh : BlockHeader.load m₀ (a.ptr - 16) = h)
    (hA : h.state = kStateAllocated) (ht : h.tierValue = some tier) (hj : Judged s a m₀ h false)
    (hE : Settles s t a m₀ l res w) (hl : l ≠ []) (hm : SameOff (Beyond a.ptr a.raw.reserved) m₀ m) {n : Nat}
    (hrel : (release s.config (s.tiers.setMem m) t a.ptr h).1 = .ok n) : False := by
  have hpair : release s.config (s.tiers.setMem m) t a.ptr h =
      (.ok n, (release s.config (s.tiers.setMem m) t a.ptr h).2) := Prod.ext hrel rfl
  exact hl (hu.outcome hh hA ht (hj.check m hm) hj.goes hm (hE m hm) hpair).1

/-- Whatever a poisoned byte behind the block has held, the free comes out the same. -/
theorem Underflown.overwritten (hu : Underflown s live a m₀) (hh : BlockHeader.load m₀ (a.ptr - 16) = h)
    (hA : h.state = kStateAllocated) (ht : h.tierValue = some tier) (hj : Judged s a m₀ h bad)
    (hE : Settles s t a m₀ l res w) (hpo : s.config.enablePoisoning = true) {r : Except Error Nat} {T' : Tiers}
    (hq : release s.config (s.tiers.setMem (around a.ptr a.raw.reserved m₀ (beyondBytes a.ptr))) t a.ptr h = (r, T'))
    {x : Nat} (h1 : a.ptr + a.raw.reserved ≤ x + 32) (h2 : x < a.ptr + h.payloadSize) (v : UInt8) :
    ∃ m₁, m₁ x = v ∧ Ready a m₁ ∧
      T' = settled (s.tiers.setMem m₁) s.config.enableThreadCache t (a.ptr - 32) (r.map fun _ => ()) := by
  have hp := hu.place
  have hout : ¬ (blockUnder a.ptr a.raw.reserved).Has x := by
    rw [has_blockUnder]
    omega
  have hm := around_off a.ptr a.raw.reserved m₀ (Function.update (beyondBytes a.ptr) x v)
  have hpoison : poisonedOld s.config (around a.ptr a.raw.reserved m₀ (Function.update (beyondBytes a.ptr) x v))
      a.ptr h.payloadSize =
      poisonedOld s.config (around a.ptr a.raw.reserved m₀ (beyondBytes a.ptr)) a.ptr h.payloadSize := by
    funext y
    by_cases hy : y = x
    · subst hy
      unfold poisonedOld poisonOnFree
      rw [if_pos hpo, if_pos hpo, fill_of_mem (by omega), fill_of_mem (by omega)]
    · refine poisonedOld_off (G := fun y => y = x) (fun z hz => ?_) y hy
      unfold around
      rw [Function.update_of_ne hz]
  obtain ⟨-, m₁, hin, hT⟩ := hu.outcome hh hA ht (hj.check _ hm) hj.goes hm (hE _ hm)
    ((release_poisoned hpoison).trans hq)
  have hoff : ∀ y, y < a.ptr - 16 ∨ y = x → m₁ y =
      around a.ptr a.raw.reserved m₀ (Function.update (beyondBytes a.ptr) x v) y := by
    intro y hy
    refine hin y ?_
    rw [has_shimOn]
    omega
  refine ⟨m₁, ?_, hu.ready fun y hy => ?_, hT⟩
  · rw [hoff x (Or.inr rfl), around_beyond hout, Function.update_self]
  · rw [hoff y (Or.inl hy)]
    unfold around
    rw [Function.update_of_ne (by omega)]

/-- **Poison stays in the block.** -/
theorem Underflown.stays (hu : Underflown s live a m₀) (hh : BlockHeader.load m₀ (a.ptr - 16) = h)
    (hA : h.state = kStateAllocated) (ht : h.tierValue = some tier) (hj : Judged s a m₀ h bad)
    (hE : Settles s t a m₀ l res w) (hl : l ≠ []) : Stays s.config a.raw.reserved h.payloadSize := by
  intro hpo
  by_contra hbig
  have hp := hu.place
  cases hq : release s.config (s.tiers.setMem (around a.ptr a.raw.reserved m₀ (beyondBytes a.ptr))) t a.ptr h with
  | mk r T' =>
  cases r with
  | error e =>
    -- a free that fails leaves the byte, which then cannot be 0 and 1
    have h1 : a.ptr + a.raw.reserved ≤ a.ptr + (a.raw.reserved - 32) + 32 := by omega
    have h2 : a.ptr + (a.raw.reserved - 32) < a.ptr + h.payloadSize := by omega
    obtain ⟨m₁, hx₁, -, hT₁⟩ := hu.overwritten hh hA ht hj hE hpo hq h1 h2 0
    obtain ⟨m₂, hx₂, -, hT₂⟩ := hu.overwritten hh hA ht hj hE hpo hq h1 h2 1
    have hmem : m₁ = m₂ := congrArg Tiers.mem (hT₁.symm.trans hT₂)
    rw [hmem, hx₂] at hx₁
    exact absurd hx₁ (by decide)
  | ok n =>
    have hm := around_off a.ptr a.raw.reserved m₀ (beyondBytes a.ptr)
    cases bad with
    | false => exact hu.fails hh hA ht hj hE hl hm (congrArg Prod.fst hq)
    | true =>
      -- the guard zone wraps, so there is a byte that the right free leaves too
      obtain ⟨i, hi, hin, -⟩ := hj.spotted rfl
      have hlt : h.payloadSize < 2 ^ 64 := by
        rw [← hh]
        exact readLE_lt_word _ _
      rw [has_blockUnder] at hin
      unfold rearAt at hin
      obtain ⟨x, h1, h2, hkept⟩ := hu.exists_kept s.config.enableThreadCache t
        (n := h.payloadSize) (by omega) (by omega)
      obtain ⟨m₁, hx₁, hr₁, hT₁⟩ := hu.overwritten hh hA ht hj hE hpo hq h1 h2 0
      obtain ⟨m₂, hx₂, hr₂, hT₂⟩ := hu.overwritten hh hA ht hj hE hpo hq h1 h2 1
      have hmem := congrFun (congrArg Tiers.mem (hT₁.symm.trans hT₂)) x
      rw [hu.user] at hmem
      have h01 : m₁ x = m₂ x := (hkept m₁ hr₁).symm.trans (hmem.trans (hkept m₂ hr₂))
      rw [hx₁, hx₂] at h01
      exact absurd h01 (by decide)

/-- Where the block does not deny a tier, memory around it can say it. -/
theorem Underflown.said (hu : Underflown s live a m₀) (hst : Stays s.config a.raw.reserved h.payloadSize)
    (hno : ¬ Denies (marked s.config m₀ a.ptr h.payloadSize) a.ptr a.raw.reserved
      (headerOf (ptrSub a.ptr h.offset) + 8) tier) :
    ∃ m, SameOff (Beyond a.ptr a.raw.reserved) m₀ m ∧
      (BlockHeader.load (s.tiers.setMem (marked s.config m a.ptr h.payloadSize)).mem
        (headerOf (ptrSub a.ptr h.offset))).tier = tier.code := by
  have hp := hu.place
  generalize hx : headerOf (ptrSub a.ptr h.offset) + 8 = x at hno
  have hm := around_off a.ptr a.raw.reserved m₀ fun y => UInt8.ofNat (tier.code / 256 ^ (y - x))
  refine ⟨_, hm, ?_⟩
  rw [Tiers.setMem_mem]
  change readLE _ (headerOf (ptrSub a.ptr h.offset) + 8) 2 = tier.code
  rw [hx, tier_read_iff]
  intro i hi
  by_cases hin : (blockUnder a.ptr a.raw.reserved).Has (x + i)
  · rw [same_in_block (marked_off hm) hin]
    by_contra hne
    exact hno ⟨i, hi, hin, hne⟩
  · have hshim : ¬ (shimOn a.ptr a.raw.reserved).Has (x + i) := by
      rw [has_blockUnder] at hin
      rw [has_shimOn]
      omega
    rw [marked_within (by omega) (by omega) hst _ hshim, around_beyond hin, Nat.add_sub_cancel_left]

/-- A free that goes to a block of a tier, read off at one memory. -/
theorem Underflown.freed (hu : Underflown s live a m₀) (hh : BlockHeader.load m₀ (a.ptr - 16) = h)
    (hA : h.state = kStateAllocated) (ht : h.tierValue = some .DebugShim ∨ h.tierValue = some .AlignedShim)
    (hj : Judged s a m₀ h bad) (hE : Settles s t a m₀ l res w) (hl : l ≠ [])
    (hm : SameOff (Beyond a.ptr a.raw.reserved) m₀ m) (htier : tier = .Small ∨ tier = .Medium)
    (hcode : (BlockHeader.load (s.tiers.setMem (marked s.config m a.ptr h.payloadSize)).mem
      (headerOf (ptrSub a.ptr h.offset))).tier = tier.code) :
    bad = true ∧ ∃ m₁, SameOff (shimOn a.ptr a.raw.reserved).Has m m₁ ∧
      ((s.tiers.setMem (marked s.config m a.ptr h.payloadSize)).rawDeallocate s.config.enableThreadCache t
        (ptrSub a.ptr h.offset)).2 =
      ((s.tiers.setMem m₁).rawDeallocate s.config.enableThreadCache t a.raw.user).2 := by
  have hp := hu.place
  obtain ⟨tier', htv⟩ : ∃ tier', h.tierValue = some tier' := by
    rcases ht with ht | ht
    · exact ⟨_, ht⟩
    · exact ⟨_, ht⟩
  have hrel := release_shim s.config (T := s.tiers) (by omega) (by omega) ((hu.load hm).trans hh) ht t
  obtain ⟨n, hok⟩ := rawDeallocate_frees (T := s.tiers.setMem (marked s.config m a.ptr h.payloadSize))
    s.config.enableThreadCache t htier hcode
  cases hq : (s.tiers.setMem (marked s.config m a.ptr h.payloadSize)).rawDeallocate s.config.enableThreadCache t
    (ptrSub a.ptr h.offset) with
  | mk r T' =>
  rw [hq] at hrel hok
  obtain rfl : r = .ok n := hok
  obtain ⟨hout, m₁, hin, hT⟩ := hu.outcome hh hA htv (hj.check m hm) hj.goes hm (hE m hm) hrel
  refine ⟨?_, m₁, hin, ?_⟩
  · cases bad with
    | false => exact absurd hout hl
    | true => rfl
  · rw [hu.user] at hT
    exact hT

/-- The raw header stands in memory that differs behind the front guard. -/
theorem Underflown.raw (hu : Underflown s live a m₀) (hm : SameOff (Beyond a.ptr a.raw.reserved) m₀ m)
    (hin : SameOff (shimOn a.ptr a.raw.reserved).Has m m') :
    BlockHeader.load m' a.raw.start = rawHeader a.raw.size a.raw.tier := by
  have hp := hu.place
  refine (BlockHeader.load_congr fun x h1 h2 => hin x ?_).trans (hu.struck hm).raw
  rw [has_shimOn]
  omega

/-- Where the block denies a small block and does not deny a medium one, the tier field is in it. -/
theorem Underflown.inside (hu : Underflown s live a m₀) (hh : BlockHeader.load m₀ (a.ptr - 16) = h)
    (hmed : a.raw.tier = .Medium)
    (hsmall : Denies (marked s.config m₀ a.ptr h.payloadSize) a.ptr a.raw.reserved
      (headerOf (ptrSub a.ptr h.offset) + 8) .Small)
    (hno : ¬ Denies (marked s.config m₀ a.ptr h.payloadSize) a.ptr a.raw.reserved
      (headerOf (ptrSub a.ptr h.offset) + 8) .Medium) :
    h.offset ≤ 40 ∧ headerOf (ptrSub a.ptr h.offset) = a.ptr - h.offset - 16 ∧ m₀ (a.ptr - h.offset - 8) = 0x52 ∧
      m₀ (a.ptr - h.offset - 7) = 0 := by
  have hp := hu.place
  obtain ⟨h32, hres⟩ := hu.medium hmed
  have hofflt : h.offset < 2 ^ 32 := by
    rw [← hh]
    exact readLE_lt _ _ 4
  have hbyte : ∀ i < 2, (blockUnder a.ptr a.raw.reserved).Has (headerOf (ptrSub a.ptr h.offset) + 8 + i) →
      marked s.config m₀ a.ptr h.payloadSize (headerOf (ptrSub a.ptr h.offset) + 8 + i) =
        UInt8.ofNat (Tier.Medium.code / 256 ^ i) := by
    intro i hi hin
    by_contra hne
    exact hno ⟨i, hi, hin, hne⟩
  -- the high bytes of the codes are the same
  obtain ⟨i, hi, hin, hne⟩ := hsmall
  have hzero : i = 0 := by
    by_contra h0
    obtain rfl : i = 1 := by omega
    exact hne (hbyte 1 hi hin)
  subst hzero
  have hle : h.offset ≤ 40 := by
    rw [has_blockUnder] at hin
    unfold headerOf ptrSub kHeaderSize at hin
    omega
  have hhead : headerOf (ptrSub a.ptr h.offset) = a.ptr - h.offset - 16 := by
    rw [ptrSub_eq (by omega) (by omega), headerOf_eq (by omega) (by omega)]
  rw [hhead] at hbyte
  have hblock : ∀ i < 2, (blockUnder a.ptr a.raw.reserved).Has (a.ptr - h.offset - 16 + 8 + i) := by
    intro i hi
    rw [has_blockUnder]
    omega
  have hlow := hbyte 0 (by decide) (hblock 0 (by decide))
  have hhigh := hbyte 1 (by decide) (hblock 1 (by decide))
  rw [marked_below (by omega), show a.ptr - h.offset - 16 + 8 + 0 = a.ptr - h.offset - 8 by omega] at hlow
  rw [marked_below (by omega), show a.ptr - h.offset - 16 + 8 + 1 = a.ptr - h.offset - 7 by omega] at hhigh
  exact ⟨hle, hhead, hlow, hhigh⟩

/-- A shim that is no medium header has another byte in front of the state. -/
theorem shim_not_medium (hp : 16 ≤ a.ptr) (hh : BlockHeader.load m₀ (a.ptr - 16) = h)
    (ht : h.tierValue = some .DebugShim ∨ h.tierValue = some .AlignedShim) : (m₀ (a.ptr - 8)).toNat ≠ 0x52 := by
  have htier : readLE m₀ (a.ptr - 16 + 8) 2 = h.tier := congrArg BlockHeader.tier hh
  rw [show a.ptr - 16 + 8 = a.ptr - 8 by omega] at htier
  simp only [readLE] at htier
  intro h52
  unfold BlockHeader.tierValue at ht
  split_ifs at ht <;> simp at ht
  all_goals omega

/-- **A medium block is not freed at another address**: the bins tell the two frees apart. -/
theorem Underflown.denied_medium (hu : Underflown s live a m₀) (hh : BlockHeader.load m₀ (a.ptr - 16) = h)
    (hA : h.state = kStateAllocated) (ht : h.tierValue = some .DebugShim ∨ h.tierValue = some .AlignedShim)
    (hj : Judged s a m₀ h bad) (hE : Settles s t a m₀ l res w) (hl : l ≠ [])
    (hst : Stays s.config a.raw.reserved h.payloadSize) (h32 : h.offset ≠ 32) (hmed : a.raw.tier = .Medium)
    (hsmall : Denies (marked s.config m₀ a.ptr h.payloadSize) a.ptr a.raw.reserved
      (headerOf (ptrSub a.ptr h.offset) + 8) .Small) :
    Denies (marked s.config m₀ a.ptr h.payloadSize) a.ptr a.raw.reserved
      (headerOf (ptrSub a.ptr h.offset) + 8) .Medium := by
  by_contra hno
  have hp := hu.place
  obtain ⟨hle, hhead, hlow, hhigh⟩ := hu.inside hh hmed hsmall hno
  have hoff := hu.near hmed hle h32 (shim_not_medium (by omega) hh ht) hlow
  have hm := around_off a.ptr a.raw.reserved m₀ (beyondBytes a.ptr)
  have hM : SameOff (shimOn a.ptr a.raw.reserved).Has (around a.ptr a.raw.reserved m₀ (beyondBytes a.ptr))
      (marked s.config (around a.ptr a.raw.reserved m₀ (beyondBytes a.ptr)) a.ptr h.payloadSize) :=
    marked_within (by omega) (by omega) hst
  have hcode : (BlockHeader.load (s.tiers.setMem (marked s.config (around a.ptr a.raw.reserved m₀
      (beyondBytes a.ptr)) a.ptr h.payloadSize)).mem (headerOf (ptrSub a.ptr h.offset))).tier =
      Tier.Medium.code := by
    rw [Tiers.setMem_mem, hhead]
    change readLE _ (a.ptr - h.offset - 16 + 8) 2 = Tier.Medium.code
    rw [tier_read_iff]
    intro i hi
    have hin : (blockUnder a.ptr a.raw.reserved).Has (a.ptr - h.offset - 16 + 8 + i) := by
      rw [has_blockUnder]
      omega
    rw [marked_below (by omega), same_in_block hm hin]
    obtain rfl | rfl : i = 0 ∨ i = 1 := by omega
    · rw [show a.ptr - h.offset - 16 + 8 + 0 = a.ptr - h.offset - 8 by omega]
      exact hlow
    · rw [show a.ptr - h.offset - 16 + 8 + 1 = a.ptr - h.offset - 7 by omega]
      exact hhigh
  obtain ⟨-, m₁, hin, heq⟩ := hu.freed hh hA ht hj hE hl hm (Or.inr rfl) hcode
  have hready : Ready a m₁ := hu.ready fun x hx => hin x (by
    rw [has_shimOn]
    omega)
  rw [rawDeallocate_medium hcode, hhead] at heq
  have hbins := congrFun (congrArg (fun T : Tiers => T.segments.bins) heq) 17
  rw [hu.strays hmed hoff hM, (hu.right_medium hmed hready).1, Function.update_self, Function.update_self] at hbins
  omega

/-- **The block denies to be where the offset leads**, when the free is safe. -/
theorem Underflown.astray (hu : Underflown s live a m₀) (hh : BlockHeader.load m₀ (a.ptr - 16) = h)
    (hA : h.state = kStateAllocated) (ht : h.tierValue = some .DebugShim ∨ h.tierValue = some .AlignedShim)
    (hj : Judged s a m₀ h bad) (hE : Settles s t a m₀ l res w) (hl : l ≠ [])
    (hst : Stays s.config a.raw.reserved h.payloadSize) (h32 : h.offset ≠ 32) :
    Astray s.config m₀ a.ptr a.raw.reserved h := by
  have hp := hu.place
  have hofflt : h.offset < 2 ^ 32 := by
    rw [← hh]
    exact readLE_lt _ _ 4
  have hne : headerOf (ptrSub a.ptr h.offset) ≠ a.raw.start := by
    unfold headerOf ptrSub kHeaderSize
    omega
  have hsmall : Denies (marked s.config m₀ a.ptr h.payloadSize) a.ptr a.raw.reserved
      (headerOf (ptrSub a.ptr h.offset) + 8) .Small := by
    by_contra hno
    obtain ⟨m, hm, hcode⟩ := hu.said hst hno
    obtain ⟨-, m₁, hin, heq⟩ := hu.freed hh hA ht hj hE hl hm (Or.inl rfl) hcode
    rw [rawDeallocate_small hcode] at heq
    exact hu.memory.ne_small hu.out (hu.raw hm hin) hne heq
  refine ⟨h32, fun tier htier => ?_⟩
  rcases htier with rfl | rfl
  · exact hsmall
  by_cases hmed : a.raw.tier = .Medium
  · exact hu.denied_medium hh hA ht hj hE hl hst h32 hmed hsmall
  · by_contra hno
    obtain ⟨m, hm, hcode⟩ := hu.said hst hno
    obtain ⟨-, m₁, hin, heq⟩ := hu.freed hh hA ht hj hE hl hm (Or.inr rfl) hcode
    rw [rawDeallocate_medium hcode] at heq
    exact hu.memory.ne_medium hu.out (hu.raw hm hin) hmed heq

/-- A failed guard check is the first thing reported. -/
theorem Underflown.complains (hu : Underflown s live a m₀) (hh : BlockHeader.load m₀ (a.ptr - 16) = h)
    (hA : h.state = kStateAllocated) (ht : h.tierValue = some tier) (hbad : corrupt s.config m a.ptr h = true)
    (hm : SameOff (Beyond a.ptr a.raw.reserved) m₀ m) (hE : EndsAs s t a.ptr a.raw.reserved l res w m) :
    ∃ l', l = (.HeapCorruption, a.ptr) :: l' := by
  cases hab : s.config.abortOnError with
  | false =>
    cases hq : release s.config (s.tiers.setMem m) t a.ptr h with
    | mk r T' => exact ⟨_, (hu.outcome hh hA ht hbad (fun _ => hab) hm hE hq).1⟩
  | true =>
    have hread := hu.memory.deallocate_reads hu.out hu.passes ((hu.load hm).trans hh) t
    have hby : giveBack { s with tiers := s.tiers.setMem m } t a.ptr h = (.error .HeapCorruption,
        report { s with tiers := s.tiers.setMem m } .HeapCorruption a.ptr) := giveBack_aborts hbad hab
    rw [deallocateBy_allocated hA ht, hby] at hread
    have hrep := hE.reports
    rw [hread] at hrep
    exact ⟨[], (List.append_cancel_left hrep).symm⟩

/-- With the pattern all around a guard check is passed that finds no wrong byte in the block. -/
theorem Underflown.passes_around (hu : Underflown s live a m₀) (ht : h.tierValue = some .DebugShim)
    (hpattern : ∀ i < 32, (blockUnder a.ptr a.raw.reserved).Has (rearAt a.ptr h.payloadSize i) →
      m₀ (rearAt a.ptr h.payloadSize i) = kGuardPattern) :
    corrupt s.config (around a.ptr a.raw.reserved m₀ fun _ => kGuardPattern) a.ptr h = false := by
  have hm := around_off a.ptr a.raw.reserved m₀ fun _ => kGuardPattern
  rw [corrupt_of_shim hu.config ht]
  unfold verifyGuards
  rw [Bool.not_eq_false', Bool.and_eq_true]
  refine ⟨List.all_eq_true.mpr fun j hj => ?_, List.all_eq_true.mpr fun j hj => decide_eq_true ?_⟩
  · exact decide_eq_true ((hu.struck hm).front j (List.mem_range.mp hj))
  · unfold around
    split_ifs with hin
    · exact hpattern j (List.mem_range.mp hj) hin
    · rfl

/-- With zeros around no guard check is passed that reads beyond the block. -/
theorem Underflown.fails_around (hu : Underflown s live a m₀) (ht : h.tierValue = some .DebugShim) {i : Nat}
    (hi : i < 32) (hout : ¬ (blockUnder a.ptr a.raw.reserved).Has (rearAt a.ptr h.payloadSize i)) :
    corrupt s.config (around a.ptr a.raw.reserved m₀ fun _ => 0) a.ptr h = true := by
  rw [corrupt_of_shim hu.config ht]
  unfold verifyGuards
  rw [Bool.not_eq_true', Bool.and_eq_false_iff]
  refine Or.inr (List.all_eq_false.mpr ⟨i, List.mem_range.mpr hi, ?_⟩)
  rw [around_beyond hout]
  decide

/-- A guard zone of which no byte in the block is wrong lies in the block. -/
theorem Underflown.intact (hu : Underflown s live a m₀) (hh : BlockHeader.load m₀ (a.ptr - 16) = h)
    (hA : h.state = kStateAllocated) (ht : h.tierValue = some .DebugShim) (hE : Settles s t a m₀ l res w)
    (hl : l ≠ []) (hno : ¬ Spotted m₀ a.ptr a.raw.reserved h.payloadSize) :
    Intact m₀ a.ptr a.raw.reserved h.payloadSize := by
  have hpattern : ∀ i < 32, (blockUnder a.ptr a.raw.reserved).Has (rearAt a.ptr h.payloadSize i) →
      m₀ (rearAt a.ptr h.payloadSize i) = kGuardPattern := by
    intro i hi hin
    by_contra hne
    exact hno ⟨i, hi, hin, hne⟩
  by_contra hcross
  unfold Intact at hcross
  push Not at hcross
  obtain ⟨i, hi, hi'⟩ := hcross
  have hout : ¬ (blockUnder a.ptr a.raw.reserved).Has (rearAt a.ptr h.payloadSize i) := fun hin =>
    hi' hin (hpattern i hi hin)
  have hm := around_off a.ptr a.raw.reserved m₀ fun _ => kGuardPattern
  have hm' := around_off a.ptr a.raw.reserved m₀ fun _ => 0
  have hpass := hu.passes_around ht hpattern
  have hfail := hu.fails_around ht hi hout
  cases hq : release s.config (s.tiers.setMem (around a.ptr a.raw.reserved m₀ fun _ => kGuardPattern)) t a.ptr h
    with
  | mk r T' =>
  obtain ⟨hout₁, -⟩ := hu.outcome hh hA ht hpass (fun hbad => by cases hbad) hm (hE _ hm) hq
  cases r with
  | ok n => exact hl hout₁
  | error e =>
    have hp := hu.place
    have hrel := release_shim s.config (T := s.tiers) (by omega) (by omega) ((hu.load hm).trans hh)
      (Or.inl ht) t
    obtain rfl : e = .InvalidPointer := rawDeallocate_error (hrel ▸ congrArg Prod.fst hq)
    obtain ⟨l', hout₂⟩ := hu.complains hh hA ht hfail hm' (hE _ hm')
    rw [hout₂] at hout₁
    simp at hout₁

theorem Underflown.judged_other (ht : h.tierValue ≠ some .DebugShim) : Judged s a m₀ h false :=
  ⟨fun _ _ => corrupt_of_other ht, nofun, nofun⟩

theorem tier_of_value (ht : h.tierValue = some tier) : h.tier = tier.code := by
  unfold BlockHeader.tierValue at ht
  split_ifs at ht with h1 h2 h3 h4 h5 <;> obtain rfl := Option.some.inj ht <;> assumption

theorem valid_tierValue (hv : h.hasValidTier = true) : h.tierValue ≠ none := by
  unfold BlockHeader.hasValidTier at hv
  rw [Bool.and_eq_true, decide_eq_true_eq, decide_eq_true_eq] at hv
  change 0x51 ≤ h.tier ∧ h.tier ≤ 0x55 at hv
  intro hnone
  unfold BlockHeader.tierValue at hnone
  split_ifs at hnone
  omega

/-- A shim that says to be the header of a small or of a medium block is believed. -/
theorem Underflown.believed (hu : Underflown s live a m₀) (hh : BlockHeader.load m₀ (a.ptr - 16) = h)
    (htier : tier = .Small ∨ tier = .Medium) (ht : h.tierValue = some tier) :
    ∃ n, (release s.config (s.tiers.setMem m₀) t a.ptr h).1 = .ok n := by
  have hp := hu.place
  have hload : BlockHeader.load (poisonedOld s.config m₀ a.ptr h.payloadSize) (a.ptr - 16) = h :=
    (BlockHeader.load_congr fun x h1 h2 => poisonedOld_of_not (by omega)).trans hh
  have hcode : (BlockHeader.load (s.tiers.setMem (poisonedOld s.config m₀ a.ptr h.payloadSize)).mem
      (headerOf a.ptr)).tier = tier.code := by
    rw [hu.memory.headerOf_ptr hu.out, Tiers.setMem_mem, hload]
    exact tier_of_value ht
  obtain ⟨n, hn⟩ := rawDeallocate_frees s.config.enableThreadCache t htier hcode
  refine ⟨n, ?_⟩
  unfold release
  rw [poisonOld_eq, Tiers.setMem_mem, Tiers.setMem_setMem, ht]
  rcases htier with rfl | rfl
  · exact hn
  · exact hn

/-- With the right offset the right block is freed. -/
theorem Underflown.returned (hu : Underflown s live a m₀) (hh : BlockHeader.load m₀ (a.ptr - 16) = h)
    (ht : h.tierValue = some .DebugShim ∨ h.tierValue = some .AlignedShim) (h32 : h.offset = 32) :
    ∃ n, (release s.config (s.tiers.setMem m₀) t a.ptr h).1 = .ok n := by
  have hp := hu.place
  have hraw : BlockHeader.load (marked s.config m₀ a.ptr h.payloadSize) a.raw.start =
      rawHeader a.raw.size a.raw.tier :=
    (BlockHeader.load_congr fun x h1 h2 => marked_below (by omega)).trans (hu.struck (m := m₀) fun _ _ => rfl).raw
  obtain ⟨n, hn⟩ := hu.memory.rawDeallocate_ok hu.out hraw s.config.enableThreadCache t
  refine ⟨n, ?_⟩
  rw [release_shim _ (by omega) (by omega) hh ht, h32, ptrSub_eq (by omega) (by omega), hu.user]
  exact hn

/-- A block marked as freed is a double free, which no underflow may be reported as. -/
theorem Underflown.not_freed (hu : Underflown s live a m₀) (hh : BlockHeader.load m₀ (a.ptr - 16) = h)
    (hE : Settles s t a m₀ l res w) (hsay : ∀ r ∈ l, r = (.HeapCorruption, a.ptr) ∨ r = (.InvalidPointer, a.ptr))
    (hgood : ¬ (h.hasValidTier = false ∨ (h.state ≠ kStateAllocated ∧ h.state ≠ kStateFreed))) :
    h.state ≠ kStateFreed := by
  intro hF
  have hread := hu.memory.deallocate_reads hu.out hu.passes hh t
  have hby : deallocateBy { s with tiers := s.tiers.setMem m₀ } t a.ptr h =
      fail { s with tiers := s.tiers.setMem m₀ } .DoubleFree a.ptr := by
    unfold AllocatorImpl.deallocateBy
    rw [if_neg hgood, if_pos hF]
  rw [hby] at hread
  have hrep := (hE m₀ fun _ _ => rfl).reports
  rw [hread] at hrep
  have hdouble : [(Error.DoubleFree, a.ptr)] = l := List.append_cancel_left hrep
  have hin : (Error.DoubleFree, a.ptr) ∈ l := by
    rw [← hdouble]
    exact List.mem_singleton_self _
  have := hsay (.DoubleFree, a.ptr) hin
  simp at this

/-- A free caught safely behind a shim of the debug layer. -/
theorem Underflown.heeded_shim (hu : Underflown s live a m₀) (hh : BlockHeader.load m₀ (a.ptr - 16) = h)
    (hA : h.state = kStateAllocated) (ht : h.tierValue = some .DebugShim) (hE : Settles s t a m₀ l res w)
    (hl : l ≠ []) : Heeded s.config m₀ a.ptr a.raw.reserved h := by
  by_cases hsp : Spotted m₀ a.ptr a.raw.reserved h.payloadSize
  · cases hab : s.config.abortOnError with
    | true => exact .guardEnds hA ht hsp hab
    | false =>
      have hj : Judged s a m₀ h true :=
        ⟨fun m hm => corrupt_spotted hu.config ht (hsp.congr hm), fun _ => hab, fun _ => hsp⟩
      have hst := hu.stays hh hA ht hj hE hl
      refine .guard hA ht hsp hab hst ?_
      by_cases h32 : h.offset = 32
      · exact Or.inl h32
      · exact Or.inr (hu.astray hh hA (Or.inl ht) hj hE hl hst h32)
  · have hin := hu.intact hh hA ht hE hl hsp
    have hj : Judged s a m₀ h false := by
      refine ⟨fun m hm => ?_, nofun, nofun⟩
      rw [corrupt_of_shim hu.config ht, verifyGuards_intact (hu.struck hm).front (hin.congr hm)]
      rfl
    have hst := hu.stays hh hA ht hj hE hl
    by_cases h32 : h.offset = 32
    · obtain ⟨n, hn⟩ := hu.returned (t := t) hh (Or.inl ht) h32
      exact (hu.fails hh hA ht hj hE hl (fun _ _ => rfl) hn).elim
    · exact .lost hA ht hin hst (hu.astray hh hA (Or.inl ht) hj hE hl hst h32)

/-- **Only what is heeded is caught safely.** -/
theorem Underflown.heeded (hu : Underflown s live a m₀) (hh : BlockHeader.load m₀ (a.ptr - 16) = h)
    (hE : Settles s t a m₀ l res w) (hl : l ≠ [])
    (hsay : ∀ r ∈ l, r = (.HeapCorruption, a.ptr) ∨ r = (.InvalidPointer, a.ptr)) :
    Heeded s.config m₀ a.ptr a.raw.reserved h := by
  have hself : SameOff (Beyond a.ptr a.raw.reserved) m₀ m₀ := fun _ _ => rfl
  by_cases hbad : h.hasValidTier = false ∨ (h.state ≠ kStateAllocated ∧ h.state ≠ kStateFreed)
  · exact .header hbad
  have hA : h.state = kStateAllocated := by
    by_contra hno
    exact hbad (Or.inr ⟨hno, hu.not_freed hh hE hsay hbad⟩)
  have hv : h.hasValidTier = true := by
    by_contra hno
    exact hbad (Or.inl (Bool.eq_false_of_not_eq_true hno))
  cases ht : h.tierValue with
  | none => exact absurd ht (valid_tierValue hv)
  | some tier =>
    have hother : tier ≠ .DebugShim → Judged s a m₀ h false := fun hne =>
      Underflown.judged_other (by rw [ht]; simpa using hne)
    cases tier with
    | Small =>
      obtain ⟨n, hn⟩ := hu.believed (t := t) hh (Or.inl rfl) ht
      exact (hu.fails hh hA ht (hother (by simp)) hE hl hself hn).elim
    | Medium =>
      obtain ⟨n, hn⟩ := hu.believed (t := t) hh (Or.inr rfl) ht
      exact (hu.fails hh hA ht (hother (by simp)) hE hl hself hn).elim
    | Large => exact .large hA ht (hu.stays hh hA ht (hother (by simp)) hE hl)
    | AlignedShim =>
      have hj := hother (by simp)
      have hst := hu.stays hh hA ht hj hE hl
      by_cases h32 : h.offset = 32
      · obtain ⟨n, hn⟩ := hu.returned (t := t) hh (Or.inr ht) h32
        exact (hu.fails hh hA ht hj hE hl hself hn).elim
      · exact .aligned hA ht hst (hu.astray hh hA (Or.inr ht) hj hE hl hst h32)
    | DebugShim => exact hu.heeded_shim hh hA ht hE hl

end Shows

/-! ## Runs -/

end MAlloc.Client
