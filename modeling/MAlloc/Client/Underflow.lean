/-
  Underflows into the shim in front of a guarded allocation.

  The 16 bytes in front of the user pointer `p` are no guard bytes: they are the fields `deallocate`
  works with. `CaughtSafely` is what a free should do when they have been changed: the error handler
  is told, and no byte outside the block under `p` is read or written because of the fields. Reading is
  stated by locality: whatever memory holds outside the block, the outcome is the same.

  `Heeded` is the condition on the fields under which this is so (`Live.caught`): the header is refused, the
  guard zone behind the size that is claimed lies in the block and is the judge, or the offset leads to a place
  that the block itself denies to be a small or a medium block. `Noticed` are the plain cases of it.
-/
import MAlloc.Client.Guards

namespace MAlloc.Client

open Lib AllocatorImpl DebugLayer

/-! ## What is wanted -/

/-- The block under the guarded allocation at `p`: raw header, front guard, shim, payload, rear guard. -/
def blockUnder (p reserved : Nat) : Span := ⟨p - 48, reserved + 16⟩

/-- The part of that block behind the front guard: the shim and what follows it. -/
def shimOn (p reserved : Nat) : Span := ⟨p - 16, reserved - 16⟩

theorem has_blockUnder {p reserved x : Nat} :
    (blockUnder p reserved).Has x ↔ p - 48 ≤ x ∧ x < p - 48 + (reserved + 16) := Iff.rfl

theorem has_shimOn {p reserved x : Nat} :
    (shimOn p reserved).Has x ↔ p - 16 ≤ x ∧ x < p - 16 + (reserved - 16) := Iff.rfl

/-- Where `m'` may differ from `m` when both hold the same in the block. -/
def Beyond (p reserved x : Nat) : Prop := ¬ (blockUnder p reserved).Has x

/-- The tiers after a free: the raw block has gone back, or the call has failed. -/
def settled (T : Tiers) (enabled : Bool) (t raw : Nat) : Except Error Unit → Tiers
  | .error _ => T
  | .ok _ => (T.rawDeallocate enabled t raw).2

theorem settled_ok (T : Tiers) (enabled : Bool) (t raw : Nat) :
    settled T enabled t raw (.ok ()) = (T.rawDeallocate enabled t raw).2 := rfl

/-- The free of the guarded allocation at `p` in memory `m` returns `res` and reports `l`. In the block it
    leaves the bytes of `w`; beyond it nothing changes but what the free of the raw block does. -/
structure EndsAs (s : AllocatorImpl) (t p reserved : Nat) (l : List (Error × Nat)) (res : Except Error Unit)
    (w m : Mem) : Prop where
  result : (deallocate { s with tiers := s.tiers.setMem m } t p).1 = res
  reports : (deallocate { s with tiers := s.tiers.setMem m } t p).2.reports = s.reports ++ l
  tiers : ∃ m₁, SameOff (shimOn p reserved).Has m m₁ ∧ SameOff (Beyond p reserved) w m₁ ∧
    (deallocate { s with tiers := s.tiers.setMem m } t p).2.tiers =
      settled (s.tiers.setMem m₁) s.config.enableThreadCache t (p - 32) res

/-- The free of `p` is reported, and depends on no byte beyond the block. -/
def CaughtSafely (s : AllocatorImpl) (t p reserved : Nat) : Prop :=
  ∃ l res w, l ≠ [] ∧ (∀ r ∈ l, r = (.HeapCorruption, p) ∨ r = (.InvalidPointer, p)) ∧
    ∀ m, SameOff (Beyond p reserved) s.tiers.mem m → EndsAs s t p reserved l res w m

/-! ## What is heeded -/

/-- The memory after a shim at `p` that says `n` bytes is taken: poisoned, and marked freed. -/
def marked (cfg : AllocatorConfig) (m : Mem) (p n : Nat) : Mem :=
  BlockHeader.setState (poisonedOld cfg m p n) (p - 16) kStateFreed

/-- A byte of the guard zone behind a payload of `n` bytes lies in the block and differs from the pattern. -/
def Spotted (m : Mem) (p reserved n : Nat) : Prop :=
  ∃ i < 32, (blockUnder p reserved).Has (rearAt p n i) ∧ m (rearAt p n i) ≠ kGuardPattern

/-- The guard zone behind a payload of `n` bytes lies in the block, and is the pattern. -/
def Intact (m : Mem) (p reserved n : Nat) : Prop :=
  ∀ i < 32, (blockUnder p reserved).Has (rearAt p n i) ∧ m (rearAt p n i) = kGuardPattern

/-- What is poisoned lies in the block. -/
def Stays (cfg : AllocatorConfig) (reserved n : Nat) : Prop := cfg.enablePoisoning = true → n + 32 ≤ reserved

/-- Of the tier field at `x`, a byte that lies in the block is not that of `tier`. -/
def Denies (m : Mem) (p reserved x : Nat) (tier : Tier) : Prop :=
  ∃ i < 2, (blockUnder p reserved).Has (x + i) ∧ m (x + i) ≠ UInt8.ofNat (tier.code / 256 ^ i)

/-- The offset leads to a wrong place, and the block denies that a small or a medium block is there. -/
def Astray (cfg : AllocatorConfig) (m : Mem) (p reserved : Nat) (h : BlockHeader) : Prop :=
  h.offset ≠ 32 ∧ ∀ tier, tier = .Small ∨ tier = .Medium →
    Denies (marked cfg m p h.payloadSize) p reserved (headerOf (ptrSub p h.offset) + 8) tier

/-- The free of `p` heeds what the fields in front of `p` have become. -/
inductive Heeded (cfg : AllocatorConfig) (m : Mem) (p reserved : Nat) (h : BlockHeader) : Prop
  | header : h.hasValidTier = false ∨ (h.state ≠ kStateAllocated ∧ h.state ≠ kStateFreed) →
      Heeded cfg m p reserved h
  | guardEnds : h.state = kStateAllocated → h.tierValue = some .DebugShim →
      Spotted m p reserved h.payloadSize → cfg.abortOnError = true → Heeded cfg m p reserved h
  | guard : h.state = kStateAllocated → h.tierValue = some .DebugShim →
      Spotted m p reserved h.payloadSize → cfg.abortOnError = false → Stays cfg reserved h.payloadSize →
      h.offset = 32 ∨ Astray cfg m p reserved h → Heeded cfg m p reserved h
  | lost : h.state = kStateAllocated → h.tierValue = some .DebugShim →
      Intact m p reserved h.payloadSize → Stays cfg reserved h.payloadSize → Astray cfg m p reserved h →
      Heeded cfg m p reserved h
  | aligned : h.state = kStateAllocated → h.tierValue = some .AlignedShim →
      Stays cfg reserved h.payloadSize → Astray cfg m p reserved h → Heeded cfg m p reserved h
  | large : h.state = kStateAllocated → h.tierValue = some .Large → Stays cfg reserved h.payloadSize →
      Heeded cfg m p reserved h

/-! ## Where the fields lead -/

section Lead
variable {T : Tiers} {live : List Alloc} {a : Alloc} {m : Mem}

/-- No large region has its payload inside a block that is out, other than that block itself. -/
theorem Live.lookup_stray (h : Live T live) (ha : a ∈ live) {x : Nat}
    (hx : x % 16 ≠ 0 ∨ a.raw.start < x ∧ x < a.raw.start + a.raw.reserved + 16) : T.large.lookup x = none := by
  obtain ⟨parts, segs, hr⟩ := h.raw.tiers
  refine List.lookup_eq_none_iff.mpr fun e he => ?_
  rw [bne_iff_ne]
  rintro rfl
  have hkey := hr.keys e he
  have hheld : e.2 ∈ T.large.held := List.mem_map_of_mem he
  have hal := hr.world.aligned e.2 (hr.zone_mapped (t := .Large) hheld)
  obtain ⟨b, -, hreg⟩ := List.mem_map.mp (hr.larges.mem_iff.mp hheld)
  have hsize : b.reserved + 32 = e.2.size := congrArg Span.size hreg
  have hin : a.raw.span.Has e.1 := by
    unfold Span.Has Raw.Block.span
    simp only
    omega
  have hown : e.2.Has e.1 := by
    unfold Span.Has
    omega
  by_cases ht : a.raw.tier = .Large
  · have hmine : a.raw.region ∈ T.large.held :=
      hr.larges.mem_iff.mpr (List.mem_map_of_mem (Raw.mem_ofTier.mpr ⟨Live.raw_mem ha, ht⟩))
    have hmine' : a.raw.region.Has e.1 := by
      unfold Span.Has Raw.Block.region
      simp only
      omega
    have heq := Span.eq_of_has hr.world.apart (hr.zone_mapped (t := .Large) hheld)
      (hr.zone_mapped (t := .Large) hmine) hown hmine'
    have hdata : e.2.data = a.raw.start - 16 := congrArg Span.data heq
    have h16 := ((hr.ok _ (Live.raw_mem ha)).large ht).2
    omega
  · obtain ⟨r, hz, hi⟩ := hr.home (Live.raw_mem ha)
    exact (hr.zones_apart ht hz (show e.2 ∈ Raw.zone T .Large from hheld)).not_has (hi.has hin) hown

/-- A raw pointer behind no header of a small or medium block, and under no key. -/
theorem rawDeallocate_stray {enabled : Bool} {t raw : Nat} (hnone : T.large.lookup (headerOf raw) = none)
    (h1 : (BlockHeader.load T.mem (headerOf raw)).tier ≠ Tier.Small.code)
    (h2 : (BlockHeader.load T.mem (headerOf raw)).tier ≠ Tier.Medium.code) :
    T.rawDeallocate enabled t raw = (.error .InvalidPointer, T) := by
  have hlarge : T.rawDeallocateLarge (headerOf raw) = (.error .InvalidPointer, T) := by
    unfold Tiers.rawDeallocateLarge LargeAllocator.deallocate
    rw [hnone]
    rfl
  have hsmall : (BlockHeader.load T.mem (headerOf raw)).tier ≠ 0x51 := h1
  have hmedium : (BlockHeader.load T.mem (headerOf raw)).tier ≠ 0x52 := h2
  unfold Tiers.rawDeallocate Tiers.rawDeallocateBy BlockHeader.tierValue
  rw [if_neg hsmall, if_neg hmedium, hlarge]
  split_ifs <;> rfl

/-- The raw block itself goes back, whatever memory holds behind its header. -/
theorem Live.rawDeallocate_ok (h : Live T live) (ha : a ∈ live)
    (hm : BlockHeader.load m a.raw.start = rawHeader a.raw.size a.raw.tier) (enabled : Bool) (t : Nat) :
    ∃ n, ((T.setMem m).rawDeallocate enabled t a.raw.user).1 = .ok n := by
  obtain ⟨parts, segs, hr⟩ := h.raw.tiers
  unfold Tiers.rawDeallocate
  rw [h.raw_headerOf ha, Tiers.setMem_mem, hm]
  unfold Tiers.rawDeallocateBy
  rw [h.raw_headerOf ha]
  rcases (hr.ok _ (Live.raw_mem ha)).tiers with ht | ht | ht
  · rw [ht, BlockHeader.tierValue_of_code (t := .Small) rfl]
    exact ⟨_, rfl⟩
  · rw [ht, BlockHeader.tierValue_of_code (t := .Medium) rfl]
    exact ⟨_, rfl⟩
  · rw [ht, BlockHeader.tierValue_of_code (t := .Large) rfl]
    unfold Tiers.rawDeallocateLarge LargeAllocator.deallocate
    have hlook : (T.setMem m).large.lookup a.raw.start = some a.raw.region := hr.lookup_region (Live.raw_mem ha) ht
    rw [hlook]
    exact ⟨_, rfl⟩

end Lead

/-! ## The parts of `deallocate` -/

section Parts
variable {s : AllocatorImpl} {cfg : AllocatorConfig} {T : Tiers} {m m' : Mem} {p n reserved : Nat}

theorem poisonedOld_within (hp : 48 ≤ p) (hn : cfg.enablePoisoning = true → n + 32 ≤ reserved) :
    SameOff (shimOn p reserved).Has m (poisonedOld cfg m p n) := by
  intro x hx
  rw [has_shimOn] at hx
  unfold poisonedOld
  split
  · rename_i hcfg
    have := hn hcfg
    exact fill_of_not (by omega)
  · rfl

theorem marked_within (hp : 48 ≤ p) (hr : 32 ≤ reserved) (hn : cfg.enablePoisoning = true → n + 32 ≤ reserved) :
    SameOff (shimOn p reserved).Has m (marked cfg m p n) := by
  intro x hx
  refine (BlockHeader.setState_of_not ?_).trans (poisonedOld_within hp hn x hx)
  rw [has_shimOn] at hx
  omega

theorem poisonedOld_off {G : Nat → Prop} (h : SameOff G m m') :
    SameOff G (poisonedOld cfg m p n) (poisonedOld cfg m' p n) := by
  unfold poisonedOld
  split
  · exact h.fill _ _ _
  · exact h

theorem marked_off {G : Nat → Prop} (h : SameOff G m m') : SameOff G (marked cfg m p n) (marked cfg m' p n) :=
  (poisonedOld_off h).writeLE _ _ _

/-- In front of the state field of the shim nothing is written. -/
theorem marked_below {x : Nat} (hx : x + 6 < p) : marked cfg m p n x = m x :=
  (BlockHeader.setState_of_not (by omega)).trans (poisonedOld_of_not (by omega))

/-- **A shim is taken by its offset.** -/
theorem release_shim (cfg : AllocatorConfig) {h : BlockHeader} (hb : 16 ≤ p) (hp : p < 2 ^ 64) (hh : BlockHeader.load m (p - 16) = h)
    (ht : h.tierValue = some .DebugShim ∨ h.tierValue = some .AlignedShim) (t : Nat) :
    release cfg (T.setMem m) t p h = (T.setMem (marked cfg m p h.payloadSize)).rawDeallocate
      cfg.enableThreadCache t (ptrSub p h.offset) := by
  have hoff : (BlockHeader.load (marked cfg m p h.payloadSize) (p - 16)).offset = h.offset := by
    rw [← hh]
    refine setState_keeps_offset.trans (congrArg BlockHeader.offset ?_)
    exact BlockHeader.load_congr fun x h1 h2 => poisonedOld_of_not (by omega)
  have hshim : releaseShim cfg (T.setMem (poisonedOld cfg m p h.payloadSize)) t p =
      (T.setMem (marked cfg m p h.payloadSize)).rawDeallocate cfg.enableThreadCache t (ptrSub p h.offset) := by
    unfold releaseShim
    rw [headerOf_eq hb hp]
    dsimp only
    rw [Tiers.setMem_mem, Tiers.setMem_setMem, Tiers.setMem_mem, ← hoff]
    rfl
  unfold release
  rw [poisonOld_eq, Tiers.setMem_mem, Tiers.setMem_setMem]
  rcases ht with ht | ht
  · rw [ht]
    exact hshim
  · rw [ht]
    exact hshim

/-- What comes after the guard check. -/
theorem giveBack_spec {h : BlockHeader} {t : Nat} {T' : Tiers} {r : Except Error Nat} {bad : Bool}
    (hbad : corrupt s.config s.tiers.mem p h = bad) (hgo : bad = true → s.config.abortOnError = false)
    (hrel : release s.config s.tiers t p h = (r, T')) :
    (s.giveBack t p h).1 = r.map (fun _ => ()) ∧
      (s.giveBack t p h).2.reports = s.reports ++ ((if bad then [(.HeapCorruption, p)] else []) ++
        match r with
        | .error e => [(e, p)]
        | .ok _ => []) ∧
      (s.giveBack t p h).2.tiers = T' := by
  unfold AllocatorImpl.giveBack
  rw [hbad]
  cases bad with
  | false =>
    dsimp only
    rw [if_neg Bool.false_ne_true, Bool.false_and, if_neg Bool.false_ne_true, hrel]
    cases r with
    | error e => exact ⟨rfl, rfl, rfl⟩
    | ok n =>
      refine ⟨rfl, ?_, discharge_tiers _ _ _ _⟩
      exact (discharge_reports _ _ _ _).trans (List.append_nil _).symm
  | true =>
    have hcfg : (s.report .HeapCorruption p).config = s.config := rfl
    have htiers : (s.report .HeapCorruption p).tiers = s.tiers := rfl
    dsimp only
    rw [if_pos rfl, hcfg, hgo rfl, Bool.and_false, if_neg Bool.false_ne_true, htiers, hrel]
    cases r with
    | error e => exact ⟨rfl, List.append_assoc _ _ _, rfl⟩
    | ok n => exact ⟨rfl, discharge_reports _ _ _ _, discharge_tiers _ _ _ _⟩

theorem verifyGuards_spotted (h : Spotted m p reserved n) : verifyGuards m p n = false := by
  obtain ⟨i, hi, -, hne⟩ := h
  unfold verifyGuards
  rw [Bool.and_eq_false_iff]
  refine Or.inr (List.all_eq_false.mpr ⟨i, List.mem_range.mpr hi, ?_⟩)
  simpa using hne

theorem verifyGuards_intact (hfront : ∀ i < 16, m (ptrSub p 32 + i) = kGuardPattern)
    (h : Intact m p reserved n) : verifyGuards m p n = true := by
  unfold verifyGuards
  rw [Bool.and_eq_true]
  refine ⟨List.all_eq_true.mpr fun i hi => ?_, List.all_eq_true.mpr fun i hi => ?_⟩
  · exact decide_eq_true (hfront i (List.mem_range.mp hi))
  · exact decide_eq_true (h i (List.mem_range.mp hi)).2

/-- Memory with the same bytes in the block. -/
theorem same_in_block (hm : SameOff (Beyond p reserved) m m') {x : Nat} (hx : (blockUnder p reserved).Has x) :
    m' x = m x := hm x fun hno => hno hx

theorem Spotted.congr (h : Spotted m p reserved n) (hm : SameOff (Beyond p reserved) m m') :
    Spotted m' p reserved n := by
  obtain ⟨i, hi, hin, hne⟩ := h
  exact ⟨i, hi, hin, by rwa [same_in_block hm hin]⟩

theorem Intact.congr (h : Intact m p reserved n) (hm : SameOff (Beyond p reserved) m m') :
    Intact m' p reserved n := fun i hi => ⟨(h i hi).1, (same_in_block hm (h i hi).1).trans (h i hi).2⟩

theorem Astray.congr {h : BlockHeader} (ha : Astray cfg m p reserved h)
    (hm : SameOff (Beyond p reserved) m m') : Astray cfg m' p reserved h := by
  refine ⟨ha.1, fun tier ht => ?_⟩
  obtain ⟨i, hi, hin, hne⟩ := ha.2 tier ht
  exact ⟨i, hi, hin, by rwa [same_in_block (marked_off hm) hin]⟩

/-- A tier field is read byte by byte. -/
theorem tier_read_iff {x : Nat} (tier : Tier) :
    readLE m x 2 = tier.code ↔ ∀ i < 2, m (x + i) = UInt8.ofNat (tier.code / 256 ^ i) := by
  have hread : readLE m x 2 = (m x).toNat + 256 * (m (x + 1)).toNat := by simp [readLE]
  have h0 := (m x).toNat_lt
  have hcode : tier.code < 256 := by cases tier <;> decide
  have hzero : tier.code / 256 = 0 := Nat.div_eq_of_lt hcode
  rw [hread]
  constructor
  · intro h i hi
    obtain rfl | rfl : i = 0 ∨ i = 1 := by omega
    · rw [pow_zero, Nat.div_one, Nat.add_zero, ← show (m x).toNat = tier.code by omega, UInt8.ofNat_toNat]
    · rw [pow_one, hzero, ← show (m (x + 1)).toNat = 0 by omega, UInt8.ofNat_toNat]
  · intro h
    have h1 := congrArg UInt8.toNat (h 0 (by decide))
    have h2 := congrArg UInt8.toNat (h 1 (by decide))
    rw [pow_zero, Nat.div_one, Nat.add_zero, UInt8.toNat_ofNat', Nat.mod_eq_of_lt hcode] at h1
    rw [pow_one, hzero] at h2
    simp only [UInt8.toNat_ofNat'] at h2
    omega

theorem Denies.not_read {x : Nat} {tier : Tier} (h : Denies m p reserved x tier) :
    readLE m x 2 ≠ tier.code := by
  obtain ⟨i, hi, -, hne⟩ := h
  exact fun hr => hne ((tier_read_iff tier).mp hr i hi)

end Parts

/-! ## The free -/

section Free
variable {s : AllocatorImpl} {live : List Alloc} {a : Alloc} {m m₁ w : Mem} {h : BlockHeader} {t : Nat}

/-- The registry lets a live pointer pass, and the header is read. -/
theorem Live.deallocate_reads (hl : Live s.tiers live) (ha : a ∈ live) (hp : Passes s a.ptr)
    (hh : BlockHeader.load m (a.ptr - 16) = h) (t : Nat) :
    deallocate { s with tiers := s.tiers.setMem m } t a.ptr =
      deallocateBy { s with tiers := s.tiers.setMem m } t a.ptr h := by
  have hb := hl.bounds ha
  have hc : (s.config.enableLeakTracking && !s.debug.isTracked a.ptr) = false := hp.check
  unfold AllocatorImpl.deallocate
  dsimp only
  rw [if_neg (by omega), hc, if_neg (by simp), hl.headerOf_ptr ha, Tiers.setMem_mem, hh]

theorem deallocateBy_allocated (hA : h.state = kStateAllocated) {tier : Tier} (ht : h.tierValue = some tier)
    (t p : Nat) : s.deallocateBy t p h = s.giveBack t p h := by
  have hv : h.hasValidTier = true := by
    unfold BlockHeader.tierValue at ht
    unfold BlockHeader.hasValidTier
    rw [Bool.and_eq_true, decide_eq_true_eq, decide_eq_true_eq]
    change 0x51 ≤ h.tier ∧ h.tier ≤ 0x55
    split_ifs at ht <;> omega
  unfold AllocatorImpl.deallocateBy
  rw [hv, hA, if_neg (by simp), if_neg (by decide)]

/-- A free that fails at the tiers. -/
theorem Live.ends_error (hl : Live s.tiers live) (ha : a ∈ live) (hp : Passes s a.ptr)
    (hh : BlockHeader.load m (a.ptr - 16) = h) (hA : h.state = kStateAllocated) {tier : Tier}
    (ht : h.tierValue = some tier) {bad : Bool} (hbad : corrupt s.config m a.ptr h = bad)
    (hgo : bad = true → s.config.abortOnError = false) {e : Error}
    (hrel : release s.config (s.tiers.setMem m) t a.ptr h = (.error e, s.tiers.setMem m₁))
    (hin : SameOff (shimOn a.ptr a.raw.reserved).Has m m₁) (hw : SameOff (Beyond a.ptr a.raw.reserved) w m₁) :
    EndsAs s t a.ptr a.raw.reserved ((if bad then [(.HeapCorruption, a.ptr)] else []) ++ [(e, a.ptr)])
      (.error e) w m := by
  have hread := hl.deallocate_reads ha hp hh t
  rw [deallocateBy_allocated hA ht] at hread
  obtain ⟨h1, h2, h3⟩ := giveBack_spec (s := { s with tiers := s.tiers.setMem m }) hbad hgo hrel
  rw [← hread] at h1 h2 h3
  exact ⟨h1, h2, m₁, hin, hw, h3⟩

/-- A shim whose offset leads to a wrong place. -/
theorem Live.release_astray (hl : Live s.tiers live) (ha : a ∈ live) (hs : a.shape = .guarded)
    (hh : BlockHeader.load m (a.ptr - 16) = h)
    (ht : h.tierValue = some .DebugShim ∨ h.tierValue = some .AlignedShim)
    (hA : Astray s.config m a.ptr a.raw.reserved h) :
    release s.config (s.tiers.setMem m) t a.ptr h = (.error .InvalidPointer,
      s.tiers.setMem (marked s.config m a.ptr h.payloadSize)) := by
  have hb := hl.bounds ha
  have hfit := hl.fits ha
  obtain ⟨hptr, hsz⟩ := (hl.ok a ha).placed.guarded hs
  have h16 := hl.ptr_mod_16 ha
  obtain ⟨h32, hdeny⟩ := hA
  have hoff : h.offset < 2 ^ 32 := by
    rw [← hh]
    exact readLE_lt _ _ 4
  -- a byte of the tier field lies in the block, so the header starts behind that of the block, or is off 16
  have hplace : headerOf (ptrSub a.ptr h.offset) % 16 ≠ 0 ∨ a.raw.start < headerOf (ptrSub a.ptr h.offset) ∧
      headerOf (ptrSub a.ptr h.offset) < a.raw.start + a.raw.reserved + 16 := by
    obtain ⟨i, hi, hin, -⟩ := hdeny .Small (Or.inl rfl)
    rw [has_blockUnder] at hin
    have hne : headerOf (ptrSub a.ptr h.offset) ≠ a.raw.start := by
      unfold headerOf ptrSub kHeaderSize
      omega
    omega
  have htier : (BlockHeader.load (marked s.config m a.ptr h.payloadSize) (headerOf (ptrSub a.ptr h.offset))).tier =
      readLE (marked s.config m a.ptr h.payloadSize) (headerOf (ptrSub a.ptr h.offset) + 8) 2 := rfl
  rw [release_shim _ (by omega) (by omega) hh ht]
  refine rawDeallocate_stray (hl.lookup_stray ha hplace) ?_ ?_
  · rw [Tiers.setMem_mem, htier]
    exact (hdeny .Small (Or.inl rfl)).not_read
  · rw [Tiers.setMem_mem, htier]
    exact (hdeny .Medium (Or.inr rfl)).not_read

/-- A shim that says to be the header of a large block. -/
theorem Live.release_large (hl : Live s.tiers live) (ha : a ∈ live) (hs : a.shape = .guarded)
    (hh : BlockHeader.load m (a.ptr - 16) = h) (ht : h.tierValue = some .Large) :
    release s.config (s.tiers.setMem m) t a.ptr h = (.error .InvalidPointer,
      s.tiers.setMem (poisonedOld s.config m a.ptr h.payloadSize)) := by
  have hb := hl.bounds ha
  have hpos := (hl.ok a ha).pos
  obtain ⟨hptr, -⟩ := (hl.ok a ha).placed.guarded hs
  have hhead := hl.headerOf_ptr ha
  have hload : BlockHeader.load (poisonedOld s.config m a.ptr h.payloadSize) (a.ptr - 16) = h :=
    (BlockHeader.load_congr fun x h1 h2 => poisonedOld_of_not (by omega)).trans hh
  have hne : ∀ tier : Tier, tier ≠ .Large → h.tier ≠ tier.code := by
    intro tier hlarge he
    rw [BlockHeader.tierValue_of_code he] at ht
    exact hlarge (Option.some.inj ht)
  unfold release
  rw [poisonOld_eq, Tiers.setMem_mem, Tiers.setMem_setMem, ht]
  refine rawDeallocate_stray ?_ ?_ ?_
  · rw [hhead]
    exact hl.lookup_stray ha (by omega)
  · rw [hhead, Tiers.setMem_mem, hload]
    exact hne .Small (by simp)
  · rw [hhead, Tiers.setMem_mem, hload]
    exact hne .Medium (by simp)

/-- What stands in the block beside the shim, in whatever memory. -/
structure Struck (a : Alloc) (m : Mem) : Prop where
  raw : BlockHeader.load m a.raw.start = rawHeader a.raw.size a.raw.tier
  front : ∀ i < 16, m (ptrSub a.ptr 32 + i) = kGuardPattern

theorem Live.struck {m₀ : Mem} (hl : Live s.tiers live) (ha : a ∈ live) (hs : a.shape = .guarded)
    (hg : a.Guarded s.tiers.mem) (hm₀ : ∀ x, ¬ (a.ptr - 16 ≤ x ∧ x < a.ptr) → m₀ x = s.tiers.mem x)
    (hm : SameOff (Beyond a.ptr a.raw.reserved) m₀ m) : Struck a m := by
  have hb := hl.bounds ha
  have hfit := hl.fits ha
  obtain ⟨hptr, hsz⟩ := (hl.ok a ha).placed.guarded hs
  have hsub : ptrSub a.ptr 32 = a.raw.user := by
    rw [ptrSub_eq (by omega) (by omega)]
    unfold Raw.Block.user
    omega
  have hsame : ∀ x, a.raw.start ≤ x → x < a.raw.start + 32 → m x = s.tiers.mem x := by
    intro x hx1 hx2
    refine (same_in_block hm ?_).trans (hm₀ x (by omega))
    rw [has_blockUnder]
    omega
  refine ⟨?_, fun i hi => ?_⟩
  · exact (BlockHeader.load_congr fun x hx1 hx2 => hsame x hx1 (by omega)).trans
      (hl.raw.header a.raw (Live.raw_mem ha))
  · rw [hsub, hsame _ (by unfold Raw.Block.user; omega) (by unfold Raw.Block.user; omega)]
    exact (hg hs).1 i hi

/-- A shim whose offset is right. -/
theorem Live.ends_freed (hl : Live s.tiers live) (ha : a ∈ live) (hs : a.shape = .guarded) (hp : Passes s a.ptr)
    (hk : Struck a m) (hh : BlockHeader.load m (a.ptr - 16) = h) (hA : h.state = kStateAllocated)
    (ht : h.tierValue = some .DebugShim) (hbad : corrupt s.config m a.ptr h = true)
    (hgo : s.config.abortOnError = false) (hoff : h.offset = 32)
    (hin : SameOff (shimOn a.ptr a.raw.reserved).Has m (marked s.config m a.ptr h.payloadSize))
    (hw : SameOff (Beyond a.ptr a.raw.reserved) w (marked s.config m a.ptr h.payloadSize)) :
    EndsAs s t a.ptr a.raw.reserved [(.HeapCorruption, a.ptr)] (.ok ()) w m := by
  have hb := hl.bounds ha
  obtain ⟨hptr, -⟩ := (hl.ok a ha).placed.guarded hs
  have hsub : ptrSub a.ptr 32 = a.ptr - 32 := ptrSub_eq (by omega) (by omega)
  have huser : a.ptr - 32 = a.raw.user := by
    unfold Raw.Block.user
    omega
  have hraw : BlockHeader.load (marked s.config m a.ptr h.payloadSize) a.raw.start =
      rawHeader a.raw.size a.raw.tier :=
    (BlockHeader.load_congr fun x hx1 hx2 => marked_below (by omega)).trans hk.raw
  obtain ⟨n, hn⟩ := hl.rawDeallocate_ok ha hraw s.config.enableThreadCache t
  cases hq : (s.tiers.setMem (marked s.config m a.ptr h.payloadSize)).rawDeallocate
    s.config.enableThreadCache t a.raw.user with
  | mk r T' =>
  rw [hq] at hn
  dsimp only at hn
  have hrel : release s.config (s.tiers.setMem m) t a.ptr h = (.ok n, T') := by
    rw [release_shim _ (by omega) (by omega) hh (Or.inl ht), hoff, hsub, huser, hq, hn]
  have hread := hl.deallocate_reads ha hp hh t
  rw [deallocateBy_allocated hA ht] at hread
  obtain ⟨h1, h2, h3⟩ := giveBack_spec (s := { s with tiers := s.tiers.setMem m }) hbad (fun _ => hgo)
    hrel
  rw [← hread] at h1 h2 h3
  refine ⟨h1, h2, _, hin, hw, h3.trans ?_⟩
  rw [settled_ok, huser, hq]

/-- The check of a debug shim is the check of its guards. -/
theorem corrupt_of_shim {p : Nat} (hcfg : s.config.enableGuardBytes = true) (ht : h.tierValue = some .DebugShim) :
    corrupt s.config m p h = !verifyGuards m p h.payloadSize := by
  unfold corrupt
  rw [ht, hcfg]
  rfl

theorem corrupt_spotted {p reserved : Nat} (hcfg : s.config.enableGuardBytes = true)
    (ht : h.tierValue = some .DebugShim) (hsp : Spotted m p reserved h.payloadSize) :
    corrupt s.config m p h = true := by
  rw [corrupt_of_shim hcfg ht, verifyGuards_spotted hsp]
  rfl

theorem corrupt_of_other {p : Nat} (ht : h.tierValue ≠ some .DebugShim) : corrupt s.config m p h = false := by
  unfold corrupt
  rw [decide_eq_false ht, Bool.false_and, Bool.false_and]

/-- A failed guard check ends the process, when it is to. -/
theorem giveBack_aborts {p : Nat} (hbad : corrupt s.config s.tiers.mem p h = true)
    (hab : s.config.abortOnError = true) :
    s.giveBack t p h = (.error .HeapCorruption, report s .HeapCorruption p) := by
  unfold AllocatorImpl.giveBack
  dsimp only
  rw [hbad, if_pos rfl]
  exact if_pos hab

/-- A free that comes out as `EndsAs` says in all memory with the same block. -/
theorem CaughtSafely.of_ends {m₀ : Mem} {p reserved : Nat} (l : List (Error × Nat)) (res : Except Error Unit)
    (w : Mem) (hne : l ≠ []) (hsay : ∀ r ∈ l, r = (.HeapCorruption, p) ∨ r = (.InvalidPointer, p))
    (hend : ∀ m, SameOff (Beyond p reserved) m₀ m → EndsAs s t p reserved l res w m) :
    CaughtSafely { s with tiers := s.tiers.setMem m₀ } t p reserved :=
  ⟨l, res, w, hne, hsay, fun m hm => ⟨(hend m hm).result, (hend m hm).reports, (hend m hm).tiers⟩⟩

/-- **What is heeded is caught safely.** -/
theorem Live.caught {m₀ : Mem} (hl : Live s.tiers live) (ha : a ∈ live) (hs : a.shape = .guarded)
    (hg : a.Guarded s.tiers.mem) (hcfg : s.config.enableGuardBytes = true) (hp : Passes s a.ptr)
    (hm₀ : ∀ x, ¬ (a.ptr - 16 ≤ x ∧ x < a.ptr) → m₀ x = s.tiers.mem x)
    (hn : Heeded s.config m₀ a.ptr a.raw.reserved (BlockHeader.load m₀ (a.ptr - 16))) (t : Nat) :
    CaughtSafely { s with tiers := s.tiers.setMem m₀ } t a.ptr a.raw.reserved := by
  have hfit := hl.fits ha
  have hb := hl.bounds ha
  obtain ⟨hptr, hsz⟩ := (hl.ok a ha).placed.guarded hs
  -- the fields are the same in every memory with the same bytes in the block
  have hload : ∀ m, SameOff (Beyond a.ptr a.raw.reserved) m₀ m →
      BlockHeader.load m (a.ptr - 16) = BlockHeader.load m₀ (a.ptr - 16) := by
    intro m hm
    refine BlockHeader.load_congr fun x h1 h2 => same_in_block hm ?_
    rw [has_blockUnder]
    omega
  generalize BlockHeader.load m₀ (a.ptr - 16) = h at hn hload
  have hshim : ∀ m, Stays s.config a.raw.reserved h.payloadSize →
      SameOff (shimOn a.ptr a.raw.reserved).Has m (marked s.config m a.ptr h.payloadSize) := fun m hst =>
    marked_within (by omega) (by omega) hst
  cases hn with
  | header hbad =>
    refine .of_ends [(.InvalidPointer, a.ptr)] (.error .InvalidPointer) m₀ (by simp) (by simp) fun m hm => ?_
    have hread := hl.deallocate_reads ha hp (hload m hm) t
    have hby : deallocateBy { s with tiers := s.tiers.setMem m } t a.ptr h =
        fail { s with tiers := s.tiers.setMem m } .InvalidPointer a.ptr := if_pos hbad
    rw [hby] at hread
    exact ⟨congrArg Prod.fst hread, congrArg (fun r => r.2.reports) hread, m, fun x _ => rfl, hm,
      congrArg (fun r => r.2.tiers) hread⟩
  | guardEnds hA ht hsp hab =>
    refine .of_ends [(.HeapCorruption, a.ptr)] (.error .HeapCorruption) m₀ (by simp) (by simp) fun m hm => ?_
    have hread := hl.deallocate_reads ha hp (hload m hm) t
    rw [deallocateBy_allocated hA ht] at hread
    have hc : corrupt s.config m a.ptr h = true := corrupt_spotted hcfg ht (hsp.congr hm)
    have hby : giveBack { s with tiers := s.tiers.setMem m } t a.ptr h = (.error .HeapCorruption,
        report { s with tiers := s.tiers.setMem m } .HeapCorruption a.ptr) := giveBack_aborts hc hab
    rw [hby] at hread
    exact ⟨congrArg Prod.fst hread, congrArg (fun r => r.2.reports) hread, m, fun x _ => rfl, hm,
      congrArg (fun r => r.2.tiers) hread⟩
  | guard hA ht hsp hab hst hoff =>
    have hc : ∀ m, SameOff (Beyond a.ptr a.raw.reserved) m₀ m → corrupt s.config m a.ptr h = true := fun m hm =>
      corrupt_spotted hcfg ht (hsp.congr hm)
    rcases hoff with hoff | hastray
    · refine .of_ends [(.HeapCorruption, a.ptr)] (.ok ()) (marked s.config m₀ a.ptr h.payloadSize)
        (by simp) (by simp) fun m hm => ?_
      exact hl.ends_freed ha hs hp (hl.struck ha hs hg hm₀ hm) (hload m hm) hA ht (hc m hm) hab hoff
        (hshim m hst) (marked_off hm)
    · refine .of_ends [(.HeapCorruption, a.ptr), (.InvalidPointer, a.ptr)] (.error .InvalidPointer)
        (marked s.config m₀ a.ptr h.payloadSize) (by simp) (by simp) fun m hm => ?_
      exact hl.ends_error ha hp (hload m hm) hA ht (hc m hm) (fun _ => hab)
        (hl.release_astray ha hs (hload m hm) (Or.inl ht) (hastray.congr hm)) (hshim m hst) (marked_off hm)
  | lost hA ht hin hst hastray =>
    refine .of_ends [(.InvalidPointer, a.ptr)] (.error .InvalidPointer) (marked s.config m₀ a.ptr h.payloadSize)
      (by simp) (by simp) fun m hm => ?_
    have hc : corrupt s.config m a.ptr h = false := by
      have hv := verifyGuards_intact (hl.struck ha hs hg hm₀ hm).front (hin.congr hm)
      rw [corrupt_of_shim hcfg ht, hv]
      rfl
    exact hl.ends_error ha hp (hload m hm) hA ht hc (fun hbad => by cases hbad)
      (hl.release_astray ha hs (hload m hm) (Or.inl ht) (hastray.congr hm)) (hshim m hst) (marked_off hm)
  | aligned hA ht hst hastray =>
    refine .of_ends [(.InvalidPointer, a.ptr)] (.error .InvalidPointer) (marked s.config m₀ a.ptr h.payloadSize)
      (by simp) (by simp) fun m hm => ?_
    have hc : corrupt s.config m a.ptr h = false := corrupt_of_other (by rw [ht]; simp)
    exact hl.ends_error ha hp (hload m hm) hA ht hc (fun hbad => by cases hbad)
      (hl.release_astray ha hs (hload m hm) (Or.inr ht) (hastray.congr hm)) (hshim m hst) (marked_off hm)
  | large hA ht hst =>
    refine .of_ends [(.InvalidPointer, a.ptr)] (.error .InvalidPointer)
      (poisonedOld s.config m₀ a.ptr h.payloadSize) (by simp) (by simp) fun m hm => ?_
    have hc : corrupt s.config m a.ptr h = false := corrupt_of_other (by rw [ht]; simp)
    exact hl.ends_error ha hp (hload m hm) hA ht hc (fun hbad => by cases hbad)
      (hl.release_large ha hs (hload m hm) ht) (poisonedOld_within (by omega) hst) (poisonedOld_off hm)

end Free

/-! ## What is noticed -/

/-- A byte of the 32 behind a payload of `n` bytes differs from the pattern, before the block ends. -/
def Seen (m : Mem) (p n room : Nat) : Prop := ∃ i < 32, n + i < room ∧ m (p + n + i) ≠ kGuardPattern

/-- The 32 bytes behind a payload of `n` bytes lie in the block, and are the pattern. -/
def Passed (m : Mem) (p n room : Nat) : Prop := n + 32 ≤ room ∧ ∀ i < 32, m (p + n + i) = kGuardPattern

/-- The offset leads to a wrong place in the block, at which no small and no medium tier is read. -/
def Lost (m : Mem) (p offset : Nat) : Prop :=
  offset ≤ 40 ∧ offset ≠ 32 ∧ readLE m (p - offset - 8) 2 ≠ Tier.Small.code ∧
    readLE m (p - offset - 8) 2 ≠ Tier.Medium.code

/-- The fields in front of `p` are noticed to be wrong, `room` bytes of the block being behind `p`. -/
inductive Noticed (cfg : AllocatorConfig) (m : Mem) (p room : Nat) (h : BlockHeader) : Prop
  | header : h.hasValidTier = false ∨ (h.state ≠ kStateAllocated ∧ h.state ≠ kStateFreed) →
      Noticed cfg m p room h
  | guardEnds : h.state = kStateAllocated → h.tierValue = some .DebugShim → Seen m p h.payloadSize room →
      cfg.abortOnError = true → Noticed cfg m p room h
  | guardFreed : h.state = kStateAllocated → h.tierValue = some .DebugShim → Seen m p h.payloadSize room →
      cfg.abortOnError = false → h.offset = 32 → Noticed cfg m p room h
  | guardLost : h.state = kStateAllocated → h.tierValue = some .DebugShim → Seen m p h.payloadSize room →
      cfg.abortOnError = false → Lost m p h.offset → Noticed cfg m p room h
  | lost : h.state = kStateAllocated → h.tierValue = some .DebugShim → Passed m p h.payloadSize room →
      Lost m p h.offset → Noticed cfg m p room h
  | aligned : h.state = kStateAllocated → h.tierValue = some .AlignedShim →
      (cfg.enablePoisoning = true → h.payloadSize ≤ room) → Lost m p h.offset → Noticed cfg m p room h
  | large : h.state = kStateAllocated → h.tierValue = some .Large →
      (cfg.enablePoisoning = true → h.payloadSize ≤ room) → Noticed cfg m p room h

section Noticed
variable {cfg : AllocatorConfig} {m : Mem} {p n room reserved : Nat}

theorem Seen.spotted (h : Seen m p n room) (hr : room + 32 = reserved) (hb : p + room ≤ 2 ^ 64) :
    Spotted m p reserved n := by
  obtain ⟨i, hi, hin, hne⟩ := h
  have hat : rearAt p n i = p + n + i := rearAt_eq (by omega)
  refine ⟨i, hi, ?_, by rwa [hat]⟩
  rw [hat]
  rw [has_blockUnder]
  omega

theorem Seen.stays (h : Seen m p n room) (hr : room + 32 = reserved) : Stays cfg reserved n := by
  obtain ⟨i, -, hin, -⟩ := h
  intro _
  omega

theorem Passed.intact (h : Passed m p n room) (hr : room + 32 = reserved) (hb : p + room ≤ 2 ^ 64) :
    Intact m p reserved n := by
  obtain ⟨hin, hall⟩ := h
  intro i hi
  have hat : rearAt p n i = p + n + i := rearAt_eq (by omega)
  rw [hat]
  refine ⟨?_, hall i hi⟩
  rw [has_blockUnder]
  omega

theorem Lost.astray {h : BlockHeader} (hlost : Lost m p h.offset) (hr : room + 32 = reserved) (hp : 56 ≤ p)
    (hb : p < 2 ^ 64) : Astray cfg m p reserved h := by
  obtain ⟨h40, h32, h1, h2⟩ := hlost
  have hhead : headerOf (ptrSub p h.offset) + 8 = p - h.offset - 8 := by
    rw [ptrSub_eq (by omega) hb, headerOf_eq (by omega) (by omega)]
    omega
  refine ⟨h32, fun tier ht => ?_⟩
  have hread : readLE m (p - h.offset - 8) 2 ≠ tier.code := by
    rcases ht with rfl | rfl
    · exact h1
    · exact h2
  rw [Ne, tier_read_iff] at hread
  push Not at hread
  obtain ⟨i, hi, hne⟩ := hread
  rw [hhead]
  refine ⟨i, hi, ?_, by rwa [marked_below (by omega)]⟩
  rw [has_blockUnder]
  omega

/-- What is noticed is heeded. -/
theorem Noticed.heeded {h : BlockHeader} (hn : Noticed cfg m p room h) (hr : room + 32 = reserved)
    (hp : 56 ≤ p) (hb : p + room < 2 ^ 64) : Heeded cfg m p reserved h := by
  cases hn with
  | header hbad => exact .header hbad
  | guardEnds hA ht hseen hab => exact .guardEnds hA ht (hseen.spotted hr hb.le) hab
  | guardFreed hA ht hseen hab hoff =>
    exact .guard hA ht (hseen.spotted hr hb.le) hab (hseen.stays hr) (Or.inl hoff)
  | guardLost hA ht hseen hab hlost =>
    exact .guard hA ht (hseen.spotted hr hb.le) hab (hseen.stays hr) (Or.inr (hlost.astray hr hp (by omega)))
  | lost hA ht hpass hlost =>
    refine .lost hA ht (hpass.intact hr hb.le) ?_ (hlost.astray hr hp (by omega))
    have hin := hpass.1
    intro _
    omega
  | aligned hA ht hin hlost =>
    refine .aligned hA ht (fun hpo => ?_) (hlost.astray hr hp (by omega))
    have := hin hpo
    omega
  | large hA ht hin =>
    refine .large hA ht fun hpo => ?_
    have := hin hpo
    omega

end Noticed

/-! ## Runs -/

/-- With guard bytes on, clients that keep to their bytes keep `Good` and `Shaken` together. -/
theorem good_shaken_of_run {cfg : AllocatorConfig} (hcfg : cfg.enableGuardBytes = true) {m : Mem}
    {page : PageSize} {answers : List (Option Nat)} {faults : List Bool} {calls : List ClientCall} {s : ClientSys}
    (hrun : runFrom ClientSys.step (ClientSys.start cfg (World.boot m page answers) faults) calls = some s) :
    s.impl.config = cfg ∧ ∃ live, Good s live ∧ Shaken s live := by
  have hstart := start_good cfg m page answers faults
  refine ⟨config_of_run hrun, run_invariant (P := fun s => ∃ live, Good s live ∧ Shaken s live) ?_
    ⟨[], hstart, hstart.toSound, hcfg, nofun⟩ hrun⟩
  rintro s call s' ⟨live, hg, hsh⟩ hs
  obtain ⟨live', hg'⟩ := (step_good hg hs).1
  obtain ⟨_, hsh', -⟩ := hsh.call (fun _ _ => hg.lenient) hs
  exact ⟨live', hg', hg'.toSound, hsh'.guards, hsh'.shims⟩

/-- **Underflows that are noticed are caught safely**, in every state clients can reach. -/
theorem underflow_of_run {cfg : AllocatorConfig} (hcfg : cfg.enableGuardBytes = true) {m : Mem}
    {page : PageSize} {answers : List (Option Nat)} {faults : List Bool} {calls : List ClientCall} {s : ClientSys}
    (hrun : runFrom ClientSys.step (ClientSys.start cfg (World.boot m page answers) faults) calls = some s)
    {e : Entry} (he : e ∈ s.ledger) (hal : e.align ≤ 16) {m₀ : Mem}
    (hm₀ : ∀ x, ¬ (e.ptr - 16 ≤ x ∧ x < e.ptr) → m₀ x = s.mem x)
    (hn : Noticed cfg m₀ e.ptr (e.reserved - 32) (BlockHeader.load m₀ (e.ptr - 16))) (t : Nat) :
    CaughtSafely { s.impl with tiers := s.impl.tiers.setMem m₀ } t e.ptr e.reserved := by
  obtain ⟨hc, live, hgood, hsh⟩ := good_shaken_of_run hcfg hrun
  obtain ⟨a, ha, hptr, -, hres, hshape⟩ := hsh.alloc_of_entry he hal
  rw [← hptr, ← hres] at hn ⊢
  rw [← hptr] at hm₀
  rw [← hc] at hn
  have hb := hgood.memory.bounds ha
  have hfit := hgood.memory.fits ha
  have h16 := hgood.memory.ptr_mod_16 ha
  obtain ⟨hat, hsz⟩ := (hgood.memory.ok a ha).placed.guarded hshape
  exact hgood.memory.caught ha hshape (hgood.guards a ha) hsh.guards (hgood.passes ha) hm₀
    (hn.heeded (by omega) (by omega) (by omega)) t

/-- Two allocations, and the offset of the first one overwritten. -/
theorem underflow_of_run_offset : ∃ s,
    runFrom ClientSys.step (ClientSys.start { enableGuardBytes := true } smallWorld [])
      [.request 0 (.allocate 100), .request 1 (.allocate 24)] = some s ∧
    (⟨68704, 100, 16, 192⟩ : Entry) ∈ s.ledger ∧
    CaughtSafely { s.impl with tiers := s.impl.tiers.setMem (Function.update s.mem 68700 16) } 1 68704 192 := by
  have hrun : (runFrom ClientSys.step (ClientSys.start { enableGuardBytes := true } smallWorld [])
      [.request 0 (.allocate 100), .request 1 (.allocate 24)]).map (fun s =>
        (decide ((⟨68704, 100, 16, 192⟩ : Entry) ∈ s.ledger),
          BlockHeader.load (Function.update s.mem 68700 16) 68688,
          readLE (Function.update s.mem 68700 16) 68680 2,
          (List.range 32).all fun i => decide (Function.update s.mem 68700 16 (68804 + i) = kGuardPattern))) =
      some (true, ⟨100, 0x55, kStateAllocated, 16⟩, 0xFBFB, true) := by
    decide +kernel
  obtain ⟨s, hs, hv⟩ := Option.map_eq_some_iff.mp hrun
  obtain ⟨he, hv⟩ := Prod.mk.inj hv
  obtain ⟨hh, hv⟩ := Prod.mk.inj hv
  obtain ⟨hlost, hrear⟩ := Prod.mk.inj hv
  have hrear' : ∀ i < 32, Function.update s.mem 68700 16 (68804 + i) = kGuardPattern := fun i hi =>
    of_decide_eq_true (List.all_eq_true.mp hrear i (List.mem_range.mpr hi))
  refine ⟨s, hs, of_decide_eq_true he, underflow_of_run rfl hs (of_decide_eq_true he) (by decide) ?_ ?_ 1⟩
  · intro x hx
    dsimp only at hx
    exact Function.update_of_ne (by omega) _ _
  · dsimp only
    rw [hh]
    refine .lost rfl rfl ⟨by decide, hrear'⟩ ⟨by decide, by decide, ?_, ?_⟩
    · dsimp only
      rw [hlost]
      decide
    · dsimp only
      rw [hlost]
      decide

end MAlloc.Client
