/-
  `BlockHeader.hpp` and `SizeClassTable.hpp`: the universal 16-byte header in front of
  every user pointer, the alignment helpers, and the size-class table.

  Sizes and addresses are `Nat`; arithmetic on `std::size_t` and `std::uintptr_t` is
  taken modulo `2^64` where the source's could wrap. A header is read from and written
  to memory field by field, little endian, at the offsets of the struct.
-/
import MAlloc.Lib.Cells

namespace MAlloc

open Lib

abbrev kHeaderSize : Nat := 16
abbrev kDefaultAlignment : Nat := 16
abbrev kSmallMax : Nat := 4096
abbrev kMediumMax : Nat := 256 * 1024

abbrev kStateAllocated : Nat := 0xA11C
abbrev kStateFreed : Nat := 0xF4EE

/-- `ma::Error`. -/
inductive Error where
  | OutOfMemory
  | SizeOverflow
  | InvalidAlignment
  | InvalidPointer
  | DoubleFree
  | HeapCorruption
  deriving DecidableEq, Repr

inductive Tier where
  | Small
  | Medium
  | Large
  | AlignedShim
  | DebugShim
  deriving DecidableEq, Repr

/-- The 16-bit value of the enumerator. -/
def Tier.code : Tier → Nat
  | .Small => 0x51
  | .Medium => 0x52
  | .Large => 0x53
  | .AlignedShim => 0x54
  | .DebugShim => 0x55

structure BlockHeader where
  payloadSize : Nat
  tier : Nat
  state : Nat
  offset : Nat
  deriving DecidableEq, Repr

namespace BlockHeader

def hasValidTier (h : BlockHeader) : Bool :=
  decide (Tier.Small.code ≤ h.tier) && decide (h.tier ≤ Tier.DebugShim.code)

/-- `static_cast<Tier>(tier)`; `none` for a value that is no enumerator. -/
def tierValue (h : BlockHeader) : Option Tier :=
  if h.tier = 0x51 then some .Small
  else if h.tier = 0x52 then some .Medium
  else if h.tier = 0x53 then some .Large
  else if h.tier = 0x54 then some .AlignedShim
  else if h.tier = 0x55 then some .DebugShim
  else none

/-- The header stored at address `a`. -/
def load (m : Mem) (a : Nat) : BlockHeader where
  payloadSize := readLE m a 8
  tier := readLE m (a + 8) 2
  state := readLE m (a + 10) 2
  offset := readLE m (a + 12) 4

/-- `header->payloadSize = …; header->tier = …; header->state = …; header->offset = …`. -/
def store (m : Mem) (a : Nat) (h : BlockHeader) : Mem :=
  let m := writeLE m a 8 h.payloadSize
  let m := writeLE m (a + 8) 2 h.tier
  let m := writeLE m (a + 10) 2 h.state
  writeLE m (a + 12) 4 h.offset

/-- `header->state = state`. -/
def setState (m : Mem) (a state : Nat) : Mem := writeLE m (a + 10) 2 state

/-- The bytes at `a` are no header of an allocated block. -/
def Dead (m : Mem) (a : Nat) : Prop :=
  ¬ ((load m a).hasValidTier = true ∧ (load m a).state = kStateAllocated)

/-- The field values fit their widths. -/
def Fits (h : BlockHeader) : Prop :=
  h.payloadSize < 2 ^ 64 ∧ h.tier < 2 ^ 16 ∧ h.state < 2 ^ 16 ∧ h.offset < 2 ^ 32

theorem load_store {m : Mem} {a : Nat} {h : BlockHeader} (hf : h.Fits) :
    load (store m a h) a = h := by
  obtain ⟨h1, h2, h3, h4⟩ := hf
  have e1 : readLE (store m a h) a 8 = h.payloadSize := by
    unfold store
    rw [readLE_writeLE_of_disjoint (by omega), readLE_writeLE_of_disjoint (by omega),
      readLE_writeLE_of_disjoint (by omega), readLE_writeLE_of_lt (by omega)]
  have e2 : readLE (store m a h) (a + 8) 2 = h.tier := by
    unfold store
    rw [readLE_writeLE_of_disjoint (by omega), readLE_writeLE_of_disjoint (by omega),
      readLE_writeLE_of_lt (by omega)]
  have e3 : readLE (store m a h) (a + 10) 2 = h.state := by
    unfold store
    rw [readLE_writeLE_of_disjoint (by omega), readLE_writeLE_of_lt (by omega)]
  have e4 : readLE (store m a h) (a + 12) 4 = h.offset := by
    unfold store
    rw [readLE_writeLE_of_lt (by omega)]
  unfold load
  rw [e1, e2, e3, e4]

theorem load_congr {m m' : Mem} {a : Nat} (h : SameOn m m' a 16) : load m' a = load m a := by
  unfold load
  rw [readLE_congr (h.mono (by omega) (by omega)), readLE_congr (h.mono (by omega) (by omega)),
    readLE_congr (h.mono (by omega) (by omega)), readLE_congr (h.mono (by omega) (by omega))]

theorem store_of_not {m : Mem} {a x : Nat} {h : BlockHeader} (hx : ¬ (a ≤ x ∧ x < a + 16)) :
    store m a h x = m x := by
  unfold store
  rw [writeLE_of_not (by omega), writeLE_of_not (by omega), writeLE_of_not (by omega),
    writeLE_of_not (by omega)]

theorem setState_of_not {m : Mem} {a x v : Nat} (hx : ¬ (a + 10 ≤ x ∧ x < a + 12)) :
    setState m a v x = m x :=
  writeLE_of_not (by omega)

theorem tierValue_of_code {h : BlockHeader} {t : Tier} (ht : h.tier = t.code) :
    h.tierValue = some t := by
  unfold tierValue
  rw [ht]
  cases t <;> rfl

theorem hasValidTier_of_code {h : BlockHeader} {t : Tier} (ht : h.tier = t.code) :
    h.hasValidTier = true := by
  unfold hasValidTier
  rw [ht]
  cases t <;> rfl

theorem dead_setState (m : Mem) (a : Nat) : Dead (setState m a kStateFreed) a := by
  intro h
  have hlt : kStateFreed < 256 ^ 2 := by
    change 0xF4EE < 65536
    decide
  have hst : (load (setState m a kStateFreed) a).state = kStateFreed := readLE_writeLE_of_lt hlt
  rw [hst] at h
  exact absurd h.2 (by decide)

/-- A value of the tier field whose last four bits are zero is no tier. -/
theorem hasValidTier_eq_false {m : Mem} {a : Nat} (h : (m (a + 8)).toNat % 16 = 0) :
    (load m a).hasValidTier = false := by
  have hlo : (load m a).tier = (m (a + 8)).toNat + 256 * (m (a + 8 + 1)).toNat := by
    change readLE m (a + 8) 2 = _
    simp [readLE]
  unfold hasValidTier
  rw [Bool.and_eq_false_iff, decide_eq_false_iff_not, decide_eq_false_iff_not]
  by_contra hv
  obtain ⟨h1, h2⟩ := not_or.mp hv
  have h3 : 0x51 ≤ (load m a).tier := not_not.mp h1
  have h4 : (load m a).tier ≤ 0x55 := not_not.mp h2
  omega

theorem Dead.of_tame {m m' : Mem} {a : Nat} (h : Dead m a) (ht : TameAt m m' a) : Dead m' a := by
  rcases ht with ht | ht
  · have h1 : (load m' a).tier = (load m a).tier := readLE_congr (ht.mono (by omega) (by omega))
    have h2 : (load m' a).state = (load m a).state := readLE_congr (ht.mono (by omega) (by omega))
    unfold Dead hasValidTier at h ⊢
    rw [h1, h2]
    exact h
  · rintro ⟨hv, -⟩
    rw [hasValidTier_eq_false ht] at hv
    cases hv

end BlockHeader

/-- Pointer minus a byte count. -/
def ptrSub (p k : Nat) : Nat := (p + 2 ^ 64 - k) % 2 ^ 64

def headerOf (userPtr : Nat) : Nat := ptrSub userPtr kHeaderSize

def userPointerOf (blockStart : Nat) : Nat := blockStart + kHeaderSize

theorem ptrSub_eq {p k : Nat} (hk : k ≤ p) (hp : p < 2 ^ 64) : ptrSub p k = p - k := by
  unfold ptrSub
  omega

theorem headerOf_eq {p : Nat} (h : 16 ≤ p) (hp : p < 2 ^ 64) : headerOf p = p - 16 :=
  ptrSub_eq h hp

/-- `(value + alignment - 1) & ~(alignment - 1)` on 64-bit words. -/
def alignUp (value alignment : Nat) : Nat :=
  (value + alignment + (2 ^ 64 - 1)) % 2 ^ 64 &&& not64 ((alignment + (2 ^ 64 - 1)) % 2 ^ 64)

def isPowerOfTwo (value : Nat) : Bool :=
  decide (value ≠ 0) && decide (value &&& (value - 1) = 0)

theorem isPowerOfTwo_iff {v : Nat} : isPowerOfTwo v = true ↔ ∃ k, v = 2 ^ k := by
  unfold isPowerOfTwo
  rw [Bool.and_eq_true, decide_eq_true_eq, decide_eq_true_eq]
  constructor
  · rintro ⟨h0, h⟩
    exact (Nat.and_sub_one_eq_zero_iff_isPowerOfTwo h0).mp h
  · rintro ⟨k, rfl⟩
    exact ⟨(Nat.two_pow_pos k).ne', (Nat.and_sub_one_eq_zero_iff_isPowerOfTwo
      (Nat.two_pow_pos k).ne').mpr ⟨k, rfl⟩⟩

theorem alignUp_two_pow {v k : Nat} (hk : k < 64) :
    alignUp v (2 ^ k) = (v + 2 ^ k - 1) % 2 ^ 64 / 2 ^ k * 2 ^ k := by
  have h1 := Nat.two_pow_pos k
  have h2 := Nat.pow_lt_pow_right (show 1 < 2 by decide) hk
  unfold alignUp
  rw [show (v + 2 ^ k + (2 ^ 64 - 1)) % 2 ^ 64 = (v + 2 ^ k - 1) % 2 ^ 64 by omega,
    show (2 ^ k + (2 ^ 64 - 1)) % 2 ^ 64 = 2 ^ k - 1 by omega,
    land_not64_two_pow (Nat.mod_lt _ (by decide)) (by omega)]

/-- Rounding up to 16 without a wrap: the least multiple of 16 not below `v`. -/
theorem alignUp_16 {v : Nat} (h : v + 15 < 2 ^ 64) : alignUp v 16 = (v + 15) / 16 * 16 := by
  rw [show (16 : Nat) = 2 ^ 4 by rfl, alignUp_two_pow (by decide),
    Nat.mod_eq_of_lt (by omega)]
  rfl

theorem alignUp_16_mod (v : Nat) : alignUp v 16 % 16 = 0 := by
  rw [show (16 : Nat) = 2 ^ 4 by rfl, alignUp_two_pow (by decide), Nat.mul_mod_left]

theorem alignUp_16_lt (v : Nat) : alignUp v 16 < 2 ^ 64 := by
  rw [show (16 : Nat) = 2 ^ 4 by rfl, alignUp_two_pow (by decide)]
  omega

/-! ## Size classes -/

namespace SizeClassTable

abbrev kClassCount : Nat := 30

def kClassSizes : List Nat :=
  [8, 16, 24, 32, 48, 64, 80, 96, 112, 128, 160, 192, 224, 256, 320,
   384, 448, 512, 640, 768, 896, 1024, 1280, 1536, 1792, 2048, 2560, 3072, 3584, 4096]

abbrev kGranularity : Nat := 8
abbrev kLookupSize : Nat := kSmallMax / kGranularity + 1

def classSize (index : Nat) : Nat := kClassSizes.getD index 0

/-- `while (kClassSizes[classIdx] < size) ++classIdx`; the table ends the loop, so `fuel` is
    its length. -/
def skipTo (size : Nat) : (fuel classIdx : Nat) → Nat
  | 0, classIdx => classIdx
  | fuel + 1, classIdx =>
    if classSize classIdx < size then skipTo size fuel (classIdx + 1) else classIdx

/-- The `for` loop over the slots; `classIdx` is carried from slot to slot. -/
def buildLookup : (slots slot classIdx : Nat) → List Nat
  | 0, _, _ => []
  | slots + 1, slot, classIdx =>
    let classIdx := skipTo (slot * kGranularity) kClassCount classIdx
    classIdx :: buildLookup slots (slot + 1) classIdx

def kLookup : List Nat := buildLookup kLookupSize 0 0

def classIndex (size : Nat) : Nat :=
  kLookup.getD ((size + (kGranularity - 1)) % 2 ^ 64 / kGranularity) 0

/-- One pass over the table: every slot names the least class that holds `8 * slot` bytes. -/
theorem kLookup_all : kLookup.zipIdx.all (fun p => decide (p.1 < 30) &&
    decide (p.2 * 8 ≤ classSize p.1) &&
    (List.range p.1).all fun j => decide (classSize j < p.2 * 8)) = true := by
  decide +kernel

theorem kLookup_length : kLookup.length = 513 := by
  decide +kernel

theorem kLookup_spec {slot : Nat} (h : slot < 513) : kLookup.getD slot 0 < 30 ∧
    slot * 8 ≤ classSize (kLookup.getD slot 0) ∧
    ∀ j < kLookup.getD slot 0, classSize j < slot * 8 := by
  have hl : slot < kLookup.length := by rw [kLookup_length]; exact h
  have hm : (kLookup[slot], slot) ∈ kLookup.zipIdx := by
    rw [List.mk_mem_zipIdx_iff_getElem?, List.getElem?_eq_getElem hl]
  have := List.all_eq_true.mp kLookup_all _ hm
  simp only [Bool.and_eq_true, decide_eq_true_eq, List.all_eq_true, List.mem_range] at this
  rw [List.getD_eq_getElem _ _ hl]
  exact ⟨this.1.1, this.1.2, this.2⟩

theorem classIndex_eq {size : Nat} (h : size ≤ 4096) :
    classIndex size = kLookup.getD ((size + 7) / 8) 0 := by
  unfold classIndex
  rw [show (size + (kGranularity - 1)) % 2 ^ 64 = size + 7 from
    Nat.mod_eq_of_lt (show size + 7 < 2 ^ 64 by omega)]

theorem classIndex_lt {size : Nat} (h : size ≤ 4096) : classIndex size < 30 := by
  rw [classIndex_eq h]
  exact (kLookup_spec (by omega)).1

/-- The class chosen for a size holds it. -/
theorem le_classSize {size : Nat} (h : size ≤ 4096) : size ≤ classSize (classIndex size) := by
  rw [classIndex_eq h]
  have := (kLookup_spec (show (size + 7) / 8 < 513 by omega)).2.1
  omega

theorem classSize_bounds : ∀ c < 30, 8 ≤ classSize c ∧ classSize c ≤ 4096 := by
  decide

end SizeClassTable

end MAlloc
