/-
  Tag words of the medium tier.

  `tagWord s f` is the `sizeAndFlags` value of a block of size `s` with flags `f`. For a size
  that is a multiple of 16 (`SizeOk`) every accessor and setter of `MediumBlock` is computed on
  such a word: the accessors give back the parts, the setters give the word with one part
  replaced. Everything later speaks of parts and never of masks.
-/
import MAlloc.Model.SegmentHeap

namespace MAlloc.Heap

open Lib MediumBlock

/-- The three flag bits. -/
structure Flags where
  free : Bool
  first : Bool
  last : Bool
  deriving DecidableEq, Repr

def Flags.bits (f : Flags) : Nat := f.free.toNat + 2 * f.first.toNat + 4 * f.last.toNat

def tagWord (s : Nat) (f : Flags) : Nat := s + f.bits

/-- A size the tag can hold beside its flags. -/
def SizeOk (s : Nat) : Prop := s % 16 = 0 ∧ s < 2 ^ 64

theorem Flags.bits_lt (f : Flags) : f.bits < 2 ^ 4 := by
  obtain ⟨a, b, c⟩ := f
  cases a <;> cases b <;> cases c <;> decide

theorem SizeOk.eq {s : Nat} (h : SizeOk s) : s = s / 16 * 2 ^ 4 := by
  unfold SizeOk at h
  omega

theorem tagWord_lt {s : Nat} (h : SizeOk s) (f : Flags) : tagWord s f < 2 ^ 64 := by
  have := f.bits_lt
  unfold tagWord
  unfold SizeOk at h
  omega

theorem tagWord_size {s : Nat} (h : SizeOk s) (f : Flags) : tagWord s f &&& not64 kFlagMask = s := by
  have hw := tagWord_lt h f
  unfold tagWord at hw ⊢
  rw [h.eq] at hw ⊢
  exact land_not64_add f.bits_lt (by decide) hw

theorem tagWord_land {s g : Nat} (h : SizeOk s) (f : Flags) (hg : g < 2 ^ 4) :
    tagWord s f &&& g = f.bits &&& g := by
  unfold tagWord
  rw [h.eq]
  exact mul_add_land_low f.bits_lt hg

theorem tagWord_isFree {s : Nat} (h : SizeOk s) (f : Flags) :
    decide (tagWord s f &&& kFreeFlag ≠ 0) = f.free := by
  rw [tagWord_land h f (by decide)]
  obtain ⟨a, b, c⟩ := f
  cases a <;> cases b <;> cases c <;> rfl

theorem tagWord_isFirst {s : Nat} (h : SizeOk s) (f : Flags) :
    decide (tagWord s f &&& kFirstFlag ≠ 0) = f.first := by
  rw [tagWord_land h f (by decide)]
  obtain ⟨a, b, c⟩ := f
  cases a <;> cases b <;> cases c <;> rfl

theorem tagWord_isLast {s : Nat} (h : SizeOk s) (f : Flags) :
    decide (tagWord s f &&& kLastFlag ≠ 0) = f.last := by
  rw [tagWord_land h f (by decide)]
  obtain ⟨a, b, c⟩ := f
  cases a <;> cases b <;> cases c <;> rfl

theorem tagWord_setSize {s s' : Nat} (h : SizeOk s) (h' : SizeOk s') (f : Flags) :
    tagWord s f &&& kFlagMask ||| s' = tagWord s' f := by
  have hb := f.bits_lt
  have hm : f.bits &&& kFlagMask = f.bits := by
    obtain ⟨a, b, c⟩ := f
    cases a <;> cases b <;> cases c <;> rfl
  have he := mul_add_lor (q := s' / 16) (Nat.two_pow_pos 4) hb
  rw [tagWord_land h f (by decide), hm, Nat.lor_comm]
  unfold tagWord
  rw [h'.eq]
  simpa using he

/-- `setFlag` on the word. -/
theorem tagWord_setFlag {s : Nat} (h : SizeOk s) (f g : Flags) {flag : Nat} {value : Bool}
    (hf : flag < 2 ^ 4)
    (hg : (if value then f.bits ||| flag else f.bits &&& not64 flag) = g.bits) :
    (if value then tagWord s f ||| flag else tagWord s f &&& not64 flag) = tagWord s g := by
  have hw := tagWord_lt h f
  unfold tagWord at hw ⊢
  rw [h.eq] at hw ⊢
  cases value with
  | true =>
    simp only [if_true] at hg ⊢
    rw [mul_add_lor f.bits_lt hf, hg]
  | false =>
    simp only [Bool.false_eq_true, if_false] at hg ⊢
    rw [mul_add_land_not64 f.bits_lt hf (by decide) hw, hg]

theorem setFreeFlag_bits (f : Flags) (v : Bool) :
    (if v then f.bits ||| kFreeFlag else f.bits &&& not64 kFreeFlag) =
      Flags.bits { f with free := v } := by
  obtain ⟨a, b, c⟩ := f
  cases a <;> cases b <;> cases c <;> cases v <;> decide +kernel

theorem setFirstFlag_bits (f : Flags) (v : Bool) :
    (if v then f.bits ||| kFirstFlag else f.bits &&& not64 kFirstFlag) =
      Flags.bits { f with first := v } := by
  obtain ⟨a, b, c⟩ := f
  cases a <;> cases b <;> cases c <;> cases v <;> decide +kernel

theorem setLastFlag_bits (f : Flags) (v : Bool) :
    (if v then f.bits ||| kLastFlag else f.bits &&& not64 kLastFlag) =
      Flags.bits { f with last := v } := by
  obtain ⟨a, b, c⟩ := f
  cases a <;> cases b <;> cases c <;> cases v <;> decide +kernel

/-! ## Tags in memory -/

/-- The word at `a` is the tag of a block of size `s` with flags `f`. -/
def HasTag (m : Mem) (a s : Nat) (f : Flags) : Prop := SizeOk s ∧ sizeAndFlags m a = tagWord s f

section HasTag
variable {m m' : Mem} {a s s' : Nat} {f : Flags}

theorem HasTag.size (h : HasTag m a s f) : MediumBlock.size m a = s := by
  unfold MediumBlock.size
  rw [h.2, tagWord_size h.1]

theorem HasTag.isFree (h : HasTag m a s f) : MediumBlock.isFree m a = f.free := by
  unfold MediumBlock.isFree
  rw [h.2, tagWord_isFree h.1]

theorem HasTag.isFirst (h : HasTag m a s f) : MediumBlock.isFirst m a = f.first := by
  unfold MediumBlock.isFirst
  rw [h.2, tagWord_isFirst h.1]

theorem HasTag.isLast (h : HasTag m a s f) : MediumBlock.isLast m a = f.last := by
  unfold MediumBlock.isLast
  rw [h.2, tagWord_isLast h.1]

theorem HasTag.congr (h : HasTag m a s f) (hm : SameOn m m' a 8) : HasTag m' a s f :=
  ⟨h.1, (readLE_congr hm).trans h.2⟩

theorem hasTag_write (hs : SizeOk s) : HasTag (setSizeAndFlags m a (tagWord s f)) a s f :=
  ⟨hs, readLE_writeLE_word (tagWord_lt hs f)⟩

theorem HasTag.setSize (h : HasTag m a s f) (hs : SizeOk s') :
    HasTag (MediumBlock.setSize m a s') a s' f := by
  unfold MediumBlock.setSize
  rw [h.2, tagWord_setSize h.1 hs]
  exact hasTag_write hs

theorem HasTag.setFree (h : HasTag m a s f) (v : Bool) :
    HasTag (setFlag m a kFreeFlag v) a s { f with free := v } := by
  unfold setFlag
  rw [h.2, tagWord_setFlag h.1 f _ (by decide) (setFreeFlag_bits f v)]
  exact hasTag_write h.1

theorem HasTag.setFirst (h : HasTag m a s f) (v : Bool) :
    HasTag (setFlag m a kFirstFlag v) a s { f with first := v } := by
  unfold setFlag
  rw [h.2, tagWord_setFlag h.1 f _ (by decide) (setFirstFlag_bits f v)]
  exact hasTag_write h.1

theorem HasTag.setLast (h : HasTag m a s f) (v : Bool) :
    HasTag (setFlag m a kLastFlag v) a s { f with last := v } := by
  unfold setFlag
  rw [h.2, tagWord_setFlag h.1 f _ (by decide) (setLastFlag_bits f v)]
  exact hasTag_write h.1

theorem setSize_of_not {x v : Nat} (hx : ¬ (a ≤ x ∧ x < a + 8)) :
    MediumBlock.setSize m a v x = m x :=
  writeLE_of_not hx

theorem setFlag_of_not {x flag : Nat} {v : Bool} (hx : ¬ (a ≤ x ∧ x < a + 8)) :
    setFlag m a flag v x = m x :=
  writeLE_of_not hx

end HasTag

end MAlloc.Heap
