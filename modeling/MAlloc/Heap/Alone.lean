/-
  Giving back where no neighbour is free.

  `deallocate` believes the tag in front of the payload it is given, whatever stands there. Where neither
  the tag nor the words it leads to say that a neighbour is free, and the block is not all of a segment,
  the address goes to the head of the bin for the size the tag says (`deallocate_alone`). Nothing here
  asks for a sound heap.
-/
import MAlloc.Heap.Tag
import Mathlib.Data.Nat.Size

namespace MAlloc.Heap

open Lib MediumBlock SegmentHeap

section Word
variable {m m' : Mem} {a b n k : Nat} {v : UInt8}

/-- A byte of a word bounds it from below. -/
theorem le_readLE (m : Mem) (a : Nat) (h : k < n) : (m (a + k)).toNat * 256 ^ k ≤ readLE m a n := by
  induction n generalizing a k with
  | zero => omega
  | succ n ih =>
    unfold readLE
    cases k with
    | zero =>
      rw [Nat.add_zero, pow_zero, Nat.mul_one]
      omega
    | succ k =>
      have hk := ih (a + 1) (show k < n by omega)
      rw [show a + 1 + k = a + (k + 1) by omega] at hk
      rw [pow_succ, ← Nat.mul_assoc]
      omega

/-- A word whose bytes are all the same. -/
theorem readLE_const (h : ∀ i < n, m (a + i) = v) : readLE m a n = readLE (fun _ => v) 0 n := by
  have hc : ∀ n a b, readLE (fun _ => v) a n = readLE (fun _ => v) b n := by
    intro n
    induction n with
    | zero => intro a b; rfl
    | succ n ih =>
      intro a b
      unfold readLE
      rw [ih (a + 1) (b + 1)]
  have hsame : SameOn m (fun _ => v) a n := fun x h1 h2 => by
    rw [← h (x - a) (by omega), Nat.add_sub_cancel' h1]
  exact (readLE_congr hsame).symm.trans (hc n a 0)

/-- The flags are in the first byte. -/
theorem flag_of_byte {g : Nat} (hg : g < 2 ^ 8) : sizeAndFlags m b &&& g = (m b).toNat &&& g := by
  have hw : sizeAndFlags m b = readLE m (b + 1) 7 * 2 ^ 8 + (m b).toNat := by
    change (m b).toNat + 256 * readLE m (b + 1) 7 = _
    omega
  rw [hw]
  exact mul_add_land_low (m b).toNat_lt hg

theorem not_free_of_zero (h : m b = 0) : isFree m b = false := by
  unfold isFree
  rw [flag_of_byte (by decide), h]
  rfl

theorem size_of_byte (hk : k < 8) (h0 : 0 < k) : (m (b + k)).toNat * 256 ^ k ≤ MediumBlock.size m b := by
  have hle := le_readLE m b hk
  have hw : MediumBlock.size m b = sizeAndFlags m b / 2 ^ 4 * 2 ^ 4 :=
    land_not64_two_pow (k := 4) (readLE_lt_word m b) (by decide)
  obtain ⟨j, rfl⟩ : ∃ j, k = j + 1 := ⟨k - 1, by omega⟩
  have hdvd : (m (b + (j + 1))).toNat * 256 ^ (j + 1) = (m (b + (j + 1))).toNat * 256 ^ j * 16 * 2 ^ 4 := by
    rw [pow_succ]
    ring
  change _ ≤ sizeAndFlags m b at hle
  rw [hw, hdvd]
  rw [hdvd] at hle
  exact Nat.mul_le_mul_right _ ((Nat.le_div_iff_mul_le (by decide)).mpr hle)

theorem binIndex_big {s : Nat} (h : 2 ^ 22 ≤ s) : binIndex s = 17 := by
  have hsize : 22 < s.size := by
    by_contra hle
    have := Nat.size_le.mp (Nat.not_lt.mp hle)
    omega
  unfold binIndex kBinCount
  rw [if_pos (by omega)]
  omega

end Word

/-- Nothing at `b`, or where it leads, says that a neighbour is free. -/
structure Alone (m : Mem) (b : Nat) : Prop where
  next : isLast m b = true ∨ isFree m (nextBlock m b) = false
  prev : isFirst m b = true ∨ isFree m (prevBlock m b) = false

section Alone
variable {w : World} {h : SegmentHeap} {b payload : Nat}

/-- Where `insertFree` writes. -/
theorem insertFree_of_not {m : Mem} {bins : Nat → Nat} {x : Nat} (h1 : ¬ (b ≤ x ∧ x < b + 8))
    (h2 : ¬ (b + 32 ≤ x ∧ x < b + 48))
    (h3 : ¬ (bins (binIndex (MediumBlock.size m b)) % 2 ^ 64 ≤ x ∧
      x < bins (binIndex (MediumBlock.size m b)) % 2 ^ 64 + 8)) :
    (insertFree m bins b).1 x = m x := by
  have hnode : nodeOf b = b + 32 := rfl
  have hnext : FreeNode.next (FreeNode.setNext (FreeNode.setPrev m (nodeOf b) 0) (nodeOf b)
      (bins (binIndex (MediumBlock.size m b)))) (nodeOf b) =
      bins (binIndex (MediumBlock.size m b)) % 2 ^ 64 := readLE_writeLE _ _ 8 _
  have hnew : FreeNode.setNext (FreeNode.setPrev m (nodeOf b) 0) (nodeOf b)
      (bins (binIndex (MediumBlock.size m b))) x = m x := by
    unfold FreeNode.setNext FreeNode.setPrev
    rw [writeLE_of_not (by omega), writeLE_of_not (by omega)]
  unfold insertFree
  dsimp only
  rw [setFlag_of_not h1, hnext]
  split_ifs
  · exact (writeLE_of_not h3).trans hnew
  · exact hnew

/-- What `deallocate` comes to for a block alone. -/
theorem deallocate_insert (hb : blockOf payload = b) (ha : Alone w.mem b)
    (hseg : (isFirst w.mem b && isLast w.mem b) = false ∨ ∀ s ∈ h.segments, s.data ≠ b) :
    ∃ m, m = (if isLast w.mem b = false then
        setPrevSize w.mem (nextBlock w.mem b) (MediumBlock.size w.mem b) else w.mem) ∧
      MediumBlock.size m b = MediumBlock.size w.mem b ∧
      deallocate w h payload = ({ w with mem := (insertFree m h.bins b).1 },
        { h with bins := (insertFree m h.bins b).2 }) := by
  have hmn : mergeNext w.mem h.bins b = (w.mem, h.bins) := by
    unfold mergeNext
    rcases ha.next with hl | hf
    · rw [if_pos hl]
    · dsimp only
      rw [hf]
      simp
  have hmp : mergePrev w.mem h.bins b = (b, w.mem, h.bins) := by
    unfold mergePrev
    rcases ha.prev with hl | hf
    · rw [if_pos hl]
    · dsimp only
      rw [hf]
      simp
  -- the only write before the insertion is behind the tag
  have htag : ∀ m, m = (if isLast w.mem b = false then
      setPrevSize w.mem (nextBlock w.mem b) (MediumBlock.size w.mem b) else w.mem) →
      sizeAndFlags m b = sizeAndFlags w.mem b := by
    rintro m rfl
    split_ifs
    · exact readLE_writeLE_of_disjoint (Or.inl (by unfold nextBlock; omega))
    · rfl
  generalize hm : (if isLast w.mem b = false then
    setPrevSize w.mem (nextBlock w.mem b) (MediumBlock.size w.mem b) else w.mem) = m at htag
  have hword := htag m rfl
  have hsize : MediumBlock.size m b = MediumBlock.size w.mem b := by
    unfold MediumBlock.size
    rw [hword]
  have hends : (isFirst m b && isLast m b) = (isFirst w.mem b && isLast w.mem b) := by
    unfold isFirst isLast
    rw [hword]
  refine ⟨m, rfl, hsize, ?_⟩
  unfold deallocate
  rw [hb, hmn]
  dsimp only
  rw [hmp]
  dsimp only
  rw [hm, hends]
  split_ifs with hall
  · have hno := hseg.resolve_left (by rw [hall]; simp)
    have hfind : h.segments.find? (fun s => decide (s.data = b)) = none :=
      List.find?_eq_none.mpr fun s hs => by simpa using hno s hs
    unfold releaseSegment
    dsimp only
    rw [hfind]
    split_ifs <;> rfl
  · rfl

/-- **A block alone** goes to the head of its bin. -/
theorem deallocate_alone (hb : blockOf payload = b) (ha : Alone w.mem b)
    (hseg : (isFirst w.mem b && isLast w.mem b) = false ∨ ∀ s ∈ h.segments, s.data ≠ b) :
    (deallocate w h payload).2.bins =
      Function.update h.bins (binIndex (MediumBlock.size w.mem b)) (nodeOf b) := by
  obtain ⟨m, -, hsize, heq⟩ := deallocate_insert hb ha hseg
  rw [heq]
  dsimp only
  unfold insertFree
  rw [hsize]

/-- Where giving back the last block of a segment writes. -/
theorem deallocate_of_not (hb : blockOf payload = b) (ha : Alone w.mem b) (hlast : isLast w.mem b = true)
    (hseg : (isFirst w.mem b && isLast w.mem b) = false ∨ ∀ s ∈ h.segments, s.data ≠ b) {x : Nat}
    (h1 : ¬ (b ≤ x ∧ x < b + 8)) (h2 : ¬ (b + 32 ≤ x ∧ x < b + 48))
    (h3 : ¬ (h.bins (binIndex (MediumBlock.size w.mem b)) % 2 ^ 64 ≤ x ∧
      x < h.bins (binIndex (MediumBlock.size w.mem b)) % 2 ^ 64 + 8)) :
    (deallocate w h payload).1.mem x = w.mem x := by
  obtain ⟨m, hm, hsize, heq⟩ := deallocate_insert hb ha hseg
  rw [if_neg (by rw [hlast]; simp)] at hm
  rw [heq]
  dsimp only
  rw [hm]
  exact insertFree_of_not h1 h2 h3

end Alone

end MAlloc.Heap
