/-
  Byte-addressed memory and little-endian words.

  A memory is a total function from addresses to bytes. `readLE m a n` is the
  `n`-byte little-endian number at `a`, `writeLE m a n v` stores the low `n` bytes
  of `v` there, `fill` is `memset` and `copy` is `memcpy`. Every write is a closed
  form in the address, so a frame fact ("outside the range nothing changed") is one
  rewrite with `writeLE_of_not` and its siblings, and a read through a write is
  `readLE_writeLE` (same place) or `readLE_writeLE_of_disjoint`.

  `SameOn m m' a n` says the two memories agree on `[a, a + n)`, `SameOff G m m'` that they agree
  off the bytes in `G`; writing the same to both keeps the latter.

  The last section is 64-bit mask arithmetic on `Nat`: `not64` is bitwise
  complement, and masking with the complement of `2^k - 1` rounds down to a
  multiple of `2^k` (`land_not64_two_pow`).
-/
import Mathlib.Data.Nat.Bitwise
import Mathlib.Tactic.Common
import Mathlib.Tactic.Ring

namespace MAlloc.Lib

/-- A byte-addressed memory. -/
abbrev Mem := Nat → UInt8

/-- The `n`-byte little-endian number at `a`. -/
def readLE (m : Mem) (a : Nat) : Nat → Nat
  | 0 => 0
  | n + 1 => (m a).toNat + 256 * readLE m (a + 1) n

/-- Store the low `n` bytes of `v` at `a`, least significant first. -/
def writeLE (m : Mem) (a n v : Nat) : Mem :=
  fun x => if a ≤ x ∧ x < a + n then UInt8.ofNat (v / 256 ^ (x - a)) else m x

/-- `memset`: `n` copies of `b` at `a`. -/
def fill (m : Mem) (a n : Nat) (b : UInt8) : Mem :=
  fun x => if a ≤ x ∧ x < a + n then b else m x

/-- `memcpy`: `n` bytes from `src` to `dst`, all read before the first is written. -/
def copy (m : Mem) (dst src n : Nat) : Mem :=
  fun x => if dst ≤ x ∧ x < dst + n then m (src + (x - dst)) else m x

/-- The memories agree on `[a, a + n)`. -/
def SameOn (m m' : Mem) (a n : Nat) : Prop := ∀ x, a ≤ x → x < a + n → m' x = m x

/-- The memories agree off `G`. -/
def SameOff (G : Nat → Prop) (m m' : Mem) : Prop := ∀ x, ¬ G x → m' x = m x

/-! ## Frame facts -/

theorem writeLE_of_not {m : Mem} {a n v x : Nat} (h : ¬ (a ≤ x ∧ x < a + n)) :
    writeLE m a n v x = m x := by
  unfold writeLE
  rw [if_neg h]

theorem fill_of_not {m : Mem} {a n x : Nat} {b : UInt8} (h : ¬ (a ≤ x ∧ x < a + n)) :
    fill m a n b x = m x := by
  unfold fill
  rw [if_neg h]

theorem fill_of_mem {m : Mem} {a n x : Nat} {b : UInt8} (h : a ≤ x ∧ x < a + n) :
    fill m a n b x = b := by
  unfold fill
  rw [if_pos h]

theorem copy_of_not {m : Mem} {dst src n x : Nat} (h : ¬ (dst ≤ x ∧ x < dst + n)) :
    copy m dst src n x = m x := by
  unfold copy
  rw [if_neg h]

theorem copy_at {m : Mem} {dst src n k : Nat} (h : k < n) :
    copy m dst src n (dst + k) = m (src + k) := by
  unfold copy
  rw [if_pos (by omega), Nat.add_sub_cancel_left]

theorem SameOn.refl (m : Mem) (a n : Nat) : SameOn m m a n := fun _ _ _ => rfl

theorem SameOn.symm {m m' : Mem} {a n : Nat} (h : SameOn m m' a n) : SameOn m' m a n :=
  fun x h1 h2 => (h x h1 h2).symm

theorem SameOn.trans {m m' m'' : Mem} {a n : Nat} (h : SameOn m m' a n)
    (h' : SameOn m' m'' a n) : SameOn m m'' a n :=
  fun x h1 h2 => (h' x h1 h2).trans (h x h1 h2)

theorem SameOn.mono {m m' : Mem} {a n b k : Nat} (h : SameOn m m' a n)
    (hb : a ≤ b) (hk : b + k ≤ a + n) : SameOn m m' b k :=
  fun x h1 h2 => h x (by omega) (by omega)

theorem sameOn_writeLE {m : Mem} {a n b k v : Nat} (h : a + n ≤ b ∨ b + k ≤ a) :
    SameOn m (writeLE m b k v) a n :=
  fun _ _ _ => writeLE_of_not (by omega)

theorem sameOn_fill {m : Mem} {a n b k : Nat} {v : UInt8} (h : a + n ≤ b ∨ b + k ≤ a) :
    SameOn m (fill m b k v) a n :=
  fun _ _ _ => fill_of_not (by omega)

theorem SameOff.sameOn {G : Nat → Prop} {m m' : Mem} (h : SameOff G m m') {a n : Nat}
    (hG : ∀ x, G x → ¬ (a ≤ x ∧ x < a + n)) : SameOn m m' a n :=
  fun x h1 h2 => h x fun hx => hG x hx ⟨h1, h2⟩

theorem SameOff.writeLE {G : Nat → Prop} {m m' : Mem} (h : SameOff G m m') (a n v : Nat) :
    SameOff G (writeLE m a n v) (writeLE m' a n v) := by
  intro x hx
  unfold Lib.writeLE
  split
  · rfl
  · exact h x hx

theorem SameOff.fill {G : Nat → Prop} {m m' : Mem} (h : SameOff G m m') (a n : Nat) (b : UInt8) :
    SameOff G (fill m a n b) (fill m' a n b) := by
  intro x hx
  unfold Lib.fill
  split
  · rfl
  · exact h x hx

/-! ## Words -/

theorem readLE_congr {m m' : Mem} {a n : Nat} (h : SameOn m m' a n) :
    readLE m' a n = readLE m a n := by
  induction n generalizing a with
  | zero => rfl
  | succ n ih =>
    have hd : m' a = m a := h a (Nat.le_refl _) (by omega)
    have tl : readLE m' (a + 1) n = readLE m (a + 1) n := ih (h.mono (by omega) (by omega))
    simp only [readLE, hd, tl]

theorem readLE_writeLE_of_disjoint {m : Mem} {a n b k v : Nat} (h : a + n ≤ b ∨ b + k ≤ a) :
    readLE (writeLE m b k v) a n = readLE m a n :=
  readLE_congr (sameOn_writeLE h)

theorem readLE_lt (m : Mem) (a n : Nat) : readLE m a n < 256 ^ n := by
  induction n generalizing a with
  | zero => simp [readLE]
  | succ n ih =>
    have h1 := (m a).toNat_lt
    have h2 := ih (a + 1)
    simp only [readLE, pow_succ]
    omega

theorem readLE_lt_word (m : Mem) (a : Nat) : readLE m a 8 < 2 ^ 64 := readLE_lt m a 8

/-- Reading `k` bytes at the start of an `n`-byte store, `k ≤ n`. -/
theorem readLE_writeLE_prefix (m : Mem) (a n v : Nat) :
    ∀ k j, j + k ≤ n → readLE (writeLE m a n v) (a + j) k = v / 256 ^ j % 256 ^ k := by
  intro k
  induction k with
  | zero => intro j _; simp [readLE, Nat.mod_one]
  | succ k ih =>
    intro j hj
    have hb : (writeLE m a n v (a + j)).toNat = v / 256 ^ j % 256 := by
      unfold writeLE
      rw [if_pos (by omega), Nat.add_sub_cancel_left, UInt8.toNat_ofNat']
    have ht := ih (j + 1) (by omega)
    rw [← Nat.add_assoc] at ht
    simp only [readLE]
    rw [hb, ht, pow_succ, pow_succ, ← Nat.div_div_eq_div_mul, Nat.mul_comm (256 ^ k) 256,
      Nat.mod_mul]

theorem readLE_writeLE (m : Mem) (a n v : Nat) :
    readLE (writeLE m a n v) a n = v % 256 ^ n := by
  have h := readLE_writeLE_prefix m a n v n 0 (by omega)
  simpa using h

/-- A word that fits is read back as it was stored. -/
theorem readLE_writeLE_of_lt {m : Mem} {a n v : Nat} (h : v < 256 ^ n) :
    readLE (writeLE m a n v) a n = v := by
  rw [readLE_writeLE, Nat.mod_eq_of_lt h]

theorem readLE_writeLE_word {m : Mem} {a v : Nat} (h : v < 2 ^ 64) :
    readLE (writeLE m a 8 v) a 8 = v :=
  readLE_writeLE_of_lt h

/-! ## 64-bit masks -/

/-- Bitwise complement of a 64-bit word. -/
def not64 (x : Nat) : Nat := 2 ^ 64 - (x + 1)

theorem testBit_not64 {x : Nat} (h : x < 2 ^ 64) (i : Nat) :
    (not64 x).testBit i = (decide (i < 64) && !x.testBit i) :=
  Nat.testBit_two_pow_sub_succ h i

theorem land_not64_two_pow {x k : Nat} (hx : x < 2 ^ 64) (hk : k ≤ 64) :
    x &&& not64 (2 ^ k - 1) = x / 2 ^ k * 2 ^ k := by
  have hm : 2 ^ k - 1 < 2 ^ 64 := by
    have := Nat.pow_le_pow_right (show 0 < 2 by decide) hk
    have := Nat.two_pow_pos k
    omega
  apply Nat.eq_of_testBit_eq
  intro i
  rw [Nat.testBit_and, testBit_not64 hm, Nat.testBit_two_pow_sub_one, Nat.testBit_mul_two_pow,
    Nat.testBit_div_two_pow]
  by_cases hi : k ≤ i
  · have hs : i - k + k = i := by omega
    by_cases h64 : i < 64
    · simp [hi, h64, hs, Nat.not_lt.mpr hi]
    · have hx' : x.testBit i = false :=
        Nat.testBit_lt_two_pow (hx.trans_le (Nat.pow_le_pow_right (by decide) (by omega)))
      simp [hi, h64, hs, hx']
  · simp [hi, Nat.not_le.mp hi]

/-- A word that is a multiple of `2^k` plus low bits: the mask keeps the multiple. -/
theorem land_not64_add {q f k : Nat} (hf : f < 2 ^ k) (hk : k ≤ 64)
    (hx : q * 2 ^ k + f < 2 ^ 64) : (q * 2 ^ k + f) &&& not64 (2 ^ k - 1) = q * 2 ^ k := by
  rw [land_not64_two_pow hx hk]
  congr 1
  rw [Nat.mul_comm, Nat.mul_add_div (Nat.two_pow_pos k), Nat.div_eq_of_lt hf, Nat.add_zero]

theorem mul_add_lor {q f g k : Nat} (hf : f < 2 ^ k) (hg : g < 2 ^ k) :
    (q * 2 ^ k + f) ||| g = q * 2 ^ k + (f ||| g) := by
  apply Nat.eq_of_testBit_eq
  intro i
  rw [Nat.mul_comm, Nat.testBit_or, Nat.testBit_two_pow_mul_add _ hf,
    Nat.testBit_two_pow_mul_add _ (Nat.or_lt_two_pow hf hg), Nat.testBit_or]
  split
  · rfl
  · rename_i hi
    have : g.testBit i = false :=
      Nat.testBit_lt_two_pow (hg.trans_le (Nat.pow_le_pow_right (by decide) (by omega)))
    simp [this]

theorem mul_add_land_low {q f g k : Nat} (hf : f < 2 ^ k) (hg : g < 2 ^ k) :
    (q * 2 ^ k + f) &&& g = f &&& g := by
  apply Nat.eq_of_testBit_eq
  intro i
  rw [Nat.mul_comm, Nat.testBit_and, Nat.testBit_two_pow_mul_add _ hf, Nat.testBit_and]
  split
  · rfl
  · rename_i hi
    have : g.testBit i = false :=
      Nat.testBit_lt_two_pow (hg.trans_le (Nat.pow_le_pow_right (by decide) (by omega)))
    simp [this]

/-- Clearing low bits leaves the high part. -/
theorem mul_add_land_not64 {q f g k : Nat} (hf : f < 2 ^ k) (hg : g < 2 ^ k) (hk : k ≤ 64)
    (hx : q * 2 ^ k + f < 2 ^ 64) :
    (q * 2 ^ k + f) &&& not64 g = q * 2 ^ k + (f &&& not64 g) := by
  have hg64 : g < 2 ^ 64 := hg.trans_le (Nat.pow_le_pow_right (by decide) hk)
  have hlow : f &&& not64 g < 2 ^ k := lt_of_le_of_lt Nat.and_le_left hf
  apply Nat.eq_of_testBit_eq
  intro i
  rw [Nat.testBit_and, testBit_not64 hg64]
  by_cases hi : i < k
  · have h64 : i < 64 := by omega
    rw [Nat.mul_comm, Nat.testBit_two_pow_mul_add _ hf, Nat.testBit_two_pow_mul_add _ hlow,
      Nat.testBit_and, testBit_not64 hg64]
    simp [hi]
  · have hgi : g.testBit i = false :=
      Nat.testBit_lt_two_pow (hg.trans_le (Nat.pow_le_pow_right (by decide) (by omega)))
    by_cases h64 : i < 64
    · rw [Nat.mul_comm, Nat.testBit_two_pow_mul_add _ hf, Nat.testBit_two_pow_mul_add _ hlow]
      simp [hi, hgi, h64]
    · have hbig : (q * 2 ^ k + f).testBit i = false :=
        Nat.testBit_lt_two_pow (hx.trans_le (Nat.pow_le_pow_right (by decide) (by omega)))
      have hsum : (q * 2 ^ k + (f &&& not64 g)).testBit i = false := by
        apply Nat.testBit_lt_two_pow
        have : f &&& not64 g ≤ f := Nat.and_le_left
        have := Nat.pow_le_pow_right (show 0 < 2 by decide) (show 64 ≤ i by omega)
        omega
      rw [hbig, hsum]
      rfl

end MAlloc.Lib
