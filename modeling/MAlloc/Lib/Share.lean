/-
  How scattered a total is over the parts of a list.

  `largest l` is the largest part and `scattered l` the share of the total outside it: 0 when the
  total is in one part, and at most `1 - 1 / n` for `n` parts. Neither depends on the order.
-/
import Mathlib.Algebra.BigOperators.Group.List.Basic
import Mathlib.Algebra.Order.BigOperators.Group.List
import Mathlib.Algebra.Order.Field.Basic
import Mathlib.Algebra.Order.Ring.Rat
import Mathlib.Tactic.Linarith
import Mathlib.Tactic.Positivity

namespace MAlloc.Lib

def largest (l : List Nat) : Nat := l.foldr max 0

/-- The share of the total that is not in the largest part. -/
def scattered (l : List Nat) : ℚ := if l.sum = 0 then 0 else 1 - (largest l : ℚ) / (l.sum : ℚ)

section Share
variable {l l' : List Nat} {a : Nat}

theorem largest_cons : largest (a :: l) = max a (largest l) := rfl

theorem le_largest (h : a ∈ l) : a ≤ largest l := by
  induction l with
  | nil => cases h
  | cons b l ih =>
    rw [largest_cons]
    rcases List.mem_cons.mp h with rfl | h
    · exact Nat.le_max_left _ _
    · exact (ih h).trans (Nat.le_max_right _ _)

theorem largest_mem (h : l ≠ []) : largest l ∈ l := by
  induction l with
  | nil => exact absurd rfl h
  | cons b l ih =>
    rw [largest_cons]
    rcases Nat.le_total (largest l) b with hle | hle
    · rw [Nat.max_eq_left hle]
      exact List.mem_cons_self
    · rw [Nat.max_eq_right hle]
      by_cases hl : l = []
      · rw [hl] at hle ⊢
        rw [Nat.le_antisymm hle (Nat.zero_le b)]
        exact List.mem_cons_self
      · exact List.mem_cons_of_mem _ (ih hl)

theorem largest_perm (h : l.Perm l') : largest l = largest l' := h.foldr_eq 0

theorem largest_le_sum (l : List Nat) : largest l ≤ l.sum := by
  by_cases h : l = []
  · rw [h]
    exact Nat.le_refl _
  · exact List.single_le_sum (fun _ _ => Nat.zero_le _) _ (largest_mem h)

theorem sum_le_largest (l : List Nat) : l.sum ≤ l.length * largest l := by
  have h := List.sum_le_card_nsmul l (largest l) fun _ ha => le_largest ha
  rwa [nsmul_eq_mul, Nat.cast_id] at h

/-- The total is in one part exactly when there is no second one. -/
theorem largest_eq_sum_iff (hpos : ∀ a ∈ l, 0 < a) : largest l = l.sum ↔ l.length ≤ 1 := by
  constructor
  · intro he
    match l, hpos, he with
    | [], _, _ => exact Nat.zero_le _
    | [_], _, _ => exact Nat.le_refl _
    | a :: b :: l, hpos, he =>
      have ha := hpos a List.mem_cons_self
      have hb := hpos b (List.mem_cons_of_mem _ List.mem_cons_self)
      have hrest := largest_le_sum (b :: l)
      rw [largest_cons, List.sum_cons] at he
      rw [List.sum_cons] at hrest he
      omega
  · intro hlen
    match l, hlen with
    | [], _ => rfl
    | [a], _ => simp [largest]

/-- A running total and maximum over machine words. -/
theorem foldl_totals (l : List Nat) (s m : Nat) :
    l.foldl (fun acc a => ((acc.1 + a) % 2 ^ 64, max acc.2 a)) (s % 2 ^ 64, m) =
      ((s + l.sum) % 2 ^ 64, max m (largest l)) := by
  induction l generalizing s m with
  | nil => simp [largest]
  | cons a l ih =>
    rw [List.foldl_cons]
    dsimp only
    rw [Nat.mod_add_mod, ih, List.sum_cons, largest_cons, Nat.add_assoc, Nat.max_assoc]

theorem scattered_nonneg (l : List Nat) : 0 ≤ scattered l := by
  unfold scattered
  split
  · exact le_refl _
  case isFalse h =>
    have hs : (0 : ℚ) < (l.sum : ℚ) := by exact_mod_cast Nat.pos_of_ne_zero h
    have hle : (largest l : ℚ) ≤ (l.sum : ℚ) := by exact_mod_cast largest_le_sum l
    have hdiv := (div_le_one hs).mpr hle
    linarith

theorem scattered_eq_zero_iff (hpos : ∀ a ∈ l, 0 < a) : scattered l = 0 ↔ l.length ≤ 1 := by
  unfold scattered
  rw [← largest_eq_sum_iff hpos]
  split
  case isTrue h =>
    have hle := largest_le_sum l
    exact ⟨fun _ => by omega, fun _ => rfl⟩
  case isFalse h =>
    have hs : (l.sum : ℚ) ≠ 0 := by exact_mod_cast h
    rw [sub_eq_zero, eq_comm, div_eq_one_iff_eq hs]
    exact Nat.cast_inj

/-- The largest part is at least the average. -/
theorem scattered_le (hl : l ≠ []) : scattered l ≤ 1 - 1 / (l.length : ℚ) := by
  have hlen : (1 : ℚ) ≤ (l.length : ℚ) := by exact_mod_cast List.length_pos_iff.mpr hl
  have hn : (0 : ℚ) < (l.length : ℚ) := by linarith
  unfold scattered
  split
  · have hone := (div_le_one hn).mpr hlen
    linarith
  case isFalse h =>
    have hs : (0 : ℚ) < (l.sum : ℚ) := by exact_mod_cast Nat.pos_of_ne_zero h
    have havg : (l.sum : ℚ) ≤ (largest l : ℚ) * (l.length : ℚ) := by
      rw [mul_comm]
      exact_mod_cast sum_le_largest l
    have hdiv : 1 / (l.length : ℚ) ≤ (largest l : ℚ) / (l.sum : ℚ) := by
      rw [div_le_div_iff₀ hn hs, one_mul]
      exact havg
    linarith

theorem scattered_lt_one (l : List Nat) : scattered l < 1 := by
  by_cases hl : l = []
  · rw [hl]
    decide +kernel
  · have hlen : (0 : ℚ) < (l.length : ℚ) := by exact_mod_cast List.length_pos_iff.mpr hl
    have hpos : 0 < 1 / (l.length : ℚ) := by positivity
    have hle := scattered_le hl
    linarith

end Share

end MAlloc.Lib
