/-
  Totals over threads.

  `n` threads have a local state each; `tally w pcs` is the sum of a weight over them. When one thread
  moves, the total changes by what its weight changes (`tally_update`).
-/
import Mathlib.Algebra.BigOperators.Group.Finset.Piecewise
import Mathlib.Algebra.GroupWithZero.Nat
import Mathlib.Algebra.Order.BigOperators.Group.Finset
import Mathlib.Data.Fintype.Basic

namespace MAlloc.Lib

section Tally
variable {n : Nat} {σ : Type} {w : σ → Nat} {pcs : Fin n → σ}

def tally (w : σ → Nat) (pcs : Fin n → σ) : Nat := ∑ t, w (pcs t)

theorem tally_update (w : σ → Nat) (pcs : Fin n → σ) (t : Fin n) (x : σ) :
    tally w (Function.update pcs t x) + w (pcs t) = tally w pcs + w x := by
  have hrest : ∑ u ∈ Finset.univ.erase t, w (Function.update pcs t x u) =
      ∑ u ∈ Finset.univ.erase t, w (pcs u) := by
    refine Finset.sum_congr rfl fun u hu => ?_
    rw [Function.update_of_ne (Finset.ne_of_mem_erase hu)]
  have hnew := Finset.add_sum_erase Finset.univ (fun u => w (Function.update pcs t x u)) (Finset.mem_univ t)
  have hold := Finset.add_sum_erase Finset.univ (fun u => w (pcs u)) (Finset.mem_univ t)
  simp only [Function.update_self, hrest] at hnew
  unfold tally
  omega

theorem le_tally (w : σ → Nat) (pcs : Fin n → σ) (t : Fin n) : w (pcs t) ≤ tally w pcs :=
  Finset.single_le_sum (f := fun u => w (pcs u)) (fun _ _ => Nat.zero_le _) (Finset.mem_univ t)

theorem tally_eq_zero (h : ∀ t, w (pcs t) = 0) : tally w pcs = 0 :=
  Finset.sum_eq_zero fun t _ => h t

theorem tally_le {v : σ → Nat} (h : ∀ t, v (pcs t) ≤ w (pcs t)) : tally v pcs ≤ tally w pcs :=
  Finset.sum_le_sum fun t _ => h t

end Tally

end MAlloc.Lib
