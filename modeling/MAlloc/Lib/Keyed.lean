/-
  Lists whose elements carry a key.

  A list without duplicate keys loses one element when a key is filtered out
  (`perm_filter_key`). In an association list a key can be looked up, set (`lookup_put_of_ne`) or
  taken out (`lookup_filter_key`). Two lists in step, related by `R` element by element with the keys the
  same, stay in step when a key is looked up, filtered out or updated.
-/
import Mathlib.Data.List.Forall2
import Mathlib.Data.List.Nodup
import Mathlib.Data.List.Perm.Basic
import Mathlib.Tactic.Common

namespace MAlloc.Lib

section Key
variable {α κ : Type} [DecidableEq κ] {f : α → κ} {l : List α} {a : α}

/-- Taking out a key takes out one element. -/
theorem perm_filter_key (hnd : (l.map f).Nodup) (ha : a ∈ l) :
    l.Perm (a :: l.filter fun d => decide (f d ≠ f a)) := by
  classical
  refine (List.perm_cons_erase ha).trans (List.Perm.cons _ (List.Perm.of_eq ?_))
  rw [(List.Nodup.of_map _ hnd).erase_eq_filter]
  refine List.filter_congr fun d hd => ?_
  by_cases hp : f d = f a
  · rw [List.inj_on_of_nodup_map hnd hd ha hp]
    simp
  · have hne : d ≠ a := fun h0 => hp (by rw [h0])
    simp [hp, hne]

theorem find_key (hnd : (l.map f).Nodup) (ha : a ∈ l) :
    (l.find? fun d => decide (f d = f a)) = some a := by
  induction l with
  | nil => cases ha
  | cons d l ih =>
    rw [List.map_cons, List.nodup_cons] at hnd
    rcases List.mem_cons.mp ha with rfl | ha
    · exact List.find?_cons_of_pos (by simp)
    · rw [List.find?_cons_of_neg]
      · exact ih hnd.2 ha
      · simp only [decide_eq_true_eq]
        exact fun h0 => hnd.1 (h0 ▸ List.mem_map_of_mem ha)

end Key

/-! ## Association lists -/

section Put
variable {κ β : Type} [DecidableEq κ] {l : List (κ × β)} {k : κ} {b : β}

theorem nodup_filter_key (hnd : (l.map Prod.fst).Nodup) :
    ((l.filter fun e => decide (e.1 ≠ k)).map Prod.fst).Nodup :=
  hnd.sublist (List.filter_sublist.map _)

theorem nodup_put (hnd : (l.map Prod.fst).Nodup) :
    (((k, b) :: l.filter fun e => decide (e.1 ≠ k)).map Prod.fst).Nodup := by
  refine List.nodup_cons.mpr ⟨fun hin => ?_, nodup_filter_key hnd⟩
  obtain ⟨e, he, hek⟩ := List.mem_map.mp hin
  exact of_decide_eq_true (List.mem_filter.mp he).2 hek

end Put

section Assoc
variable {κ β : Type} [BEq κ] [LawfulBEq κ] {l : List (κ × β)} {k k' : κ} {b : β}

theorem mem_of_lookup (h : l.lookup k = some b) : (k, b) ∈ l := by
  obtain ⟨l₁, l₂, hsplit, -⟩ := List.lookup_eq_some_iff.mp h
  rw [hsplit]
  simp

variable [DecidableEq κ]

/-- Taking a key out leaves the others. -/
theorem lookup_filter_key (hne : k' ≠ k) :
    (l.filter fun e => decide (e.1 ≠ k)).lookup k' = l.lookup k' := by
  induction l with
  | nil => rfl
  | cons e l ih =>
    by_cases he : e.1 = k
    · rw [List.filter_cons_of_neg (by simpa using he), ih, List.lookup_cons,
        beq_false_of_ne (by rw [he]; exact hne)]
    · rw [List.filter_cons_of_pos (by simpa using he), List.lookup_cons, List.lookup_cons, ih]

theorem lookup_filter_self : (l.filter fun e => decide (e.1 ≠ k)).lookup k = none := by
  refine List.lookup_eq_none_iff.mpr fun e he => ?_
  have hne := of_decide_eq_true (List.mem_filter.mp he).2
  exact bne_iff_ne.mpr (Ne.symm hne)

/-- A key that is set. -/
theorem lookup_put_of_ne (hne : k' ≠ k) :
    ((k, b) :: l.filter fun e => decide (e.1 ≠ k)).lookup k' = l.lookup k' := by
  rw [List.lookup_cons, beq_false_of_ne hne]
  exact lookup_filter_key hne

end Assoc

section InStep
variable {α β κ : Type} [DecidableEq κ] {f : α → κ} {g : β → κ} {R S : α → β → Prop} {l : List α}
  {l' : List β}

/-- A key is found in both lists, in related elements, or in neither. -/
theorem find_inStep (hR : ∀ a b, R a b → f a = g b) (h : List.Forall₂ R l l') (k : κ) :
    ((l.find? fun a => decide (f a = k)) = none ∧ (l'.find? fun b => decide (g b = k)) = none) ∨
      ∃ a b, (l.find? fun a => decide (f a = k)) = some a ∧
        (l'.find? fun b => decide (g b = k)) = some b ∧ R a b := by
  induction h with
  | nil => exact Or.inl ⟨rfl, rfl⟩
  | @cons a b l l' hab _ ih =>
    have hk := hR a b hab
    by_cases ha : f a = k
    · refine Or.inr ⟨a, b, List.find?_cons_of_pos (by simpa using ha),
        List.find?_cons_of_pos (by simpa [← hk] using ha), hab⟩
    · rw [List.find?_cons_of_neg (by simpa using ha), List.find?_cons_of_neg (by simpa [← hk] using ha)]
      exact ih

theorem filter_inStep (hR : ∀ a b, R a b → f a = g b) (h : List.Forall₂ R l l') (k : κ) :
    List.Forall₂ R (l.filter fun a => decide (f a ≠ k)) (l'.filter fun b => decide (g b ≠ k)) := by
  induction h with
  | nil => exact .nil
  | @cons a b l l' hab _ ih =>
    have hk := hR a b hab
    rw [List.filter_cons, List.filter_cons, hk]
    by_cases hb : g b = k
    · simpa [hb] using ih
    · simpa [hb] using And.intro hab ih

/-- Related elements may become otherwise related. -/
theorem imp_inStep (h : List.Forall₂ R l l') (hS : ∀ a ∈ l, ∀ b ∈ l', R a b → S a b) :
    List.Forall₂ S l l' := by
  induction h with
  | nil => exact .nil
  | cons hab _ ih =>
    exact .cons (hS _ List.mem_cons_self _ List.mem_cons_self hab) (ih fun a ha b hb =>
      hS a (List.mem_cons_of_mem _ ha) b (List.mem_cons_of_mem _ hb))

end InStep

end MAlloc.Lib
