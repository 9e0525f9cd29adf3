/-
  Spans of addresses: `[data, data + size)`.

  `Span.Disjoint` is a comparison of end points, so `omega` decides it once the
  fields are numbers. A list of spans is kept apart with `List.Pairwise`; two
  members of such a list are equal or disjoint (`eq_or_disjoint_of_pairwise`), and
  the sizes of spans kept apart below `N` add up to at most `N` (`sum_size_le`).
-/
import Mathlib.Algebra.BigOperators.Group.Finset.Basic
import Mathlib.Algebra.GroupWithZero.Nat
import Mathlib.Order.Interval.Finset.Nat
import Mathlib.Data.List.Perm.Basic
import Mathlib.Tactic.Common

namespace MAlloc.Lib

/-- A contiguous range of bytes. -/
structure Span where
  data : Nat
  size : Nat
  deriving DecidableEq, Repr

namespace Span

/-- `x` is an address of the span. -/
def Has (s : Span) (x : Nat) : Prop := s.data ≤ x ∧ x < s.data + s.size

/-- One span ends before the other starts. -/
def Disjoint (s t : Span) : Prop := s.data + s.size ≤ t.data ∨ t.data + t.size ≤ s.data

/-- Every address of `s` is one of `t`. -/
def Inside (s t : Span) : Prop := t.data ≤ s.data ∧ s.data + s.size ≤ t.data + t.size

instance (s : Span) (x : Nat) : Decidable (s.Has x) := inferInstanceAs (Decidable (_ ∧ _))

instance (s t : Span) : Decidable (s.Disjoint t) := inferInstanceAs (Decidable (_ ∨ _))

instance (s t : Span) : Decidable (s.Inside t) := inferInstanceAs (Decidable (_ ∧ _))

theorem Disjoint.symm {s t : Span} (h : s.Disjoint t) : t.Disjoint s := Or.symm h

instance : Std.Symm Disjoint := ⟨fun _ _ => Disjoint.symm⟩

theorem Disjoint.not_has {s t : Span} (h : s.Disjoint t) {x : Nat} (hs : s.Has x) : ¬ t.Has x := by
  unfold Disjoint Has at *
  omega

theorem Inside.has {s t : Span} (h : s.Inside t) {x : Nat} (hx : s.Has x) : t.Has x := by
  unfold Inside Has at *
  omega

theorem Inside.trans {s t u : Span} (h : s.Inside t) (h' : t.Inside u) : s.Inside u := by
  unfold Inside at *
  omega

theorem Inside.disjoint {s s' t t' : Span} (h : s.Inside t) (h' : s'.Inside t')
    (hd : t.Disjoint t') : s.Disjoint s' := by
  unfold Inside Disjoint at *
  omega

/-- Two members of a list kept apart are equal or disjoint. -/
theorem eq_or_disjoint_of_pairwise {l : List Span} (h : l.Pairwise Disjoint) {s t : Span}
    (hs : s ∈ l) (ht : t ∈ l) : s = t ∨ s.Disjoint t := by
  by_cases e : s = t
  · exact Or.inl e
  · exact Or.inr (h.forall hs ht e)

/-- Spans of one list kept apart that share an address are the same span. -/
theorem eq_of_has {l : List Span} (h : l.Pairwise Disjoint) {s t : Span} (hs : s ∈ l)
    (ht : t ∈ l) {x : Nat} (hx : s.Has x) (hx' : t.Has x) : s = t := by
  rcases eq_or_disjoint_of_pairwise h hs ht with e | hd
  · exact e
  · exact absurd hx' (hd.not_has hx)

theorem pairwise_disjoint_perm {l l' : List Span} (hp : l.Perm l') (h : l.Pairwise Disjoint) :
    l'.Pairwise Disjoint :=
  (hp.pairwise_iff fun {_ _} => Disjoint.symm).mp h

/-- Spans kept apart and not empty are pairwise different. -/
theorem nodup_of_pairwise {l : List Span} (h : l.Pairwise Disjoint) (hpos : ∀ s ∈ l, 0 < s.size) :
    l.Nodup := by
  refine List.Pairwise.imp_of_mem (fun {s t} hs _ hd e => ?_) h
  subst e
  have := hpos s hs
  unfold Disjoint at hd
  omega

section Lookup
variable {l S T : List Span} {s : Span}

theorem not_mem_left_of_pairwise (hl : l = S ++ s :: T) (h : l.Pairwise Disjoint)
    (hpos : ∀ t ∈ l, 0 < t.size) : ∀ t ∈ S, t.data ≠ s.data := by
  subst hl
  intro t ht e
  have hd := (List.pairwise_append.mp h).2.2 t ht s List.mem_cons_self
  have h1 := hpos t (by simp [ht])
  have h2 := hpos s (by simp)
  unfold Disjoint at hd
  omega

/-- In a list kept apart a span is found by its address. -/
theorem find?_data_of_pairwise (hl : l = S ++ s :: T) (h : l.Pairwise Disjoint)
    (hpos : ∀ t ∈ l, 0 < t.size) : l.find? (fun t => decide (t.data = s.data)) = some s := by
  have hS := not_mem_left_of_pairwise hl h hpos
  rw [hl, List.find?_append, List.find?_eq_none.mpr (by simpa using hS)]
  simp

theorem erase_of_pairwise (hl : l = S ++ s :: T) (h : l.Pairwise Disjoint)
    (hpos : ∀ t ∈ l, 0 < t.size) : l.erase s = S ++ T := by
  have hS : s ∉ S := fun hs => not_mem_left_of_pairwise hl h hpos s hs rfl
  rw [hl, List.erase_append_right _ hS, List.erase_cons_head]

end Lookup

/-- The addresses of a list of spans. -/
def cells (l : List Span) : Finset Nat :=
  l.foldr (fun s acc => Finset.Ico s.data (s.data + s.size) ∪ acc) ∅

theorem mem_cells {l : List Span} {x : Nat} : x ∈ cells l ↔ ∃ s ∈ l, s.Has x := by
  induction l with
  | nil => simp [cells]
  | cons s l ih =>
    change x ∈ Finset.Ico s.data (s.data + s.size) ∪ cells l ↔ _
    rw [Finset.mem_union, Finset.mem_Ico, ih, List.exists_mem_cons_iff]
    rfl

theorem card_cells {l : List Span} (h : l.Pairwise Disjoint) :
    (cells l).card = (l.map Span.size).sum := by
  induction l with
  | nil => rfl
  | cons s l ih =>
    obtain ⟨hs, hl⟩ := List.pairwise_cons.mp h
    have hd : ∀ ⦃x⦄, x ∈ Finset.Ico s.data (s.data + s.size) → x ∉ cells l := by
      intro x hx hx'
      obtain ⟨t, ht, hxt⟩ := mem_cells.mp hx'
      exact (hs t ht).not_has (Finset.mem_Ico.mp hx) hxt
    change (Finset.Ico s.data (s.data + s.size) ∪ cells l).card = _
    rw [Finset.card_union_of_disjoint (Finset.disjoint_left.mpr hd), Nat.card_Ico, ih hl, List.map_cons, List.sum_cons]
    omega

/-- Spans kept apart below `N` hold at most `N` bytes. -/
theorem sum_size_le {l : List Span} {N : Nat} (h : l.Pairwise Disjoint)
    (hN : ∀ s ∈ l, s.data + s.size ≤ N) : (l.map Span.size).sum ≤ N := by
  rw [← card_cells h, ← Finset.card_range N]
  apply Finset.card_le_card
  intro x hx
  obtain ⟨s, hs, hxs⟩ := mem_cells.mp hx
  have := hN s hs
  unfold Has at hxs
  exact Finset.mem_range.mpr (by omega)

end Span

end MAlloc.Lib
