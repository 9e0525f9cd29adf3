/-
  Things kept in places, each in exactly one.

  `Parts all parts`: the lists `parts p`, over all places `p`, hold every element of `all`
  exactly once between them and nothing else. There may be infinitely many places. The two
  rules are `Parts.move` (elements go from one place to another) and `Parts.add` (new elements
  arrive at a place); an operation that does both is one rule after the other.
-/
import Mathlib.Data.List.Perm.Basic
import Mathlib.Data.List.Nodup
import Mathlib.Tactic.Common

namespace MAlloc.Lib

structure Parts {α P : Type} (all : List α) (parts : P → List α) : Prop where
  nodup : all.Nodup
  once : ∀ p, (parts p).Nodup
  apart : ∀ p q b, b ∈ parts p → b ∈ parts q → p = q
  cover : ∀ b, b ∈ all ↔ ∃ p, b ∈ parts p

section Parts
variable {α P : Type} {all : List α} {parts parts' : P → List α}

/-- The order inside a place does not matter. -/
theorem Parts.congr (h : Parts all parts) (hp : ∀ p, (parts' p).Perm (parts p)) :
    Parts all parts' where
  nodup := h.nodup
  once p := (hp p).nodup_iff.mpr (h.once p)
  apart p q b hb hb' := h.apart p q b ((hp p).mem_iff.mp hb) ((hp q).mem_iff.mp hb')
  cover b := by
    rw [h.cover b]
    exact exists_congr fun p => (hp p).mem_iff.symm

/-- The elements `bs` go from `p` to `q`. -/
theorem Parts.move (h : Parts all parts) {p q : P} (hpq : p ≠ q) {bs : List α}
    (hp : (parts p).Perm (bs ++ parts' p)) (hq : (parts' q).Perm (bs ++ parts q))
    (ho : ∀ r, r ≠ p → r ≠ q → parts' r = parts r) : Parts all parts' := by
  have hnp : (bs ++ parts' p).Nodup := hp.nodup_iff.mp (h.once p)
  obtain ⟨hbs, hp', hdis⟩ := List.nodup_append'.mp hnp
  have hbp : ∀ b ∈ bs, b ∈ parts p := fun b hb => hp.mem_iff.mpr (List.mem_append_left _ hb)
  -- an element is in the same place as before, or it is one of `bs`, now at `q`
  have hplace : ∀ r b, b ∈ parts' r ↔ (b ∈ bs ∧ r = q) ∨ (b ∉ bs ∧ b ∈ parts r) := by
    intro r b
    by_cases hrq : r = q
    · subst hrq
      have hn : b ∈ parts r → b ∉ bs := fun hb hb' => hpq (h.apart p r b (hbp b hb') hb)
      rw [hq.mem_iff, List.mem_append]
      tauto
    · by_cases hrp : r = p
      · subst hrp
        have hn : b ∈ parts' r → b ∉ bs := fun hb hb' => hdis hb' hb
        rw [hp.mem_iff, List.mem_append]
        tauto
      · have hn : b ∈ parts r → b ∉ bs := fun hb hb' => hrp (h.apart r p b hb (hbp b hb'))
        rw [ho r hrp hrq]
        tauto
  refine ⟨h.nodup, fun r => ?_, fun r r' b hb hb' => ?_, fun b => ?_⟩
  · by_cases hrq : r = q
    · subst hrq
      refine hq.nodup_iff.mpr (List.nodup_append'.mpr ⟨hbs, h.once r, fun b hb hb' => ?_⟩)
      exact hpq (h.apart p r b (hbp b hb) hb')
    · by_cases hrp : r = p
      · rw [hrp]
        exact hp'
      · rw [ho r hrp hrq]
        exact h.once r
  · rcases (hplace r b).mp hb with ⟨h1, h2⟩ | ⟨h1, h2⟩ <;>
      rcases (hplace r' b).mp hb' with ⟨h3, h4⟩ | ⟨h3, h4⟩
    · rw [h2, h4]
    · exact absurd h1 h3
    · exact absurd h3 h1
    · exact h.apart r r' b h2 h4
  · rw [h.cover b]
    constructor
    · rintro ⟨r, hr⟩
      by_cases hb : b ∈ bs
      · exact ⟨q, (hplace q b).mpr (Or.inl ⟨hb, rfl⟩)⟩
      · exact ⟨r, (hplace r b).mpr (Or.inr ⟨hb, hr⟩)⟩
    · rintro ⟨r, hr⟩
      rcases (hplace r b).mp hr with ⟨h1, -⟩ | ⟨-, h2⟩
      · exact ⟨p, hbp b h1⟩
      · exact ⟨r, h2⟩

/-- New elements `bs` arrive at `q`. -/
theorem Parts.add (h : Parts all parts) {q : P} {bs : List α} (hbs : bs.Nodup)
    (hnew : ∀ b ∈ bs, b ∉ all) (hq : (parts' q).Perm (bs ++ parts q))
    (ho : ∀ r, r ≠ q → parts' r = parts r) : Parts (all ++ bs) parts' := by
  have hold : ∀ r b, b ∈ parts r → b ∉ bs := fun r b hb hb' =>
    hnew b hb' ((h.cover b).mpr ⟨r, hb⟩)
  have hplace : ∀ r b, b ∈ parts' r ↔ (b ∈ bs ∧ r = q) ∨ b ∈ parts r := by
    intro r b
    by_cases hrq : r = q
    · subst hrq
      rw [hq.mem_iff, List.mem_append]
      tauto
    · rw [ho r hrq]
      tauto
  refine ⟨?_, fun r => ?_, fun r r' b hb hb' => ?_, fun b => ?_⟩
  · exact List.nodup_append'.mpr ⟨h.nodup, hbs, fun b hb hb' => hnew b hb' hb⟩
  · by_cases hrq : r = q
    · subst hrq
      exact hq.nodup_iff.mpr (List.nodup_append'.mpr ⟨hbs, h.once r, fun b hb hb' =>
        hold r b hb' hb⟩)
    · rw [ho r hrq]
      exact h.once r
  · rcases (hplace r b).mp hb with ⟨h1, h2⟩ | h2 <;> rcases (hplace r' b).mp hb' with ⟨h3, h4⟩ | h4
    · rw [h2, h4]
    · exact absurd h1 (hold r' b h4)
    · exact absurd h3 (hold r b h2)
    · exact h.apart r r' b h2 h4
  · rw [List.mem_append, h.cover b]
    constructor
    · rintro (⟨r, hr⟩ | hb)
      · exact ⟨r, (hplace r b).mpr (Or.inr hr)⟩
      · exact ⟨q, (hplace q b).mpr (Or.inl ⟨hb, rfl⟩)⟩
    · rintro ⟨r, hr⟩
      rcases (hplace r b).mp hr with ⟨h1, -⟩ | h2
      · exact Or.inr h1
      · exact Or.inl ⟨r, h2⟩

end Parts

end MAlloc.Lib
