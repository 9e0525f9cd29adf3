/-
  Memory in cells of 16 bytes.

  The cell at a multiple `h` of 16 has a lower word at `h` and an upper word at `h + 8`. A change of
  memory is tame at `h` when the upper word is kept, or has its last four bits zero afterwards.
  Tame changes compose (`TameAt.trans`). A store to a lower word is tame, and so is a store of a
  multiple of 16 to an upper word.
-/
import MAlloc.Lib.Bytes

namespace MAlloc.Lib

def TameAt (m m' : Mem) (h : Nat) : Prop := SameOn m m' (h + 8) 8 ∨ (m' (h + 8)).toNat % 16 = 0

/-- The change is tame at every cell. -/
def Tame (m m' : Mem) : Prop := ∀ h, h % 16 = 0 → TameAt m m' h

section Tame
variable {m m' m'' : Mem} {a n v h : Nat}

theorem TameAt.trans (h1 : TameAt m m' h) (h2 : TameAt m' m'' h) : TameAt m m'' h := by
  rcases h2 with h2 | h2
  · rcases h1 with h1 | h1
    · exact Or.inl (h1.trans h2)
    · rw [← h2 (h + 8) (Nat.le_refl _) (by omega)] at h1
      exact Or.inr h1
  · exact Or.inr h2

theorem TameAt.of_same (hs : SameOn m m' h 16) : TameAt m m' h :=
  Or.inl (hs.mono (by omega) (by omega))

theorem Tame.refl (m : Mem) : Tame m m := fun _ _ => Or.inl (SameOn.refl _ _ _)

theorem Tame.trans (h1 : Tame m m') (h2 : Tame m' m'') : Tame m m'' := fun h hh =>
  (h1 h hh).trans (h2 h hh)

theorem tame_lower (ha : a % 16 = 0) : Tame m (writeLE m a 8 v) := fun _ _ =>
  Or.inl (sameOn_writeLE (by omega))

theorem tame_upper (ha : a % 16 = 0) (hv : v % 16 = 0) : Tame m (writeLE m (a + 8) 8 v) := by
  intro h hh
  by_cases he : h = a
  · subst he
    right
    unfold writeLE
    rw [if_pos (by omega), Nat.sub_self, pow_zero, Nat.div_one, UInt8.toNat_ofNat']
    omega
  · exact Or.inl (sameOn_writeLE (by omega))

/-- Zeroes over whole cells. -/
theorem tame_fill (ha : a % 16 = 0) (hn : n % 16 = 0) : Tame m (fill m a n 0) := by
  intro h hh
  by_cases he : a ≤ h ∧ h < a + n
  · right
    rw [fill_of_mem (by omega)]
    rfl
  · exact Or.inl (sameOn_fill (by omega))

end Tame

end MAlloc.Lib
