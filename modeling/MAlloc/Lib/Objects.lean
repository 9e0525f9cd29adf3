/-
  What a heap is for.

  `Objects` are spans of addresses, kept apart, and the values that stand there. The operations say
  nothing of how the spans are found: an object appears where nothing else is, disappears, moves to
  another place with what fits, or takes a value at one of its addresses; the others stay as they
  are. What stands between the objects is nobody's.

  An object can be followed through a path (`Tracked`): wherever it moves, it holds what was
  stored in it last (`Tracked.path`).
-/
import MAlloc.Lib.Refine
import MAlloc.Lib.Span
import Mathlib.Data.Set.Insert

namespace MAlloc.Lib

structure Objects (V : Type) where
  live : Set Span
  value : Nat → V

inductive HeapOp (V : Type) where
  | alloc (base size align : Nat)
  | free (base : Nat)
  | resize (base fresh size align : Nat)
  | store (x : Nat) (v : V)
  | idle

namespace Objects

/-- The spans `l` hold the same in `a` and `b`. -/
def Kept {V : Type} (a b : Objects V) (l : Set Span) : Prop :=
  ∀ o ∈ l, ∀ x, o.Has x → b.value x = a.value x

/-- A place for a new object of `size` values. -/
structure Place (l : Set Span) (base size align : Nat) : Prop where
  base_pos : 0 < base
  size_pos : 0 < size
  aligned : base % align = 0
  apart : ∀ o ∈ l, Span.Disjoint ⟨base, size⟩ o

/-- Objects take room, and are kept apart. -/
structure Ok {V : Type} (a : Objects V) : Prop where
  pos : ∀ o ∈ a.live, 0 < o.size
  apart : ∀ o ∈ a.live, ∀ u ∈ a.live, o ≠ u → o.Disjoint u

end Objects

/-- What an operation may do. -/
def HeapOp.Step {V : Type} : HeapOp V → Objects V → Objects V → Prop
  | .alloc base size align, a, b => Objects.Place a.live base size align ∧
      b.live = insert ⟨base, size⟩ a.live ∧ a.Kept b a.live
  | .free base, a, b => ∃ n, ⟨base, n⟩ ∈ a.live ∧ b.live = a.live \ {⟨base, n⟩} ∧ a.Kept b b.live
  | .resize base fresh size align, a, b => ∃ n, ⟨base, n⟩ ∈ a.live ∧
      Objects.Place (a.live \ {⟨base, n⟩}) fresh size align ∧
      b.live = insert ⟨fresh, size⟩ (a.live \ {⟨base, n⟩}) ∧ a.Kept b (a.live \ {⟨base, n⟩}) ∧
      ∀ i < min n size, b.value (fresh + i) = a.value (base + i)
  | .store x v, a, b => (∃ o ∈ a.live, o.Has x) ∧ b.live = a.live ∧
      ∀ o ∈ a.live, ∀ y, o.Has y → b.value y = if y = x then v else a.value y
  | .idle, a, b => b.live = a.live ∧ a.Kept b a.live

section Steps
variable {V : Type} {a b : Objects V} {op : HeapOp V} {l : Set Span} {base size align n : Nat}

theorem Objects.Ok.subset (h : a.Ok) (hl : b.live ⊆ a.live) : b.Ok :=
  ⟨fun o ho => h.pos o (hl ho), fun o ho u hu => h.apart o (hl ho) u (hl hu)⟩

/-- A new object at a place of its own. -/
theorem Objects.Ok.insert (h : a.Ok) (hl : l ⊆ a.live) (hp : Objects.Place l base size align)
    (hb : b.live = insert ⟨base, size⟩ l) : b.Ok := by
  constructor
  · rw [hb]
    rintro o (rfl | ho)
    · exact hp.size_pos
    · exact h.pos o (hl ho)
  · rw [hb]
    rintro o (rfl | ho) u (rfl | hu) hne
    · exact absurd rfl hne
    · exact hp.apart u hu
    · exact (hp.apart o ho).symm
    · exact h.apart o (hl ho) u (hl hu) hne

/-- Objects with one base are one. -/
theorem Objects.Ok.base_inj (h : a.Ok) {m : Nat} (hn : ⟨base, n⟩ ∈ a.live) (hm : ⟨base, m⟩ ∈ a.live) :
    m = n := by
  by_contra hne
  have hap := h.apart _ hn _ hm fun he => hne (by cases he; rfl)
  have h1 := h.pos _ hn
  have h2 := h.pos _ hm
  unfold Span.Disjoint at hap
  simp only at hap h1 h2
  omega

/-- **Operations keep objects apart.** -/
theorem HeapOp.Step.ok (hs : op.Step a b) (h : a.Ok) : b.Ok := by
  cases op with
  | alloc base size align =>
    obtain ⟨hp, hb, -⟩ := hs
    exact h.insert (fun _ ho => ho) hp hb
  | free base =>
    obtain ⟨n, -, hb, -⟩ := hs
    refine h.subset ?_
    rw [hb]
    exact Set.sdiff_subset
  | resize base fresh size align =>
    obtain ⟨n, -, hp, hb, -⟩ := hs
    exact h.insert Set.sdiff_subset hp hb
  | store x v =>
    obtain ⟨-, hb, -⟩ := hs
    exact h.subset hb.subset
  | idle => exact h.subset hs.1.subset

end Steps

/-! ## Following an object -/

/-- The first `kept` values of the object at `base`. -/
structure Tracked (V : Type) where
  base : Nat
  kept : Nat
  value : Nat → V

namespace Tracked
variable {V : Type} {a b : Objects V} {op : HeapOp V} {ops : List (HeapOp V)} {k k' : Tracked V} {n : Nat}

/-- Where the object is after an operation, and what was stored in it; nowhere when it is freed. -/
def next (k : Tracked V) : HeapOp V → Option (Tracked V)
  | .free base => if base = k.base then none else some k
  | .resize base fresh size _ => if base = k.base then some ⟨fresh, min k.kept size, k.value⟩ else some k
  | .store x v =>
    if k.base ≤ x ∧ x < k.base + k.kept then
      some { k with value := Function.update k.value (x - k.base) v }
    else some k
  | _ => some k

/-- The object is there, with these values. -/
def In (k : Tracked V) (a : Objects V) : Prop :=
  ∃ n, ⟨k.base, n⟩ ∈ a.live ∧ k.kept ≤ n ∧ ∀ i < k.kept, a.value (k.base + i) = k.value i

/-- It stays where it is. -/
theorem stay {l : Set Span} (hk : k.In a) (hl : ∀ n, ⟨k.base, n⟩ ∈ a.live → ⟨k.base, n⟩ ∈ l)
    (hb : l ⊆ b.live) (hkept : a.Kept b l) : k.In b := by
  obtain ⟨n, hn, hle, hv⟩ := hk
  refine ⟨n, hb (hl n hn), hle, fun i hi => (hkept _ (hl n hn) _ ?_).trans (hv i hi)⟩
  unfold Span.Has
  simp only
  omega

/-- **One operation.** -/
theorem step (h : a.Ok) (hs : op.Step a b) (hk : k.In a) (hn : k.next op = some k') : k'.In b := by
  have hother : ∀ {base m}, base ≠ k.base → ∀ n, (⟨k.base, n⟩ : Span) ∈ a.live →
      (⟨k.base, n⟩ : Span) ∈ a.live \ {⟨base, m⟩} := by
    intro base m hne n hin
    refine ⟨hin, fun he => hne ?_⟩
    exact (congrArg Span.data he).symm
  cases op with
  | alloc base size align =>
    obtain ⟨-, hb, hkept⟩ := hs
    obtain rfl := Option.some.inj hn
    refine stay hk (fun _ hin => hin) ?_ hkept
    rw [hb]
    exact Set.subset_insert _ _
  | free base =>
    obtain ⟨m, -, hb, hkept⟩ := hs
    unfold next at hn
    dsimp only at hn
    split at hn
    · cases hn
    case isFalse hne =>
      obtain rfl := Option.some.inj hn
      refine stay hk (hother (m := m) hne) ?_ ?_
      · rw [hb]
      · rw [← hb]
        exact hkept
  | resize base fresh size align =>
    obtain ⟨m, hm, -, hb, hkept, hcopied⟩ := hs
    unfold next at hn
    dsimp only at hn
    split at hn
    case isTrue he =>
      obtain rfl := Option.some.inj hn
      obtain ⟨n, hin, hle, hv⟩ := hk
      rw [he] at hm hcopied
      obtain rfl := h.base_inj hin hm
      refine ⟨size, ?_, Nat.min_le_right _ _, fun i hi => ?_⟩
      · rw [hb]
        exact Set.mem_insert _ _
      · simp only at hi ⊢
        rw [hcopied i (by omega)]
        exact hv i (by omega)
    case isFalse hne =>
      obtain rfl := Option.some.inj hn
      refine stay hk (hother (m := m) hne) ?_ hkept
      rw [hb]
      exact Set.subset_insert _ _
  | store x v =>
    obtain ⟨-, hb, hvalue⟩ := hs
    obtain ⟨n, hin, hle, hv⟩ := hk
    have hread : ∀ i < k.kept, b.value (k.base + i) = if k.base + i = x then v else k.value i := by
      intro i hi
      rw [hvalue _ hin (k.base + i) (by unfold Span.Has; simp only; omega), hv i hi]
    unfold next at hn
    dsimp only at hn
    split at hn
    case isTrue hx =>
      obtain rfl := Option.some.inj hn
      refine ⟨n, by rw [hb]; exact hin, hle, fun i hi => ?_⟩
      simp only at hi ⊢
      rw [hread i hi]
      by_cases hix : i = x - k.base
      · rw [hix, Function.update_self, if_pos (by omega)]
      · rw [Function.update_of_ne hix, if_neg (by omega)]
    case isFalse hx =>
      obtain rfl := Option.some.inj hn
      refine ⟨n, by rw [hb]; exact hin, hle, fun i hi => ?_⟩
      rw [hread i hi, if_neg (by omega)]
  | idle =>
    obtain rfl := Option.some.inj hn
    exact stay hk (fun _ hin => hin) hs.1.symm.subset hs.2

/-- **An object keeps what was stored in it** along any path, wherever it moves. -/
theorem path (h : a.Ok) (hk : k.In a) (hp : Path HeapOp.Step a ops b) (hrun : runFrom next k ops = some k') :
    k'.In b :=
  path_inStep (P := Objects.Ok) (fun _ _ _ ha hs => hs.ok ha) (fun _ _ _ _ _ ha hs hk hn => step ha hs hk hn)
    h hk hp hrun

end Tracked

end MAlloc.Lib
