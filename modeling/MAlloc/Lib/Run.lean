/-
  Runs of a deterministic step function.

  `step s e = some s'` when event `e` is enabled at `s`. `runFrom step s es` takes the
  events in order and fails at the first one that is not enabled. The rules are
  `run_invariant` (what one step preserves, a run preserves), `run_invariant_of` (for the steps of
  one kind), `run_append` / `run_snoc` (a run may be cut at any event) and `run_inStep` (two systems in
  step).
  `Throughout step P s es` says that `P` holds all along a run, and `run_throughout` is its rule;
  `Along step C s es` says that every step of a run meets `C`, and `run_along` is its rule.
-/
import Mathlib.Tactic.Common

namespace MAlloc.Lib

section Run
variable {σ ε : Type} (step : σ → ε → Option σ)

/-- Take the events `es` in order from `s`. -/
def runFrom : σ → List ε → Option σ
  | s, [] => some s
  | s, e :: es => (step s e).bind fun s' => runFrom s' es

variable {step}

theorem run_cons {s s' : σ} {e : ε} {es : List ε} :
    runFrom step s (e :: es) = some s' ↔ ∃ t, step s e = some t ∧ runFrom step t es = some s' := by
  simp [runFrom, Option.bind_eq_some_iff]

theorem run_append {s s' : σ} {es fs : List ε} :
    runFrom step s (es ++ fs) = some s' ↔
      ∃ t, runFrom step s es = some t ∧ runFrom step t fs = some s' := by
  induction es generalizing s with
  | nil => simp [runFrom]
  | cons e es ih =>
    rw [List.cons_append, run_cons]
    constructor
    · rintro ⟨t, ht, h⟩
      obtain ⟨u, hu, h'⟩ := ih.mp h
      exact ⟨u, run_cons.mpr ⟨t, ht, hu⟩, h'⟩
    · rintro ⟨u, hu, h'⟩
      obtain ⟨t, ht, h⟩ := run_cons.mp hu
      exact ⟨t, ht, ih.mpr ⟨u, h, h'⟩⟩

theorem run_snoc {s s' : σ} {es : List ε} {e : ε} :
    runFrom step s (es ++ [e]) = some s' ↔
      ∃ t, runFrom step s es = some t ∧ step t e = some s' := by
  rw [run_append]
  simp [runFrom]

/-- What holds at the start and is preserved by each step of a kind holds after every run of
    such steps. -/
theorem run_invariant_of {P : σ → Prop} {E : ε → Prop}
    (hstep : ∀ s e s', E e → P s → step s e = some s' → P s') {s s' : σ} {es : List ε}
    (hE : ∀ e ∈ es, E e) (h0 : P s) (hrun : runFrom step s es = some s') : P s' := by
  induction es generalizing s with
  | nil =>
    cases hrun
    exact h0
  | cons e es ih =>
    obtain ⟨t, ht, h⟩ := run_cons.mp hrun
    have ht' : P t := hstep s e t (hE e List.mem_cons_self) h0 ht
    exact ih (fun e he => hE e (List.mem_cons_of_mem _ he)) ht' h

/-- What holds at the start and is preserved by each step holds after every run. -/
theorem run_invariant {P : σ → Prop} (hstep : ∀ s e s', P s → step s e = some s' → P s')
    {s s' : σ} {es : List ε} (h0 : P s) (hrun : runFrom step s es = some s') : P s' :=
  run_invariant_of (E := fun _ => True) (fun s e s' _ => hstep s e s') (fun _ _ => trivial) h0 hrun

/-- Two systems in step: what matches the steps of one with steps of the other matches the runs. -/
theorem run_inStep {τ : Type} {step' : τ → ε → Option τ} {R : σ → τ → Prop}
    (hstep : ∀ s t e s', R s t → step s e = some s' → ∃ t', step' t e = some t' ∧ R s' t') {s s' : σ} {t : τ}
    {es : List ε} (h0 : R s t) (hrun : runFrom step s es = some s') :
    ∃ t', runFrom step' t es = some t' ∧ R s' t' := by
  induction es generalizing s t with
  | nil =>
    cases hrun
    exact ⟨t, rfl, h0⟩
  | cons e es ih =>
    obtain ⟨u, hu, h⟩ := run_cons.mp hrun
    obtain ⟨v, hv, huv⟩ := hstep s t e u h0 hu
    obtain ⟨t', ht', hend⟩ := ih huv h
    exact ⟨t', run_cons.mpr ⟨v, hv, ht'⟩, hend⟩

variable (step) in
/-- `P` holds in every state of the run of `es` from `s`. -/
def Throughout (P : σ → Prop) : σ → List ε → Prop
  | s, [] => P s
  | s, e :: es => P s ∧ ∀ s', step s e = some s' → Throughout P s' es

theorem Throughout.head {P : σ → Prop} {s : σ} {es : List ε} (h : Throughout step P s es) : P s := by
  cases es with
  | nil => exact h
  | cons e es => exact h.1

/-- What a step preserves while `P` holds before and after it, a run through `P` preserves. -/
theorem run_throughout {P J : σ → Prop}
    (hstep : ∀ s e s', P s → P s' → J s → step s e = some s' → J s') {s s' : σ} {es : List ε}
    (hP : Throughout step P s es) (h0 : J s) (hrun : runFrom step s es = some s') : J s' := by
  induction es generalizing s with
  | nil =>
    cases hrun
    exact h0
  | cons e es ih =>
    obtain ⟨t, ht, h⟩ := run_cons.mp hrun
    have hPt := hP.2 t ht
    exact ih hPt (hstep s e t hP.1 hPt.head h0 ht) h

variable (step) in
/-- Every step of the run of `es` from `s` meets `C`. -/
def Along (C : σ → ε → Prop) : σ → List ε → Prop
  | _, [] => True
  | s, e :: es => C s e ∧
    match step s e with
    | none => True
    | some s' => Along C s' es

instance decidableAlong {C : σ → ε → Prop} [∀ s e, Decidable (C s e)] :
    (s : σ) → (es : List ε) → Decidable (Along step C s es)
  | _, [] => isTrue trivial
  | s, e :: es =>
    have : Decidable (match step s e with
        | none => True
        | some s' => Along step C s' es) :=
      match step s e with
      | none => isTrue trivial
      | some s' => decidableAlong s' es
    inferInstanceAs (Decidable (_ ∧ _))

/-- What a step that meets `C` preserves, a run of such steps preserves. -/
theorem run_along {C : σ → ε → Prop} {P : σ → Prop}
    (hstep : ∀ s e s', C s e → P s → step s e = some s' → P s') {s s' : σ} {es : List ε}
    (hC : Along step C s es) (h0 : P s) (hrun : runFrom step s es = some s') : P s' := by
  induction es generalizing s with
  | nil =>
    cases hrun
    exact h0
  | cons e es ih =>
    obtain ⟨t, ht, h⟩ := run_cons.mp hrun
    obtain ⟨hc, hrest⟩ := hC
    rw [ht] at hrest
    exact ih hrest (hstep s e t hc h0 ht) h

end Run

end MAlloc.Lib
