/-
  A deterministic system refines a relation.

  `Path R a ops b` says that the operations `ops` lead from `a` to `b`, each by `R`. A system whose
  steps are read as operations (`operations`) refines `R` when each step of it is a step of `R`
  between the abstractions: then each run is a path (`path_of_run`), and what holds along paths
  (`path_invariant`, `path_inStep`, `path_log`) holds of the system.
-/
import MAlloc.Lib.Run

namespace MAlloc.Lib

inductive Path {τ δ : Type} (R : δ → τ → τ → Prop) : τ → List δ → τ → Prop
  | nil (a : τ) : Path R a [] a
  | cons {a b c : τ} {op : δ} {ops : List δ} : R op a b → Path R b ops c → Path R a (op :: ops) c

section Refine
variable {σ ε τ δ : Type} {step : σ → ε → Option σ} {R : δ → τ → τ → Prop}

/-- What every operation preserves, a path preserves. -/
theorem path_invariant {P : τ → Prop} (hR : ∀ op a b, P a → R op a b → P b) {a b : τ} {ops : List δ}
    (h0 : P a) (hp : Path R a ops b) : P b := by
  induction hp with
  | nil => exact h0
  | cons hstep _ ih => exact ih (hR _ _ _ h0 hstep)

/-- Something else runs beside the path. -/
theorem path_inStep {κ : Type} {next : κ → δ → Option κ} {P : τ → Prop} {J : κ → τ → Prop}
    (hR : ∀ op a b, P a → R op a b → P b)
    (hJ : ∀ op a b k k', P a → R op a b → J k a → next k op = some k' → J k' b) {a b : τ} {ops : List δ}
    {k k' : κ} (h0 : P a) (hk : J k a) (hp : Path R a ops b) (hrun : runFrom next k ops = some k') : J k' b := by
  induction hp generalizing k with
  | nil =>
    cases hrun
    exact hk
  | cons hstep _ ih =>
    obtain ⟨t, ht, h⟩ := run_cons.mp hrun
    exact ih (hR _ _ _ h0 hstep) (hJ _ _ _ _ _ h0 hstep hk ht) h

/-- A log that grows by what each operation says holds all that was said, in order. -/
theorem path_log {γ : Type} {log : τ → List γ} {said : δ → List γ}
    (hR : ∀ op a b, R op a b → log b = log a ++ said op) {a b : τ} {ops : List δ} (hp : Path R a ops b) :
    log b = log a ++ ops.flatMap said := by
  induction hp with
  | nil => exact (List.append_nil _).symm
  | cons hstep _ ih => rw [ih, hR _ _ _ hstep, List.flatMap_cons, List.append_assoc]

variable (step) in
/-- The operations a run is read as. -/
def operations (label : σ → ε → δ) : σ → List ε → List δ
  | _, [] => []
  | s, e :: es => label s e ::
    match step s e with
    | none => []
    | some s' => operations label s' es

/-- **A run is a path between the abstractions.** -/
theorem path_of_run {label : σ → ε → δ} {abs : σ → τ} {P : σ → Prop}
    (hstep : ∀ s e s', P s → step s e = some s' → P s' ∧ R (label s e) (abs s) (abs s')) {s s' : σ} {es : List ε}
    (h0 : P s) (hrun : runFrom step s es = some s') :
    Path R (abs s) (operations step label s es) (abs s') := by
  induction es generalizing s with
  | nil =>
    cases hrun
    exact Path.nil _
  | cons e es ih =>
    obtain ⟨t, ht, h⟩ := run_cons.mp hrun
    obtain ⟨hP, hR⟩ := hstep s e t h0 ht
    unfold operations
    rw [ht]
    exact Path.cons hR (ih hP h)

end Refine

end MAlloc.Lib
