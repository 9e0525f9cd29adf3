/-
  What the error handler hears.

  `complaint s call` is what the call must say: nothing when it succeeds; the error it returns and
  null when an allocation fails, also the one inside `reallocate`; the error and the pointer when the
  registry rejects a pointer. In every run the handler has heard the complaints of the calls, in order
  and nothing else, and the destructor counts the leaks right (`reports_of_run`).
-/
import MAlloc.Client.Refinement
import MAlloc.Model.Allocator

namespace MAlloc.Client

open Lib AllocatorImpl

/-- The pointer an error of `reallocate(ptr, _)` is about: null if `ptr` may be reallocated. -/
def ClientSys.blamed (s : ClientSys) (ptr : Nat) : Nat := if ptr ∈ s.pointers then 0 else ptr

/-- What a call says to the error handler. -/
def complaint (s : ClientSys) : ClientCall → List (Error × Nat)
  | .request t r =>
    match (r.run s.impl t).1 with
    | .ok _ => []
    | .error e => [(e, 0)]
  | .reallocate t ptr newSize =>
    match (s.impl.reallocate t ptr newSize).1 with
    | .ok _ => []
    | .error e => [(e, s.blamed ptr)]
  | .deallocate t ptr =>
    match (s.impl.deallocate t ptr).1 with
    | .ok () => []
    | .error e => [(e, ptr)]
  | .write _ _ => []
  | .exit _ => []

/-- What the handler may hear while clients keep to their own bytes: an allocation failed, or the
    registry rejected a pointer. -/
def Expected (cfg : AllocatorConfig) (r : Error × Nat) : Prop :=
  r.2 = 0 ∧ (r.1 = .SizeOverflow ∨ r.1 = .InvalidAlignment ∨ r.1 = .OutOfMemory) ∨
    r.2 ≠ 0 ∧ cfg.enableLeakTracking = true ∧ (r.1 = .InvalidPointer ∨ r.1 = .DoubleFree)

/-- A rejected pointer is not live, and a double free is said only of one that has been live before. -/
def Deserved (s : ClientSys) (r : Error × Nat) : Prop :=
  r.2 ≠ 0 → r.2 ∉ s.pointers ∧ (r.1 = .DoubleFree → r.2 ∈ s.returned)

/-- From `i` to `i'` the handler has heard `l`. -/
structure Heard (l : List (Error × Nat)) (i i' : AllocatorImpl) : Prop where
  reports : i'.reports = i.reports ++ l
  aborted : i'.aborted = (i.aborted || (i.config.abortOnError && !l.isEmpty))
  config : i'.config = i.config
  once : l.length ≤ 1
  expected : ∀ r ∈ l, Expected i.config r

section Steps
variable {s s' : ClientSys} {i i' : AllocatorImpl} {live : List Alloc} {p n : Nat} {e : Error}

theorem Heard.nothing (hr : i'.reports = i.reports) (ha : i'.aborted = i.aborted) (hc : i'.config = i.config) :
    Heard [] i i' := by
  refine ⟨?_, ?_, hc, Nat.zero_le _, fun r hr => absurd hr List.not_mem_nil⟩
  · rw [hr, List.append_nil]
  · rw [ha, List.isEmpty_nil, Bool.not_true, Bool.and_false, Bool.or_false]

theorem Heard.report (T' : Tiers) (h : Expected i.config (e, p)) :
    Heard [(e, p)] i ({ i with tiers := T' }.report e p) := by
  refine ⟨rfl, ?_, rfl, Nat.le_refl _, fun r hr => ?_⟩
  · change (i.aborted || i.config.abortOnError) = _
    rw [List.isEmpty_cons, Bool.not_false, Bool.and_true]
  · rw [List.mem_singleton.mp hr]
    exact h

theorem enroll_aborted (i : AllocatorImpl) (user n r : Nat) : (i.enroll user n r).aborted = i.aborted := by
  unfold AllocatorImpl.enroll
  dsimp only
  split <;> rfl

theorem discharge_aborted (i : AllocatorImpl) (p n r : Nat) : (i.discharge p n r).aborted = i.aborted := by
  unfold AllocatorImpl.discharge
  dsimp only
  split <;> rfl

theorem Heard.enroll (T' : Tiers) (user n r : Nat) : Heard [] i ({ i with tiers := T' }.enroll user n r) := by
  apply Heard.nothing
  · rw [enroll_reports]
  · rw [enroll_aborted]
  · rw [enroll_config]

theorem Heard.discharge (T' : Tiers) (p n r : Nat) : Heard [] i ({ i with tiers := T' }.discharge p n r) := by
  apply Heard.nothing
  · rw [discharge_reports]
  · rw [discharge_aborted]
  · rw [discharge_config]

/-- What the arguments alone lead to. -/
theorem expected_verdict {cfg : AllocatorConfig} {r : Request} (hv : r.verdict = some e) :
    Expected cfg (e, 0) := by
  refine Or.inl ⟨rfl, ?_⟩
  unfold Request.verdict at hv
  dsimp only
  split at hv
  · obtain ⟨-, hv⟩ := Option.ite_none_right_eq_some.mp hv
    exact Or.inl (Option.some.inj hv).symm
  · split at hv
    · exact Or.inr (Or.inl (Option.some.inj hv).symm)
    · obtain ⟨-, hv⟩ := Option.ite_none_right_eq_some.mp hv
      exact Or.inl (Option.some.inj hv).symm

theorem expected_refused {cfg : AllocatorConfig} : Expected cfg (.OutOfMemory, 0) :=
  Or.inl ⟨rfl, Or.inr (Or.inr rfl)⟩

/-- What the registry says of a pointer. -/
theorem expected_rejected {cfg : AllocatorConfig} (ht : cfg.enableLeakTracking = true) (hp : p ≠ 0)
    (freed : Bool) : Expected cfg (if freed then .DoubleFree else .InvalidPointer, p) := by
  refine Or.inr ⟨hp, ht, ?_⟩
  cases freed
  · exact Or.inl rfl
  · exact Or.inr rfl

/-- An outcome of a request that is an error. -/
theorem heard_error {t : Nat} {r : Request} (h : RequestOutcome i live t r (.error e, i')) :
    Heard [(e, 0)] i i' := by
  cases h with
  | rejected hv => exact Heard.report i.tiers (expected_verdict hv)
  | refused => exact Heard.report _ expected_refused

/-- **An allocation.** -/
theorem request_heard (h : Good s live) (t : Nat) (r : Request) :
    Heard (complaint s (.request t r)) s.impl (s.request t r).impl := by
  have hout := Request.run_spec h.memory t r
  unfold complaint ClientSys.request
  dsimp only
  generalize r.run s.impl t = q at *
  obtain ⟨res, i⟩ := q
  cases res with
  | error e => exact heard_error hout
  | ok ptr =>
    cases hout
    exact Heard.enroll _ _ _ _

/-- **A deallocation.** -/
theorem deallocate_heard (h : Good s live) (t : Nat) (hp : s.Allowed p) :
    Heard (complaint s (.deallocate t p)) s.impl (s.deallocate t p).impl := by
  unfold complaint ClientSys.deallocate
  dsimp only
  by_cases h0 : p = 0
  · have hq : s.impl.deallocate t p = (.ok (), s.impl) := by
      unfold AllocatorImpl.deallocate
      exact if_pos h0
    rw [hq]
    dsimp only
    rw [if_pos h0]
    exact Heard.nothing rfl rfl rfl
  rcases allowed_cases hp h0 with ⟨e, he, rfl⟩ | ⟨ht, hin⟩
  · obtain ⟨a, ha, hptr, -⟩ := h.alloc_eq he
    obtain ⟨T', hq, -⟩ := deallocate_spec h.memory ha (h.passes ha) (h.guards a ha) t
    rw [hptr] at hq
    rw [hq]
    dsimp only
    rw [if_neg h0]
    exact Heard.discharge _ _ _ _
  · rw [deallocate_rejected h.toSound ht t h0 hin]
    exact Heard.report s.impl.tiers (expected_rejected ht h0 _)

theorem blamed_zero (s : ClientSys) : s.blamed 0 = 0 := by
  unfold ClientSys.blamed
  split <;> rfl

theorem complaint_reallocate_null (s : ClientSys) (t n : Nat) :
    complaint s (.reallocate t 0 n) = complaint s (.request t (.allocate n)) := by
  unfold complaint AllocatorImpl.reallocate Request.run
  dsimp only
  rw [if_pos rfl, blamed_zero]
  generalize s.impl.allocate t n = q
  obtain ⟨res, i⟩ := q
  cases res <;> rfl

/-- A live pointer is freed without a word, so the error of `reallocate(p, 0)` is about `p`. -/
theorem complaint_reallocate_zero (h : Good s live) (t : Nat) (hp : s.Allowed p) (h0 : p ≠ 0) :
    complaint s (.reallocate t p 0) = complaint s (.deallocate t p) := by
  unfold complaint AllocatorImpl.reallocate
  dsimp only
  rw [if_neg h0, if_pos rfl]
  rcases allowed_cases hp h0 with ⟨e, he, rfl⟩ | ⟨ht, hin⟩
  · obtain ⟨a, ha, hptr, -⟩ := h.alloc_eq he
    obtain ⟨T', hq, -⟩ := deallocate_spec h.memory ha (h.passes ha) (h.guards a ha) t
    rw [hptr] at hq
    rw [hq]
  · have hb : s.blamed p = p := if_neg hin
    rw [hb]
    generalize s.impl.deallocate t p = q
    obtain ⟨res, i⟩ := q
    cases res <;> rfl

/-- **A reallocation.** -/
theorem reallocate_heard (h : Good s live) (t : Nat) (hp : s.Allowed p) (n : Nat) :
    Heard (complaint s (.reallocate t p n)) s.impl (s.reallocate t p n).impl := by
  by_cases h0 : p = 0
  · subst h0
    rw [reallocate_null, complaint_reallocate_null]
    exact request_heard h t _
  by_cases hn : n = 0
  · subst hn
    rw [reallocate_zero s t h0, complaint_reallocate_zero h t hp h0]
    exact deallocate_heard h t hp
  unfold complaint ClientSys.reallocate
  dsimp only
  rcases allowed_cases hp h0 with ⟨e, he, rfl⟩ | ⟨ht, hin⟩
  · obtain ⟨a, ha, hptr, -⟩ := h.alloc_eq he
    have hb : s.blamed e.ptr = 0 := if_pos (List.mem_map_of_mem he)
    rw [hb, ← hptr]
    have hg := h.guards a ha
    have hout := reallocate_spec h.memory ha (h.passes ha) (Or.inr hg) t (Nat.pos_of_ne_zero hn)
    generalize s.impl.reallocate t a.ptr n = q at *
    cases hout with
    | failed _ hreq => exact heard_error hreq
    | @moved T' T'' d hv heq hl hsize hres hk hrel hpoison hguard hnew =>
      -- the copy leaves the guards of the old block alone, so its free says nothing
      rw [checked_filled hl ha hk (by omega) hg]
      dsimp only
      rw [if_neg (by rw [hptr]; exact h0)]
      apply Heard.nothing
      · exact (discharge_reports _ _ _ _).trans (enroll_reports _ _ _ _)
      · exact (discharge_aborted _ _ _ _).trans (enroll_aborted _ _ _ _)
      · exact (discharge_config _ _ _ _).trans (enroll_config _ _ _ _)
  · have hb : s.blamed p = p := if_neg hin
    rw [hb, reallocate_unknown h ht hin h0 hn]
    exact Heard.report s.impl.tiers (expected_rejected ht h0 false)

/-- **Each step says its complaint**, and none is taken once the process has ended. -/
theorem step_heard (h : Good s live) {call : ClientCall} (hs : s.step call = some s') :
    s.impl.aborted = false ∧ Heard (complaint s call) s.impl s'.impl := by
  unfold ClientSys.step at hs
  split at hs
  · cases hs
  case isFalse hgo =>
    refine ⟨Bool.eq_false_of_not_eq_true hgo, ?_⟩
    cases call with
    | request t r =>
      cases hs
      exact request_heard h t r
    | reallocate t p n =>
      obtain ⟨hp, hs⟩ := Option.ite_none_right_eq_some.mp hs
      cases hs
      exact reallocate_heard h t hp n
    | deallocate t p =>
      obtain ⟨hp, hs⟩ := Option.ite_none_right_eq_some.mp hs
      cases hs
      exact deallocate_heard h t hp
    | write addr value =>
      obtain ⟨-, hs⟩ := Option.ite_none_right_eq_some.mp hs
      cases hs
      exact Heard.nothing rfl rfl rfl
    | exit t =>
      cases hs
      exact Heard.nothing rfl rfl rfl

theorem deallocate_deserved (h : Good s live) {t : Nat} (hp : s.Allowed p) {r : Error × Nat}
    (hr : r ∈ complaint s (.deallocate t p)) : Deserved s r := by
  intro h0
  unfold complaint at hr
  dsimp only at hr
  cases hd : (s.impl.deallocate t p).1 with
  | ok u =>
    rw [hd] at hr
    exact absurd hr List.not_mem_nil
  | error e =>
    rw [hd] at hr
    obtain rfl := List.mem_singleton.mp hr
    dsimp only at h0 ⊢
    rcases allowed_cases hp h0 with ⟨f, hf, rfl⟩ | ⟨ht, hin⟩
    · -- a live pointer is freed without a word
      obtain ⟨a, ha, hptr, -⟩ := h.alloc_eq hf
      obtain ⟨T', hq, -⟩ := deallocate_spec h.memory ha (h.passes ha) (h.guards a ha) t
      rw [← hptr, hq] at hd
      cases hd
    · refine ⟨hin, ?_⟩
      rintro rfl
      rw [h.deallocate_answer ht t h0, answer, if_neg hin] at hd
      by_contra hret
      rw [if_neg hret] at hd
      cases hd

/-- **No call complains of a live pointer.** -/
theorem complaint_deserved (h : Good s live) {call : ClientCall} (hs : s.step call = some s') :
    ∀ r ∈ complaint s call, Deserved s r := by
  intro r hr
  unfold ClientSys.step at hs
  split at hs
  · cases hs
  cases call with
  | request t q =>
    intro h0
    unfold complaint at hr
    dsimp only at hr
    split at hr
    · exact absurd hr List.not_mem_nil
    · exact absurd (congrArg Prod.snd (List.mem_singleton.mp hr)) h0
  | deallocate t p =>
    obtain ⟨hp, -⟩ := Option.ite_none_right_eq_some.mp hs
    exact deallocate_deserved h hp hr
  | reallocate t p n =>
    obtain ⟨hp, -⟩ := Option.ite_none_right_eq_some.mp hs
    intro h0
    have hblamed : r.2 = s.blamed p := by
      unfold complaint at hr
      dsimp only at hr
      split at hr
      · exact absurd hr List.not_mem_nil
      · exact congrArg Prod.snd (List.mem_singleton.mp hr)
    have hin : p ∉ s.pointers := fun hin => h0 (hblamed.trans (if_pos hin))
    have hp0 : p ≠ 0 := by
      rintro rfl
      exact h0 (hblamed.trans (blamed_zero s))
    by_cases hn : n = 0
    · rw [hn, complaint_reallocate_zero h t hp hp0] at hr
      exact deallocate_deserved h hp hr h0
    · have ht : s.impl.config.enableLeakTracking = true := (hp.resolve_left hp0).resolve_left hin
      have hb : s.blamed p = p := if_neg hin
      unfold complaint at hr
      dsimp only at hr
      rw [reallocate_unknown h ht hin hp0 hn, hb] at hr
      obtain rfl := List.mem_singleton.mp hr
      exact ⟨hin, nofun⟩
  | write addr value => exact absurd hr List.not_mem_nil
  | exit t => exact absurd hr List.not_mem_nil

end Steps

/-! ## Runs -/

/-- What holds of the handler in every state. -/
structure Told (cfg : AllocatorConfig) (i : AllocatorImpl) : Prop where
  config : i.config = cfg
  aborted : i.aborted = true ↔ cfg.abortOnError = true ∧ i.reports ≠ []
  last : cfg.abortOnError = true → i.reports.length ≤ 1
  expected : ∀ r ∈ i.reports, Expected cfg r

/-- What a step says, said of a process that is still running. -/
theorem Told.heard {cfg : AllocatorConfig} {i i' : AllocatorImpl} {l : List (Error × Nat)} (h : Told cfg i)
    (hgo : i.aborted = false) (hh : Heard l i i') : Told cfg i' := by
  obtain ⟨rfl, hab, hlast, hexp⟩ := h
  have hempty : i.config.abortOnError = true → i.reports = [] := by
    intro hon
    by_contra hne
    have hnow := hab.mpr ⟨hon, hne⟩
    rw [hgo] at hnow
    cases hnow
  refine ⟨hh.config, ?_, fun hon => ?_, fun r hr => ?_⟩
  · rw [hh.aborted, hh.reports, hgo, Bool.false_or, Bool.and_eq_true, Bool.not_eq_true',
      List.isEmpty_eq_false_iff]
    refine and_congr_right fun hon => ?_
    rw [hempty hon, List.nil_append]
  · rw [hh.reports, hempty hon, List.nil_append]
    exact hh.once
  · rw [hh.reports] at hr
    exact (List.mem_append.mp hr).elim (hexp r) (hh.expected r)

/-- The destructor prints the number of live allocations, if leaks are tracked and there are any. -/
theorem Good.leakMessage {s : ClientSys} {live : List Alloc} (h : Good s live) : s.impl.leakMessage =
    if s.impl.config.enableLeakTracking = true ∧ s.ledger ≠ [] then some s.ledger.length else none := by
  unfold AllocatorImpl.leakMessage
  by_cases ht : s.impl.config.enableLeakTracking = true
  · have hcount : s.impl.debug.liveCount = s.ledger.length :=
      (h.registry ht).live.length_eq.trans (List.length_map _)
    rw [if_pos ht, hcount]
    by_cases hl : s.ledger = []
    · refine Eq.trans (if_neg ?_) (if_neg fun h0 => h0.2 hl).symm
      rw [hl]
      exact Nat.lt_irrefl 0
    · exact (if_pos (List.length_pos_of_ne_nil hl)).trans (if_pos ⟨ht, hl⟩).symm
  · rw [if_neg ht, if_neg fun h0 => ht h0.1]

/-- **The handler hears each error once.** In every run, with any configuration, threads and answers of
    the OS, it has heard what the calls complained of, in their order, and nothing else; no false
    alarm is among it, and no pointer that was live then; with `abortOnError` the process ends with the first;
    and a destructor that ran now would print the number of live allocations. -/
theorem reports_of_run {cfg : AllocatorConfig} {m : Mem} {page : PageSize} {answers : List (Option Nat)}
    {faults : List Bool} {calls : List ClientCall} {s : ClientSys}
    (hrun : runFrom ClientSys.step (ClientSys.start cfg (World.boot m page answers) faults) calls = some s) :
    s.impl.reports = (operations ClientSys.step complaint
      (ClientSys.start cfg (World.boot m page answers) faults) calls).flatten ∧ Told cfg s.impl ∧
    (s.impl.leakMessage = if cfg.enableLeakTracking = true ∧ s.ledger ≠ [] then some s.ledger.length
      else none) ∧
    ∀ before call later s₀, calls = before ++ call :: later →
      runFrom ClientSys.step (ClientSys.start cfg (World.boot m page answers) faults) before = some s₀ →
      ∀ r ∈ complaint s₀ call, Deserved s₀ r := by
  have hstep : ∀ s call s', (∃ live, Good s live) → ClientSys.step s call = some s' →
      (∃ live, Good s' live) ∧ s.impl.aborted = false ∧ Heard (complaint s call) s.impl s'.impl := by
    rintro s call s' ⟨live, h⟩ hs
    exact ⟨(step_good h hs).1, step_heard h hs⟩
  have hpath := path_of_run (R := fun l i i' => i.aborted = false ∧ Heard l i i') hstep
    ⟨[], start_good cfg m page answers faults⟩ hrun
  refine ⟨?_, ?_, ?_, ?_⟩
  · have hlog := path_log (fun _ _ _ h => h.2.reports) hpath
    rw [List.flatMap_id'] at hlog
    exact hlog
  · refine path_invariant (P := Told cfg) (fun l i i' hi h => hi.heard h.1 h.2) ⟨rfl, ?_, ?_, ?_⟩ hpath
    · exact ⟨fun h => absurd h Bool.false_ne_true, fun h => absurd rfl h.2⟩
    · exact fun _ => Nat.zero_le _
    · exact fun r hr => absurd hr List.not_mem_nil
  · obtain ⟨live, h⟩ := good_of_run hrun
    rw [← config_of_run hrun]
    exact h.leakMessage
  · rintro before call later s₀ rfl hbefore
    obtain ⟨live, h⟩ := good_of_run hbefore
    obtain ⟨u, hu, hlater⟩ := run_append.mp hrun
    obtain rfl := Option.some.inj (hu.symm.trans hbefore)
    obtain ⟨s', hs', -⟩ := run_cons.mp hlater
    exact complaint_deserved h hs'

/-- A stray pointer, an alignment that is none, a request the OS refuses, a block freed twice. -/
def clumsyCalls : List ClientCall :=
  [.request 0 (.allocate 100), .deallocate 1 5, .request 1 (.alignedAllocate 24 8), .reallocate 0 67472 3000,
    .deallocate 0 67472, .deallocate 1 67472]

theorem reports_of_run_clumsy : ∃ s,
    runFrom ClientSys.step (ClientSys.start { enableLeakTracking := true } smallWorld []) clumsyCalls = some s ∧
    s.impl.reports = [(.InvalidPointer, 5), (.InvalidAlignment, 0), (.OutOfMemory, 0), (.DoubleFree, 67472)] ∧
    Told { enableLeakTracking := true } s.impl := by
  have hrun : (runFrom ClientSys.step (ClientSys.start { enableLeakTracking := true } smallWorld [])
      clumsyCalls).isSome = true := by decide +kernel
  have hsaid : (operations ClientSys.step complaint (ClientSys.start { enableLeakTracking := true } smallWorld [])
      clumsyCalls).flatten =
      [(.InvalidPointer, 5), (.InvalidAlignment, 0), (.OutOfMemory, 0), (.DoubleFree, 67472)] := by
    decide +kernel
  obtain ⟨s, hs⟩ := Option.isSome_iff_exists.mp hrun
  obtain ⟨hreports, htold, -⟩ := reports_of_run hs
  exact ⟨s, hs, hreports.trans hsaid, htold⟩

end MAlloc.Client
