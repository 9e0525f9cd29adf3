/-
  Null-terminated intrusive lists.

  A node is a nonzero address. `Chain nxt h xs`: following `nxt` from `h` visits
  exactly `xs` and then meets null. `DList prv nxt p h xs`: the same with back links,
  the first node's `prv` being `p`. The link fields are arbitrary functions of the
  address, so the lemmas apply to whatever memory the fields are read from.

  The walk is deterministic, hence a chain is determined by its head
  (`Chain.unique`) and never meets a node twice (`Chain.nodup`). The two edits of a
  doubly-linked list are `DList.unlink` and `DList.pushFront`. Each states the edit
  by what the new link fields are, and asks that the other links of the list are kept.
-/
import Mathlib.Data.List.Basic
import Mathlib.Tactic.Common

namespace MAlloc.Lib

/-! ## Singly linked -/

/-- `nxt` from `h` visits `xs` and ends at null. -/
def Chain (nxt : Nat → Nat) : Nat → List Nat → Prop
  | h, [] => h = 0
  | h, x :: xs => h = x ∧ x ≠ 0 ∧ Chain nxt (nxt x) xs

/-- `x` is met when `nxt` is followed from `h`. -/
inductive Reaches (nxt : Nat → Nat) : Nat → Nat → Prop
  | here {h : Nat} : h ≠ 0 → Reaches nxt h h
  | next {h x : Nat} : h ≠ 0 → Reaches nxt (nxt h) x → Reaches nxt h x

theorem Chain.congr {nxt nxt' : Nat → Nat} {h : Nat} {xs : List Nat}
    (hc : Chain nxt h xs) (hn : ∀ x ∈ xs, nxt' x = nxt x) : Chain nxt' h xs := by
  induction xs generalizing h with
  | nil => exact hc
  | cons x xs ih =>
    obtain ⟨hh, h0, ht⟩ := hc
    refine ⟨hh, h0, ?_⟩
    rw [hn x List.mem_cons_self]
    exact ih ht fun y hy => hn y (List.mem_cons_of_mem _ hy)

theorem Chain.cons {nxt nxt' : Nat → Nat} {h x : Nat} {xs : List Nat} (hc : Chain nxt h xs)
    (hx : x ≠ 0) (hnx : nxt' x = h) (hn : ∀ y ∈ xs, nxt' y = nxt y) :
    Chain nxt' x (x :: xs) := by
  refine ⟨rfl, hx, ?_⟩
  rw [hnx]
  exact hc.congr hn

theorem Chain.unique {nxt : Nat → Nat} {h : Nat} {xs ys : List Nat}
    (hx : Chain nxt h xs) (hy : Chain nxt h ys) : xs = ys := by
  induction xs generalizing h ys with
  | nil =>
    cases ys with
    | nil => rfl
    | cons y ys => exact absurd (hy.1.symm.trans hx) hy.2.1
  | cons x xs ih =>
    cases ys with
    | nil => exact absurd (hx.1.symm.trans hy) hx.2.1
    | cons y ys =>
      have e : x = y := hx.1.symm.trans hy.1
      subst e
      rw [ih hx.2.2 hy.2.2]

theorem Chain.of_append {nxt : Nat → Nat} {h x : Nat} {l r : List Nat}
    (hc : Chain nxt h (l ++ x :: r)) : Chain nxt x (x :: r) := by
  induction l generalizing h with
  | nil =>
    obtain ⟨rfl, h0, ht⟩ := hc
    exact ⟨rfl, h0, ht⟩
  | cons a l ih => exact ih hc.2.2

/-- A null-terminated walk meets no node twice. -/
theorem Chain.nodup {nxt : Nat → Nat} {h : Nat} {xs : List Nat} (hc : Chain nxt h xs) :
    xs.Nodup := by
  induction xs generalizing h with
  | nil => exact List.nodup_nil
  | cons x xs ih =>
    refine List.nodup_cons.mpr ⟨fun hx => ?_, ih hc.2.2⟩
    obtain ⟨l, r, e⟩ := List.append_of_mem hx
    -- both `xs` and its suffix after the second `x` are the walk from `nxt x`
    have h1 : Chain nxt (nxt x) xs := hc.2.2
    have h2 : Chain nxt (nxt x) r := by
      have hs := h1
      rw [e] at hs
      exact hs.of_append.2.2
    have hlen := congrArg List.length (h1.unique h2)
    rw [e] at hlen
    simp at hlen
    omega

theorem Chain.ne_zero {nxt : Nat → Nat} {h : Nat} {xs : List Nat} (hc : Chain nxt h xs) {x : Nat}
    (hx : x ∈ xs) : x ≠ 0 := by
  obtain ⟨l, r, e⟩ := List.append_of_mem hx
  rw [e] at hc
  exact hc.of_append.2.1

theorem Chain.head {nxt : Nat → Nat} {h : Nat} {xs : List Nat} (hc : Chain nxt h xs) :
    h = xs.headD 0 := by
  cases xs with
  | nil => exact hc
  | cons x xs => exact hc.1

/-- The nodes met from the head are the members of the chain. -/
theorem Chain.reaches_iff {nxt : Nat → Nat} {h : Nat} {xs : List Nat} (hc : Chain nxt h xs)
    {x : Nat} : Reaches nxt h x ↔ x ∈ xs := by
  constructor
  · intro hr
    induction hr generalizing xs with
    | here h0 =>
      cases xs with
      | nil => exact absurd hc h0
      | cons y ys =>
        rw [hc.1]
        exact List.mem_cons_self
    | next h0 _ ih =>
      cases xs with
      | nil => exact absurd hc h0
      | cons y ys =>
        obtain ⟨rfl, _, ht⟩ := hc
        exact List.mem_cons_of_mem _ (ih ht)
  · intro hx
    induction xs generalizing h with
    | nil => cases hx
    | cons y ys ih =>
      obtain ⟨rfl, h0, ht⟩ := hc
      rcases List.mem_cons.mp hx with rfl | hx
      · exact .here h0
      · exact .next h0 (ih ht hx)

/-! ## Doubly linked -/

/-- `nxt` from `h` visits `xs` and ends at null; every `prv` is the node before, and `p`
    at the first node. -/
def DList (prv nxt : Nat → Nat) : Nat → Nat → List Nat → Prop
  | _, h, [] => h = 0
  | p, h, x :: xs => h = x ∧ x ≠ 0 ∧ prv x = p ∧ DList prv nxt x (nxt x) xs

section DList
variable {prv nxt prv' nxt' : Nat → Nat}

theorem DList.chain {p h : Nat} {xs : List Nat} (hd : DList prv nxt p h xs) :
    Chain nxt h xs := by
  induction xs generalizing p h with
  | nil => exact hd
  | cons x xs ih => exact ⟨hd.1, hd.2.1, ih hd.2.2.2⟩

theorem DList.congr {p h : Nat} {xs : List Nat} (hd : DList prv nxt p h xs)
    (hp : ∀ x ∈ xs, prv' x = prv x) (hn : ∀ x ∈ xs, nxt' x = nxt x) :
    DList prv' nxt' p h xs := by
  induction xs generalizing p h with
  | nil => exact hd
  | cons x xs ih =>
    obtain ⟨hh, h0, hpx, ht⟩ := hd
    refine ⟨hh, h0, (hp x List.mem_cons_self).trans hpx, ?_⟩
    rw [hn x List.mem_cons_self]
    exact ih ht (fun y hy => hp y (List.mem_cons_of_mem _ hy))
      fun y hy => hn y (List.mem_cons_of_mem _ hy)

/-- The back link of a node is the node before it, or `p` at the front. -/
theorem DList.prv_eq {p h x : Nat} {l r : List Nat} (hd : DList prv nxt p h (l ++ x :: r)) :
    prv x = l.getLast?.getD p := by
  induction l generalizing p h with
  | nil => exact hd.2.2.1
  | cons a l ih =>
    have := ih hd.2.2.2
    rw [this]
    cases l with
    | nil => rfl
    | cons b l => simp [List.getLast?_cons]

/-- The forward link of a node is the node after it, or null at the end. -/
theorem DList.nxt_eq {p h x : Nat} {l r : List Nat} (hd : DList prv nxt p h (l ++ x :: r)) :
    nxt x = r.headD 0 :=
  hd.chain.of_append.2.2.head

/-- At the front of a list whose first back link is null, and only there, the back link
    is null. -/
theorem DList.prv_eq_zero_iff {h x : Nat} {l r : List Nat}
    (hd : DList prv nxt 0 h (l ++ x :: r)) : prv x = 0 ↔ l = [] := by
  rw [hd.prv_eq]
  rcases List.eq_nil_or_concat l with rfl | ⟨l', a, rfl⟩
  · simp
  · have : a ≠ 0 := hd.chain.ne_zero (by simp)
    simpa using this

/-- **Unlink.** Taking `x` out needs `nxt` of the node before set to `nxt x` (the head when
    there is none) and `prv` of the node after set to `prv x`; every other link is kept. -/
theorem DList.unlink {p h x : Nat} {l r : List Nat} (hd : DList prv nxt p h (l ++ x :: r))
    (hp0 : p ∉ l ++ x :: r)
    (hn : ∀ y ∈ l ++ r, y ≠ prv x → nxt' y = nxt y)
    (hp : ∀ y ∈ l ++ r, y ≠ nxt x → prv' y = prv y)
    (hn' : l ≠ [] → nxt' (prv x) = nxt x)
    (hp' : nxt x ≠ 0 → prv' (nxt x) = prv x) :
    DList prv' nxt' p (if l = [] then nxt x else h) (l ++ r) := by
  induction l generalizing p h with
  | nil =>
    have hnd := hd.chain.nodup
    obtain ⟨-, -, hpx, ht⟩ := hd
    rw [if_pos rfl]
    cases r with
    | nil => exact ht
    | cons y ys =>
      obtain ⟨hy, hy0, -, hys⟩ := ht
      simp only [List.nil_append, List.mem_cons, not_or, List.nodup_cons] at hp0 hnd hn hp ⊢
      refine ⟨hy, hy0, ?_, ?_⟩
      · rw [← hy, hp' (by rw [hy]; exact hy0), hpx]
      · rw [hn y (Or.inl rfl) (by rw [hpx]; exact fun e => hp0.2.1 e.symm)]
        refine hys.congr (fun z hz => hp z (Or.inr hz) ?_) fun z hz => hn z (Or.inr hz) ?_
        · rw [hy]
          exact fun e => hnd.2.1 (e ▸ hz)
        · rw [hpx]
          exact fun e => hp0.2.2 (e ▸ hz)
  | cons a l ih =>
    have hnd := hd.chain.nodup
    have hpe := hd.prv_eq
    have hne := hd.nxt_eq
    obtain ⟨hh, h0, hpa, ht⟩ := hd
    simp only [List.cons_append, List.nodup_cons, List.mem_append, List.mem_cons, not_or] at hnd
    have hax : a ≠ nxt x := by
      intro e
      cases r with
      | nil => exact h0 (e.trans hne)
      | cons y ys => exact hnd.1.2.2 (by rw [e, hne]; exact List.mem_cons_self)
    refine ⟨by rw [if_neg (by simp)]; exact hh, h0, ?_, ?_⟩
    · rw [hp a (by simp) hax]
      exact hpa
    · have hsub : ∀ y ∈ l ++ r, y ∈ (a :: l) ++ r := fun y hy => List.mem_cons_of_mem _ hy
      have ih' := ih ht (by simpa using hnd.1) (fun y hy => hn y (hsub y hy))
        (fun y hy => hp y (hsub y hy)) (fun _ => hn' (by simp))
      have hna : nxt' a = if l = [] then nxt x else nxt a := by
        split
        · rename_i hl
          subst hl
          have hpxa : prv x = a := by simpa using hpe
          rw [← hpxa]
          exact hn' (by simp)
        · rename_i hl
          refine hn a (by simp) fun e => ?_
          -- the node before `x` is in `l`, and `a` is not
          obtain ⟨l', b, rfl⟩ := List.eq_nil_or_concat l |>.resolve_left hl
          have hb : prv x = b := by
            rw [hpe]
            simp [List.getLast?_cons]
          exact hnd.1.1 (by rw [e, hb]; simp)
      rw [hna]
      exact ih'

/-- **Push at the front.** -/
theorem DList.pushFront {h x : Nat} {xs : List Nat} (hd : DList prv nxt 0 h xs)
    (hx : x ≠ 0) (hpx : prv' x = 0) (hnx : nxt' x = h) (hph : h ≠ 0 → prv' h = x)
    (hn : ∀ y ∈ xs, nxt' y = nxt y) (hp : ∀ y ∈ xs, y ≠ h → prv' y = prv y) :
    DList prv' nxt' 0 x (x :: xs) := by
  refine ⟨rfl, hx, hpx, ?_⟩
  rw [hnx]
  cases xs with
  | nil => exact hd
  | cons y ys =>
    have hnd := (List.nodup_cons.mp hd.chain.nodup).1
    obtain ⟨hh, h0, -, ht⟩ := hd
    refine ⟨hh, h0, by rw [← hh]; exact hph (by rw [hh]; exact h0), ?_⟩
    rw [hn y List.mem_cons_self]
    refine ht.congr (fun z hz => hp z (List.mem_cons_of_mem _ hz) ?_)
      fun z hz => hn z (List.mem_cons_of_mem _ hz)
    rw [hh]
    exact fun e => hnd (e ▸ hz)

end DList

end MAlloc.Lib
