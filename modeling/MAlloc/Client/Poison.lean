/-
  Poison in freed memory.

  The user bytes are poisoned before the block goes back to its tier. A link of the small tier lies in
  front of them. The `FreeNode` of a medium block lies 16 bytes behind the start of the payload
  (`Heap.deallocate_remains`): that is where a plain pointer points, while a shim keeps the user bytes of a
  guarded or an over-aligned pointer behind it. `Noded`: the first 16 user bytes become the node.
-/
import MAlloc.Client.DoubleFree

namespace MAlloc.Client

open Lib AllocatorImpl DebugLayer SizeClassTable

/-- The node of the free block will lie at `p`: a plain pointer to a medium block that has no free left
    neighbour. -/
structure Noded (m : Mem) (p : Nat) : Prop where
  medium : tierBehind m p = some .Medium
  plain : rawOf m p = p
  first : Heap.leftFree m (SegmentHeap.blockOf (payloadBehind m p)) = false

section Poison
variable {T : Tiers} {live : List Alloc} {a : Alloc} {cfg : AllocatorConfig} {m : Mem}

/-- The user bytes when the tier gets the block. -/
theorem given_poison (h : a.Ok m) (hfit : a.raw.size ≤ a.raw.reserved) (hp : cfg.enablePoisoning = true)
    {x : Nat} (hx : a.range.Has x) : given cfg m a x = kFreePoison := by
  have hb := h.placed.bounds hfit
  unfold Span.Has Alloc.range at hx
  simp only at hx
  have hold : poisonedOld cfg m a.ptr a.size x = kFreePoison := by
    unfold poisonedOld
    rw [if_pos hp]
    exact fill_of_mem hx
  unfold given
  rw [BlockHeader.setState_of_not (by omega)]
  unfold unshimmed
  cases hsh : a.shape with
  | plain => exact hold
  | _ =>
    dsimp only
    rw [BlockHeader.setState_of_not (by omega)]
    exact hold

theorem Live.noded_iff (h : Live T live) (ha : a ∈ live) : Noded T.mem a.ptr ↔
    a.raw.tier = .Medium ∧ a.ptr = a.raw.start + 16 ∧
      Heap.leftFree T.mem (SegmentHeap.blockOf a.raw.start) = false := by
  obtain ⟨hraw, hpay, htier⟩ := h.behind ha
  have huser : a.raw.user = a.raw.start + 16 := rfl
  constructor
  · rintro ⟨hmed, hplain, hfirst⟩
    rw [htier, Option.some.injEq] at hmed
    rw [hraw, huser] at hplain
    rw [hpay] at hfirst
    exact ⟨hmed, hplain.symm, hfirst⟩
  · rintro ⟨hmed, hptr, hfirst⟩
    refine ⟨by rw [htier, hmed], ?_, by rw [hpay]; exact hfirst⟩
    rw [hraw, huser, hptr]

/-- A user pointer is the raw one, or lies at least 16 bytes behind it. -/
theorem Alloc.Placed.behind (h : a.Placed) : a.ptr = a.raw.start + 16 ∨ a.raw.start + 32 ≤ a.ptr := by
  by_cases hs : a.shape = .plain
  · left
    unfold Alloc.Placed Raw.Block.user at h
    rw [hs] at h
    exact h.1
  · exact Or.inr (h.shim hs)

/-- **What `release` leaves of the user bytes.** -/
theorem release_poison (h : Live T live) (ha : a ∈ live) (hp : cfg.enablePoisoning = true) {t : Nat}
    {T' : Tiers} {res : Except Error Nat} (he : release cfg T t a.ptr a.header = (res, T'))
    (hkept : a.raw.tier = .Small ∨ a.raw.tier = .Medium ∧ ∃ r ∈ T'.segments.segments, r.Has a.ptr) :
    (∀ x, a.range.Has x → ¬ (Noded T.mem a.ptr ∧ x < a.ptr + 16) → T'.mem x = kFreePoison) ∧
      (Noded T.mem a.ptr → FreeNode.prev T'.mem a.ptr = 0) := by
  have hb := h.bounds ha
  have hbehind := (h.ok a ha).placed.behind
  have hin : ∀ x, a.range.Has x → a.raw.span.Has x := fun x hx => (Alloc.range_inside h ha).has hx
  have hgiven : ∀ x, a.range.Has x → given cfg T.mem a x = kFreePoison := fun x hx =>
    given_poison (h.ok a ha) (h.fits ha) hp hx
  rw [h.noded_iff ha]
  rcases hkept with ht | ⟨ht, r, hr, hrp⟩
  · constructor
    · intro x hx _
      have hfront : a.raw.start + 8 ≤ x := by
        unfold Span.Has Alloc.range at hx
        simp only at hx
        omega
      have hrem := small_remains cfg h ha ht t hfront (hin x hx)
      rw [he] at hrem
      exact hrem.trans (hgiven x hx)
    · rintro ⟨hmed, -⟩
      rw [ht] at hmed
      cases hmed
  · obtain ⟨hkeep, hnode⟩ := medium_remains h ha ht t he hr hrp
    constructor
    · intro x hx hnot
      refine (hkeep x (hin x hx) ?_).trans (hgiven x hx)
      by_cases hfirst : Heap.leftFree T.mem (SegmentHeap.blockOf a.raw.start) = true
      · exact Or.inl hfirst
      · right
        intro hn
        unfold Span.Has Alloc.range at hx
        simp only at hx
        rcases hbehind with hptr | hptr
        · exact hnot ⟨⟨ht, hptr, by simpa using hfirst⟩, by omega⟩
        · omega
    · rintro ⟨-, hptr, hfirst⟩
      rw [hptr]
      exact (hnode hfirst).1

end Poison

/-- **Freed memory is poisoned.** A live pointer is freed, its block small, or medium in a segment that
    stays: every user byte reads `0xDD`, but for the 16 bytes the node of a medium block takes. -/
theorem poison_of_run {cfg : AllocatorConfig} {m : Mem} {page : PageSize} {answers : List (Option Nat)}
    {faults : List Bool} {calls : List ClientCall} {s : ClientSys} (hp : cfg.enablePoisoning = true)
    (hrun : runFrom ClientSys.step (ClientSys.start cfg (World.boot m page answers) faults) calls = some s)
    {e : Entry} (he : e ∈ s.ledger) {t : Nat} {i : AllocatorImpl}
    (hfree : s.impl.deallocate t e.ptr = (.ok (), i))
    (hkept : tierBehind s.mem e.ptr = some .Small ∨
      tierBehind s.mem e.ptr = some .Medium ∧ ∃ r ∈ i.tiers.segments.segments, r.Has e.ptr) :
    (∀ x, e.range.Has x → ¬ (Noded s.mem e.ptr ∧ x < e.ptr + 16) → i.tiers.mem x = kFreePoison) ∧
      (Noded s.mem e.ptr → FreeNode.prev i.tiers.mem e.ptr = 0) := by
  obtain ⟨live, h⟩ := good_of_run hrun
  obtain ⟨a, ha, hkey⟩ := h.alloc_of he
  have hptr : a.ptr = e.ptr := congrArg Prod.fst hkey
  have hsize : a.size = e.size := congrArg (fun k => k.2.1) hkey
  have hrange : e.range = a.range := by
    unfold Entry.range Alloc.range
    rw [hptr, hsize]
  rw [hrange]
  rw [← hptr] at hfree hkept ⊢
  obtain ⟨-, -, htier⟩ := h.memory.behind ha
  rw [htier, Option.some.injEq, Option.some.injEq] at hkept
  obtain ⟨T', hrel, hd, -⟩ := deallocate_checked h.memory ha (h.passes ha) (Or.inr (h.guards a ha)) t
  rw [hfree] at hd
  have htiers : i.tiers = T' := by
    rw [(Prod.mk.inj hd).2, discharge_tiers]
  rw [htiers] at hkept ⊢
  exact release_poison h.memory ha (by rw [config_of_run hrun]; exact hp) hrel hkept

theorem poison_of_run_guarded : ∃ s i, runFrom ClientSys.step
      (ClientSys.start { enablePoisoning := true, enableGuardBytes := true } smallWorld [])
      [.request 0 (.allocate 5000)] = some s ∧ s.impl.deallocate 1 65600 = (.ok (), i) ∧
    ∀ x, 65600 ≤ x → x < 65600 + 5000 → i.tiers.mem x = kFreePoison := by
  have hrun : (runFrom ClientSys.step
      (ClientSys.start { enablePoisoning := true, enableGuardBytes := true } smallWorld [])
      [.request 0 (.allocate 5000)]).map (fun s => (s.ledger.map fun e => (e.ptr, e.size),
        (s.impl.deallocate 1 65600).1, decide (tierBehind s.mem 65600 = some .Medium ∧
          rawOf s.mem 65600 ≠ 65600 ∧
          ∃ r ∈ (s.impl.deallocate 1 65600).2.tiers.segments.segments, r.Has 65600))) =
      some ([(65600, 5000)], .ok (), true) := by
    decide +kernel
  obtain ⟨s, hs, hv⟩ := Option.map_eq_some_iff.mp hrun
  obtain ⟨hl, hv⟩ := Prod.mk.inj hv
  obtain ⟨hok, hd⟩ := Prod.mk.inj hv
  obtain ⟨hmed, hraw, hseg⟩ := of_decide_eq_true hd
  have hfree : s.impl.deallocate 1 65600 = (.ok (), (s.impl.deallocate 1 65600).2) := Prod.ext hok rfl
  obtain ⟨e, he, hkey⟩ : ∃ e ∈ s.ledger, (e.ptr, e.size) = (65600, 5000) := by
    refine List.mem_map.mp ?_
    rw [hl]
    exact List.mem_singleton_self _
  obtain ⟨hptr, hsize⟩ := Prod.mk.inj hkey
  rw [← hptr] at hfree hmed hraw hseg
  have hpoison := (poison_of_run rfl hs he hfree (Or.inr ⟨hmed, hseg⟩)).1
  refine ⟨s, _, hs, by rw [← hptr]; exact hfree, fun x h1 h2 => hpoison x ?_ fun hn => hraw hn.1.plain⟩
  unfold Span.Has Entry.range
  rw [hptr, hsize]
  exact ⟨h1, h2⟩

/-- A plain medium pointer, freed: its first byte is not poison. -/
theorem plain_medium_freed : ∃ s i, runFrom ClientSys.step
      (ClientSys.start { enablePoisoning := true } smallWorld []) [.request 0 (.allocate 5000)] = some s ∧
    (65568, 5000) ∈ s.ledger.map (fun e => (e.ptr, e.size)) ∧
    s.impl.deallocate 0 65568 = (.ok (), i) ∧ tierBehind s.mem 65568 = some .Medium ∧
    (∃ r ∈ i.tiers.segments.segments, r.Has 65568) ∧ i.tiers.mem 65568 ≠ kFreePoison := by
  have hrun : (runFrom ClientSys.step (ClientSys.start { enablePoisoning := true } smallWorld [])
      [.request 0 (.allocate 5000)]).map (fun s => ((s.impl.deallocate 0 65568).1,
        decide ((65568, 5000) ∈ s.ledger.map (fun e => (e.ptr, e.size)) ∧
          tierBehind s.mem 65568 = some .Medium ∧
          (∃ r ∈ (s.impl.deallocate 0 65568).2.tiers.segments.segments, r.Has 65568) ∧
          (s.impl.deallocate 0 65568).2.tiers.mem 65568 ≠ kFreePoison))) = some (.ok (), true) := by
    decide +kernel
  obtain ⟨s, hs, hv⟩ := Option.map_eq_some_iff.mp hrun
  obtain ⟨hok, hd⟩ := Prod.mk.inj hv
  obtain ⟨hin, hmed, hseg, hne⟩ := of_decide_eq_true hd
  exact ⟨s, (s.impl.deallocate 0 65568).2, hs, hin, Prod.ext hok rfl, hmed, hseg, hne⟩

end MAlloc.Client
