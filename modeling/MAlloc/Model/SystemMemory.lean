/-
  `SystemMemory.cpp` and the operating system behind it.

  The OS is an oracle: `answers` says where it would place each region it is asked for,
  in order. An answer is taken only if it is one `mmap` may give (page aligned, not null,
  inside the address space, apart from everything mapped); any other answer, and an
  exhausted list, is a refusal. So every list of answers is a legal OS, and every legal OS
  behaviour along a finite run is some list. A granted region reads as zeros.
  `refusals` counts the requests the OS has turned down; `granted` and `returned` record the
  regions it has handed out and the regions `munmap` was called with.
-/
import MAlloc.Lib.Cells
import MAlloc.Lib.Span

namespace MAlloc

open Lib

/-- The page size, a power of two from 16 to `2^30`. -/
structure PageSize where
  log : Nat
  lo : 4 ≤ log
  hi : log ≤ 30

def PageSize.bytes (p : PageSize) : Nat := 2 ^ p.log

theorem PageSize.mod_16 (p : PageSize) : p.bytes % 16 = 0 := by
  obtain ⟨k, hk⟩ := Nat.exists_eq_add_of_le p.lo
  unfold PageSize.bytes
  rw [hk, pow_add]
  exact Nat.mul_mod_right _ _

theorem PageSize.bounds (p : PageSize) : 16 ≤ p.bytes ∧ p.bytes ≤ 2 ^ 30 :=
  ⟨Nat.pow_le_pow_right (show 0 < 2 by decide) p.lo,
    Nat.pow_le_pow_right (show 0 < 2 by decide) p.hi⟩

/-- Memory, the page tables and the oracle. -/
structure World where
  mem : Mem
  page : PageSize
  mapped : List Span
  answers : List (Option Nat)
  refusals : Nat
  granted : List Span
  returned : List Span

/-- Nothing is mapped yet. -/
def World.boot (mem : Mem) (page : PageSize) (answers : List (Option Nat)) : World :=
  ⟨mem, page, [], answers, 0, [], []⟩

/-- The OS may place `rounded` bytes at `base`. -/
def World.Grants (w : World) (base rounded : Nat) : Prop :=
  base % w.page.bytes = 0 ∧ 0 < base ∧ 0 < rounded ∧ base + rounded < 2 ^ 64 ∧
    ∀ r ∈ w.mapped, Span.Disjoint ⟨base, rounded⟩ r

instance (w : World) (base rounded : Nat) : Decidable (w.Grants base rounded) :=
  inferInstanceAs (Decidable (_ ∧ _))

namespace SystemMemory

/-- `::mmap(nullptr, rounded, …)`. -/
def mmap (w : World) (rounded : Nat) : Option Span × World :=
  let refuse : World := { w with answers := w.answers.tail, refusals := w.refusals + 1 }
  match w.answers with
  | some base :: rest =>
    if w.Grants base rounded then
      (some ⟨base, rounded⟩,
        { w with
          mem := fill w.mem base rounded 0
          mapped := ⟨base, rounded⟩ :: w.mapped
          answers := rest
          granted := ⟨base, rounded⟩ :: w.granted })
    else (none, refuse)
  | _ => (none, refuse)

/-- `(size + page - 1) / page * page` on 64-bit words. -/
def roundToPages (page : PageSize) (size : Nat) : Nat :=
  (size + page.bytes + (2 ^ 64 - 1)) % 2 ^ 64 / page.bytes * page.bytes

/-- The empty span the source returns on failure is `none`. -/
def map (w : World) (size : Nat) : Option Span × World :=
  if size = 0 then (none, w) else mmap w (roundToPages w.page size)

def unmap (w : World) (region : Span) : World :=
  { w with mapped := w.mapped.erase region, returned := region :: w.returned }

end SystemMemory

/-- What the OS guarantees of its page tables. -/
structure World.Ok (w : World) : Prop where
  apart : w.mapped.Pairwise Span.Disjoint
  aligned : ∀ r ∈ w.mapped, r.data % 16 = 0
  pos : ∀ r ∈ w.mapped, 0 < r.data ∧ 0 < r.size
  bound : ∀ r ∈ w.mapped, r.data + r.size < 2 ^ 64
  balanced : w.granted.Perm (w.returned ++ w.mapped)

/-- `w` and `w'` have the same page tables, and the OS has handed out and got back the same
    regions. -/
def World.SameTables (w w' : World) : Prop :=
  w'.mapped = w.mapped ∧ w'.granted = w.granted ∧ w'.returned = w.returned

/-- `w'` is `w` after the OS has handed out the region `r`. -/
def World.Gains (w w' : World) (r : Span) : Prop :=
  w'.mapped = r :: w.mapped ∧ w'.granted = r :: w.granted ∧ w'.returned = w.returned

/-- From `w` to `w'` the bytes of the spans `l` are kept, the page size is the same and no refusal
    is forgotten; off the spans `busy` the change of memory is tame. -/
structure World.Keeps (w w' : World) (l : List Span) (busy : List Span := []) : Prop where
  page : w'.page = w.page
  refusals : w.refusals ≤ w'.refusals
  bytes : ∀ u ∈ l, SameOn w.mem w'.mem u.data u.size
  tame : ∀ h, h % 16 = 0 → (∀ u ∈ busy, u.Disjoint ⟨h, 16⟩) → TameAt w.mem w'.mem h

section Keeps
variable {w w' w'' : World} {l l' busy busy' : List Span}

theorem World.Keeps.trans (h : w.Keeps w' l busy) (h' : w'.Keeps w'' l busy) : w.Keeps w'' l busy :=
  ⟨h'.page.trans h.page, h.refusals.trans h'.refusals, fun u hu =>
    (h.bytes u hu).trans (h'.bytes u hu), fun x hx hb => (h.tame x hx hb).trans (h'.tame x hx hb)⟩

theorem World.Keeps.mono (h : w.Keeps w' l busy) (hl : ∀ u ∈ l', ∃ v ∈ l, u.Inside v) :
    w.Keeps w' l' busy := by
  refine ⟨h.page, h.refusals, fun u hu => ?_, h.tame⟩
  obtain ⟨v, hv, hi⟩ := hl u hu
  exact (h.bytes v hv).mono hi.1 hi.2

theorem World.Keeps.subset (h : w.Keeps w' l busy) (hl : l' ⊆ l) : w.Keeps w' l' busy :=
  ⟨h.page, h.refusals, fun u hu => h.bytes u (hl hu), h.tame⟩

/-- More may be busy. -/
theorem World.Keeps.widen (h : w.Keeps w' l busy) (hb : ∀ u ∈ busy, ∃ v ∈ busy', u.Inside v) :
    w.Keeps w' l busy' := by
  refine ⟨h.page, h.refusals, h.bytes, fun x hx hd => h.tame x hx fun u hu => ?_⟩
  obtain ⟨v, hv, hi⟩ := hb u hu
  have := hd v hv
  unfold Span.Inside at hi
  unfold Span.Disjoint at this ⊢
  omega

theorem World.Keeps.calm (h : w.Keeps w' l) : w.Keeps w' l busy :=
  h.widen fun _ hu => absurd hu (List.not_mem_nil)

theorem World.Keeps.refl (w : World) (l : List Span) : w.Keeps w l busy :=
  ⟨rfl, Nat.le_refl _, fun _ _ => SameOn.refl _ _ _, fun x hx _ => Tame.refl _ x hx⟩

/-- A change inside one span. -/
theorem World.Keeps.of_write {m : Mem} {b : Span} (hm : ∀ x, ¬ b.Has x → m x = w.mem x)
    (hl : ∀ u ∈ l, b.Disjoint u) : w.Keeps { w with mem := m } l [b] := by
  refine ⟨rfl, Nat.le_refl _, fun u hu x h1 h2 => hm x fun hx => (hl u hu).not_has hx ⟨h1, h2⟩, ?_⟩
  intro h hh hd
  refine TameAt.of_same fun x h1 h2 => hm x fun hx => ?_
  exact (hd b (List.mem_singleton_self b)).not_has hx ⟨h1, h2⟩

end Keeps

namespace SystemMemory

theorem roundToPages_eq {page : PageSize} {size : Nat} (h : size + 2 ^ 30 ≤ 2 ^ 64) :
    roundToPages page size = (size + page.bytes - 1) / page.bytes * page.bytes := by
  have := page.bounds
  unfold roundToPages
  rw [show (size + page.bytes + (2 ^ 64 - 1)) % 2 ^ 64 = size + page.bytes - 1 by omega]

/-- Rounding to pages reaches the size asked for, and less than a page more. -/
theorem roundToPages_bounds {p : PageSize} {n : Nat} (h : n + 2 ^ 30 ≤ 2 ^ 64) :
    n ≤ roundToPages p n ∧ roundToPages p n < n + p.bytes := by
  have hb := p.bounds
  rw [roundToPages_eq h]
  have h1 := Nat.div_add_mod (n + p.bytes - 1) p.bytes
  have h2 := Nat.mod_lt (n + p.bytes - 1) (show 0 < p.bytes by omega)
  rw [Nat.mul_comm] at h1
  omega

theorem roundToPages_mod_16 (page : PageSize) (size : Nat) : roundToPages page size % 16 = 0 := by
  unfold roundToPages
  rw [Nat.mul_mod, page.mod_16, Nat.mul_zero]

theorem mod_16_of_grants {w : World} {base rounded : Nat} (h : w.Grants base rounded) :
    base % 16 = 0 := by
  have hd : w.page.bytes ∣ base := Nat.dvd_of_mod_eq_zero h.1
  exact Nat.mod_eq_zero_of_dvd ((Nat.dvd_of_mod_eq_zero w.page.mod_16).trans hd)

/-- Everything `map` can do: a refusal leaves memory and the page tables as they were; a grant
    adds one zero-filled region, apart from the others, that holds the size asked for. -/
theorem map_cases {w w' : World} {size : Nat} {o : Option Span} (h : map w size = (o, w')) :
    (o = none ∧ w'.mem = w.mem ∧ w.SameTables w' ∧ w'.page = w.page ∧
      (size = 0 ∧ w' = w ∨ w'.refusals = w.refusals + 1)) ∨
    (∃ r, o = some r ∧ r.size = roundToPages w.page size ∧ w.Grants r.data r.size ∧
      w'.mem = fill w.mem r.data r.size 0 ∧ w.Gains w' r ∧ w'.page = w.page ∧
      w'.refusals = w.refusals) := by
  unfold map at h
  split at h
  · rename_i h0
    cases h
    exact Or.inl ⟨rfl, rfl, ⟨rfl, rfl, rfl⟩, rfl, Or.inl ⟨h0, rfl⟩⟩
  · unfold mmap at h
    dsimp only at h
    split at h
    · split at h
      · rename_i hg
        cases h
        exact Or.inr ⟨_, rfl, rfl, hg, rfl, ⟨rfl, rfl, rfl⟩, rfl, rfl⟩
      · cases h
        exact Or.inl ⟨rfl, rfl, ⟨rfl, rfl, rfl⟩, rfl, Or.inr rfl⟩
    · cases h
      exact Or.inl ⟨rfl, rfl, ⟨rfl, rfl, rfl⟩, rfl, Or.inr rfl⟩

/-- A granted region may join the page tables. -/
theorem ok_cons {w w' : World} {r : Span} (hw : w.Ok) (hg : w.Grants r.data r.size)
    (hs : w.Gains w' r) : w'.Ok := by
  obtain ⟨hm, hgr, hre⟩ := hs
  constructor
  · rw [hm]
    exact List.pairwise_cons.mpr ⟨hg.2.2.2.2, hw.apart⟩
  · rw [hm]
    exact List.forall_mem_cons.mpr ⟨mod_16_of_grants hg, hw.aligned⟩
  · rw [hm]
    exact List.forall_mem_cons.mpr ⟨⟨hg.2.1, hg.2.2.1⟩, hw.pos⟩
  · rw [hm]
    exact List.forall_mem_cons.mpr ⟨hg.2.2.2.1, hw.bound⟩
  · rw [hm, hgr, hre]
    exact (hw.balanced.cons r).trans List.perm_middle.symm

theorem ok_of_same {w w' : World} (hw : w.Ok) (hs : w.SameTables w') : w'.Ok := by
  obtain ⟨hm, hgr, hre⟩ := hs
  constructor
  · rw [hm]
    exact hw.apart
  · rw [hm]
    exact hw.aligned
  · rw [hm]
    exact hw.pos
  · rw [hm]
    exact hw.bound
  · rw [hm, hgr, hre]
    exact hw.balanced

/-- Bytes alone do not touch the page tables. -/
theorem ok_mem {w : World} (hw : w.Ok) (m : Mem) : ({ w with mem := m } : World).Ok :=
  ok_of_same hw ⟨rfl, rfl, rfl⟩

theorem unmap_ok {w : World} (hw : w.Ok) {r : Span} (hr : r ∈ w.mapped) : (unmap w r).Ok where
  apart := hw.apart.sublist List.erase_sublist
  aligned q hq := hw.aligned q (List.erase_subset hq)
  pos q hq := hw.pos q (List.erase_subset hq)
  bound q hq := hw.bound q (List.erase_subset hq)
  balanced := by
    have h := (List.perm_cons_erase hr).append_left w.returned
    exact (hw.balanced.trans h).trans List.perm_middle

theorem map_ok {w w' : World} {size : Nat} {o : Option Span} (hw : w.Ok)
    (h : map w size = (o, w')) : w'.Ok := by
  rcases map_cases h with ⟨-, -, hs, -⟩ | ⟨r, -, -, hg, -, hs, -⟩
  · exact ok_of_same hw hs
  · exact ok_cons hw hg hs

/-- A granted region comes with zeroes. -/
theorem map_tame {w w' : World} {size : Nat} {o : Option Span} (h : map w size = (o, w')) :
    Tame w.mem w'.mem := by
  rcases map_cases h with ⟨-, hm, -⟩ | ⟨r, -, hs, hg, hm, -⟩
  · rw [hm]
    exact Tame.refl _
  · rw [hm]
    exact tame_fill (mod_16_of_grants hg) (by rw [hs]; exact roundToPages_mod_16 _ _)

/-- A region that was mapped before keeps its bytes through `map`. -/
theorem map_keeps {w w' : World} {size : Nat} {o : Option Span} (h : map w size = (o, w'))
    {r : Span} (hr : r ∈ w.mapped) {x : Nat} (hx : r.Has x) : w'.mem x = w.mem x := by
  rcases map_cases h with ⟨-, hm, -⟩ | ⟨q, -, -, hg, hm, -⟩
  · rw [hm]
  · rw [hm]
    exact fill_of_not fun hq => (hg.2.2.2.2 r hr).not_has hq hx

end SystemMemory

/-- A machine with 4 KiB pages and nothing mapped, whose OS places the first region at
    `0x10000` and then refuses. -/
def smallWorld : World := World.boot (fun _ => 0) ⟨12, by decide, by decide⟩ [some 65536]

/-- The same machine with an OS that grants three mappings. -/
def roomyWorld : World :=
  World.boot (fun _ => 0) smallWorld.page [some 0x100000, some 0x1000000, some 0x2000000]

theorem World.boot_ok (mem : Mem) (page : PageSize) (answers : List (Option Nat)) :
    (World.boot mem page answers).Ok where
  apart := List.Pairwise.nil
  aligned := by simp [World.boot]
  pos := by simp [World.boot]
  bound := by simp [World.boot]
  balanced := List.Perm.refl _

theorem smallWorld_ok : smallWorld.Ok := World.boot_ok _ _ _

theorem roomyWorld_ok : roomyWorld.Ok := World.boot_ok _ _ _

end MAlloc
