/-
  Allocations as clients see them.

  An `Alloc` is a live allocation: the pointer, the requested size, and the raw block under it
  with the shape that connects the two (plain, between guards, or behind an aligned shim).
  `Alloc.Ok m a` says what stands in memory in front of the user bytes, and `Alloc.Guarded m a` that
  the guard bytes around them are intact; neither depends on the user bytes (`Alloc.Ok.congr`,
  `Alloc.Guarded.congr`). `Live T live`: the raw blocks of `live` are exactly the ones that are out
  of the tiers, and each stands as its shape says.

  `acquire_spec`, `acquireAligned_spec` and `release_spec` are the middle parts of the public calls.
-/
import MAlloc.Raw.Free

namespace MAlloc.Client

open Lib AllocatorImpl DebugLayer

inductive Shape where
  | plain
  | guarded
  | aligned (alignment : Nat)
  deriving DecidableEq, Repr

structure Alloc where
  ptr : Nat
  size : Nat
  shape : Shape
  raw : Raw.Block
  deriving DecidableEq, Repr

namespace Alloc

/-- The bytes the client may use. -/
def range (a : Alloc) : Span := ⟨a.ptr, a.size⟩

/-- Where the pointer stands in the raw block. -/
def Placed (a : Alloc) : Prop :=
  match a.shape with
  | .plain => a.ptr = a.raw.user ∧ a.raw.size = a.size
  | .guarded => a.ptr = a.raw.user + 32 ∧ a.raw.size = a.size + 64
  | .aligned alignment => a.raw.size = a.size + alignment ∧ a.raw.user + 16 ≤ a.ptr ∧
      a.ptr ≤ a.raw.user + alignment ∧ a.ptr % alignment = 0 ∧ alignment % 16 = 0 ∧
      16 < alignment ∧ alignment ≤ 2 ^ 30

/-- The header in front of the user bytes. -/
def header (a : Alloc) : BlockHeader :=
  match a.shape with
  | .plain => rawHeader a.size a.raw.tier
  | .guarded => debugShim a.size
  | .aligned _ => alignedShim a.size (a.ptr - a.raw.user)

/-- The guard bytes are intact. -/
def Guarded (m : Mem) (a : Alloc) : Prop :=
  a.shape = .guarded → (∀ i < 16, m (a.raw.user + i) = kGuardPattern) ∧
    ∀ i < 32, m (a.ptr + a.size + i) = kGuardPattern

structure Ok (m : Mem) (a : Alloc) : Prop where
  pos : 0 < a.size
  bound : a.size ≤ kMaxRequest
  placed : a.Placed
  header : BlockHeader.load m (a.ptr - 16) = a.header

/-- The header bytes and the guard bytes of an allocation. -/
def metadata (a : Alloc) : List Span :=
  ⟨a.raw.start, 16⟩ :: ⟨a.ptr - 16, 16⟩ ::
    match a.shape with
    | .guarded => [⟨a.raw.user, 16⟩, ⟨a.ptr + a.size, 32⟩]
    | _ => []

end Alloc

section Alloc
variable {m m' : Mem} {a : Alloc}

/-- The user bytes lie behind the raw header, and so does the header in front of them. -/
theorem Alloc.Placed.bounds (h : a.Placed) (hfit : a.raw.size ≤ a.raw.reserved) :
    a.raw.start + 16 ≤ a.ptr ∧ a.ptr + a.size ≤ a.raw.start + a.raw.reserved + 16 := by
  unfold Alloc.Placed Raw.Block.user at h
  split at h <;> omega

/-- A shim header lies behind the raw header. -/
theorem Alloc.Placed.shim (h : a.Placed) (hs : a.shape ≠ .plain) : a.raw.start + 32 ≤ a.ptr := by
  unfold Alloc.Placed Raw.Block.user at h
  split at h
  · contradiction
  all_goals omega

theorem Alloc.Placed.guarded (h : a.Placed) (hs : a.shape = .guarded) :
    a.ptr = a.raw.start + 48 ∧ a.raw.size = a.size + 64 := by
  unfold Alloc.Placed Raw.Block.user at h
  rw [hs] at h
  dsimp only at h
  omega

/-- The user bytes do not matter. -/
theorem Alloc.Ok.congr (h : a.Ok m) (hfit : a.raw.size ≤ a.raw.reserved)
    (hm : ∀ x, a.raw.span.Has x → ¬ a.range.Has x → m' x = m x) : a.Ok m' := by
  have hb := h.placed.bounds hfit
  unfold Span.Has Raw.Block.span Alloc.range at hm
  simp only at hm
  refine ⟨h.pos, h.bound, h.placed, ?_⟩
  refine (BlockHeader.load_congr fun x h1 h2 => hm x ?_ ?_).trans h.header
  · omega
  · omega

theorem Alloc.Guarded.congr (h : a.Guarded m) (hp : a.Placed) (hfit : a.raw.size ≤ a.raw.reserved)
    (hm : ∀ x, a.raw.span.Has x → ¬ a.range.Has x → m' x = m x) : a.Guarded m' := by
  intro hs
  obtain ⟨hf, hr⟩ := h hs
  obtain ⟨hp, hsz⟩ := hp.guarded hs
  unfold Span.Has Raw.Block.span Alloc.range at hm
  simp only at hm
  refine ⟨fun i hi => ?_, fun i hi => ?_⟩
  · unfold Raw.Block.user at hf ⊢
    exact (hm _ (by omega) (by omega)).trans (hf i hi)
  · exact (hm _ (by omega) (by omega)).trans (hr i hi)

end Alloc

/-- The allocations `live` are what is out of the tiers. -/
structure Live (T : Tiers) (live : List Alloc) : Prop where
  raw : Raw.RawOk T (live.map Alloc.raw)
  ok : ∀ a ∈ live, a.Ok T.mem

section Live
variable {T : Tiers} {live : List Alloc} {a : Alloc}

theorem Live.raw_mem (ha : a ∈ live) : a.raw ∈ live.map Alloc.raw := List.mem_map_of_mem ha

theorem Live.fits (h : Live T live) (ha : a ∈ live) : a.raw.size ≤ a.raw.reserved := by
  obtain ⟨parts, segs, hr⟩ := h.raw.tiers
  exact (hr.ok _ (Live.raw_mem ha)).fits

/-- Where a live allocation lies. -/
theorem Live.bounds (h : Live T live) (ha : a ∈ live) :
    0 < a.raw.start ∧ a.raw.start + 16 ≤ a.ptr ∧
      a.ptr + a.size ≤ a.raw.start + a.raw.reserved + 16 ∧
      a.raw.start + a.raw.reserved + 16 < 2 ^ 64 := by
  obtain ⟨parts, segs, hr⟩ := h.raw.tiers
  have h1 := hr.span_bound (Live.raw_mem ha)
  have h2 := (h.ok a ha).placed.bounds (h.fits ha)
  omega

theorem Live.headerOf_ptr (h : Live T live) (ha : a ∈ live) : headerOf a.ptr = a.ptr - 16 := by
  have hb := h.bounds ha
  exact headerOf_eq (by omega) (by omega)

/-- User pointers are multiples of 16. -/
theorem Live.ptr_mod_16 (h : Live T live) (ha : a ∈ live) : a.ptr % 16 = 0 := by
  obtain ⟨parts, segs, hr⟩ := h.raw.tiers
  have h1 := hr.aligned (Live.raw_mem ha)
  have hp := (h.ok a ha).placed
  unfold Alloc.Placed Raw.Block.user at hp
  split at hp
  · omega
  · omega
  · exact Nat.mod_eq_zero_of_dvd ((Nat.dvd_of_mod_eq_zero hp.2.2.2.2.1).trans
      (Nat.dvd_of_mod_eq_zero hp.2.2.2.1))

theorem Live.header_mod_16 (h : Live T live) (ha : a ∈ live) : (a.ptr - 16) % 16 = 0 := by
  have h1 := h.ptr_mod_16 ha
  omega

/-- Two live allocations are one, or their raw blocks are apart. -/
theorem Live.eq_or_apart (h : Live T live) {d : Alloc} (ha : a ∈ live) (hd : d ∈ live) :
    a = d ∨ a.raw.span.Disjoint d.raw.span := by
  obtain ⟨parts, segs, hr⟩ := h.raw.tiers
  have hp := hr.apart
  rw [List.map_map, List.pairwise_map] at hp
  have hsymm : Std.Symm fun a d : Alloc => (Raw.Block.span ∘ Alloc.raw) a |>.Disjoint
      ((Raw.Block.span ∘ Alloc.raw) d) := ⟨fun _ _ h => h.symm⟩
  by_cases he : a = d
  · exact Or.inl he
  · exact Or.inr (hp.forall ha hd he)

theorem Alloc.range_inside (h : Live T live) (ha : a ∈ live) : a.range.Inside a.raw.span := by
  have hb := h.bounds ha
  unfold Span.Inside Alloc.range Raw.Block.span
  simp only
  omega

/-- A write into the user bytes of a live allocation. -/
theorem Live.write (h : Live T live) (ha : a ∈ live) {m' : Mem}
    (hm : ∀ x, ¬ a.range.Has x → m' x = T.mem x) : Live (T.setMem m') live := by
  have hb := h.bounds ha
  refine ⟨h.raw.write (Live.raw_mem ha) fun x hx => hm x fun hx' => hx ?_, fun d hd => ?_⟩
  · unfold Span.Has Alloc.range at hx'
    unfold Raw.Block.user
    simp only at hx'
    omega
  · refine (h.ok d hd).congr (h.fits hd) fun x hx hx' => hm x fun hxa => ?_
    rcases h.eq_or_apart ha hd with rfl | hap
    · exact hx' hxa
    · exact hap.not_has ((Alloc.range_inside h ha).has hxa) hx

/-- What the raw blocks keep, the allocations on them keep. -/
theorem Live.ok_keeps (h : Live T live) {w : World} {live' : List Alloc} (hsub : ∀ d ∈ live', d ∈ live)
    {busy : List Span} (hk : T.world.Keeps w ((live'.map Alloc.raw).map Raw.Block.span) busy) :
    ∀ d ∈ live', d.Ok w.mem := fun d hd =>
  (h.ok d (hsub d hd)).congr (h.fits (hsub d hd)) fun x hx _ =>
    hk.bytes d.raw.span (List.mem_map_of_mem (List.mem_map_of_mem hd)) x hx.1 hx.2

end Live

/-! ## Getting memory -/

/-- What the middle part of an allocation call may end in. -/
inductive AcquireOutcome (cfg : AllocatorConfig) (T : Tiers) (live : List Alloc) (shape : Shape)
    (size : Nat) : Except Error RawAllocation × Tiers → Prop
  | served {T' a} : Live T' (a :: live) → a.shape = shape → a.size = size →
      T.world.Keeps T'.world ((live.map Alloc.raw).map Raw.Block.span) [a.raw.span] →
      (cfg.enablePoisoning = true → ∀ x, a.range.Has x → T'.mem x = kAllocPoison) →
      a.Guarded T'.mem → a.raw.New T →
      AcquireOutcome cfg T live shape size (.ok ⟨a.ptr, a.raw.reserved⟩, T')
  | refused {T'} : Live T' live → T.world.Keeps T'.world ((live.map Alloc.raw).map Raw.Block.span) →
      T.world.refusals < T'.world.refusals →
      AcquireOutcome cfg T live shape size (.error .OutOfMemory, T')

section Acquire
variable {T : Tiers} {live : List Alloc} {a : Alloc} {cfg : AllocatorConfig}

/-- The memory after the poison of a new allocation. -/
def poisoned (cfg : AllocatorConfig) (m : Mem) (user size : Nat) : Mem :=
  if cfg.enablePoisoning then poisonOnAllocate m user size else m

theorem poisonNew_eq (cfg : AllocatorConfig) (T : Tiers) (user size : Nat) :
    poisonNew cfg T user size = T.setMem (poisoned cfg T.mem user size) := by
  unfold poisonNew poisoned
  split <;> rfl

theorem poisoned_of_not {m : Mem} {user size x : Nat} (hx : ¬ (user ≤ x ∧ x < user + size)) :
    poisoned cfg m user size x = m x := by
  unfold poisoned
  split
  · exact fill_of_not hx
  · rfl

/-- The writes that turn a new raw block into an allocation. -/
theorem Live.dress {T' : Tiers} (h : Live T live) (hraw : Raw.RawOk T' (a.raw :: live.map Alloc.raw))
    (hk : T.world.Keeps T'.world ((live.map Alloc.raw).map Raw.Block.span) [a.raw.span]) {m : Mem}
    (hm : ∀ x, ¬ (a.raw.user ≤ x ∧ x < a.raw.user + a.raw.reserved) → m x = T'.mem x)
    (hok : a.Ok m) : Live (T'.setMem m) (a :: live) ∧
      T.world.Keeps (T'.setMem m).world ((live.map Alloc.raw).map Raw.Block.span) [a.raw.span] := by
  obtain ⟨parts, segs, hr⟩ := hraw.tiers
  have hap : ∀ d ∈ live, a.raw.span.Disjoint d.raw.span := fun d hd =>
    (List.pairwise_cons.mp (List.map_cons .. ▸ hr.apart)).1 _
      (List.mem_map_of_mem (List.mem_map_of_mem hd))
  have hm' : ∀ x, ¬ a.raw.span.Has x → m x = T'.mem x := fun x hx => hm x fun hx' => hx (by
    unfold Raw.Block.user at hx'
    unfold Span.Has Raw.Block.span
    simp only
    omega)
  have hk' := hk.trans (World.Keeps.of_write hm' (l := (live.map Alloc.raw).map Raw.Block.span)
    fun u hu => by
      obtain ⟨b, hb, rfl⟩ := List.mem_map.mp hu
      obtain ⟨d, hd, rfl⟩ := List.mem_map.mp hb
      exact hap d hd)
  refine ⟨⟨hraw.write List.mem_cons_self hm, ?_⟩, hk'⟩
  exact List.forall_mem_cons.mpr ⟨hok, h.ok_keeps (fun _ hd => hd) hk'⟩

/-- A raw block as it comes from `rawAllocate`. -/
theorem raw_facts {raws : List Raw.Block} {b : Raw.Block} (h : Raw.RawOk T (b :: raws)) :
    b.user % 16 = 0 ∧ b.size ≤ b.reserved ∧ b.user + b.reserved < 2 ^ 64 ∧ 16 < b.user ∧
      BlockHeader.load T.mem (b.user - 16) = rawHeader b.size b.tier := by
  obtain ⟨parts, segs, hr⟩ := h.tiers
  have h1 := hr.aligned List.mem_cons_self
  have h2 := (hr.ok b List.mem_cons_self).fits
  have h3 := hr.span_bound List.mem_cons_self
  have h4 := h.header b List.mem_cons_self
  unfold Raw.Block.user
  rw [Nat.add_sub_cancel]
  exact ⟨by omega, h2, by omega, by omega, h4⟩

theorem plain_ok {raws : List Raw.Block} {b : Raw.Block} (h : Raw.RawOk T (b :: raws))
    (hpos : 0 < b.size) (hmax : b.size ≤ kMaxRequest) : Alloc.Ok T.mem ⟨b.user, b.size, .plain, b⟩ :=
  ⟨hpos, hmax, ⟨rfl, rfl⟩, (raw_facts h).2.2.2.2⟩

/-- The memory after `applyGuards`, with the address of the shim computed. -/
def guardsAt (m : Mem) (raw size : Nat) : Mem :=
  BlockHeader.store (fill (fill m raw 16 kGuardPattern) (raw + 32 + size) 32 kGuardPattern) (raw + 16)
    (debugShim size)

theorem applyGuards_eq (m : Mem) {raw size : Nat} (hb : raw + 32 < 2 ^ 64) :
    applyGuards m raw size = (raw + 32, guardsAt m raw size) := by
  have hhead : headerOf (raw + kFrontGuardSize) = raw + 16 :=
    (headerOf_eq (show 16 ≤ raw + 32 by omega) (show raw + 32 < 2 ^ 64 by omega)).trans
      (show raw + 32 - 16 = raw + 16 by omega)
  unfold applyGuards guardsAt
  dsimp only
  rw [hhead]
  rfl

theorem guarded_ok {m : Mem} {b : Raw.Block} {size : Nat} (hpos : 0 < size) (hmax : size ≤ kMaxRequest)
    (hsz : b.size = size + 64) : Alloc.Ok (guardsAt m b.user size) ⟨b.user + 32, size, .guarded, b⟩ ∧
      Alloc.Guarded (guardsAt m b.user size) ⟨b.user + 32, size, .guarded, b⟩ := by
  have hmax' : size ≤ 2 ^ 46 := hmax
  unfold guardsAt
  refine ⟨⟨hpos, hmax, ⟨rfl, hsz⟩, ?_⟩, fun _ => ⟨fun i hi => ?_, fun i hi => ?_⟩⟩
  · show BlockHeader.load _ (b.user + 32 - 16) = debugShim size
    rw [show b.user + 32 - 16 = b.user + 16 by omega]
    exact BlockHeader.load_store ⟨show size < 2 ^ 64 by omega, (by decide : 0x55 < 2 ^ 16),
      (by decide : 0xA11C < 2 ^ 16), (by decide : 32 < 2 ^ 32)⟩
  · rw [BlockHeader.store_of_not (by simp only; omega), fill_of_not (by simp only; omega),
      fill_of_mem (by simp only; omega)]
  · rw [BlockHeader.store_of_not (by simp only; omega), fill_of_mem (by simp only; omega)]

theorem guardsAt_outside {m : Mem} {raw size x : Nat} (hx : ¬ (raw ≤ x ∧ x < raw + (size + 64))) :
    guardsAt m raw size x = m x := by
  unfold guardsAt
  rw [BlockHeader.store_of_not (by omega), fill_of_not (by omega), fill_of_not (by omega)]

theorem poisoned_ok {m : Mem} (h : a.Ok m) (hfit : a.raw.size ≤ a.raw.reserved) :
    a.Ok (poisoned cfg m a.ptr a.size) :=
  h.congr hfit fun _ _ hx => poisoned_of_not hx

theorem poisoned_all {m : Mem} (hp : cfg.enablePoisoning = true) {x : Nat} (hx : a.range.Has x) :
    poisoned cfg m a.ptr a.size x = kAllocPoison := by
  unfold poisoned
  rw [if_pos hp]
  exact fill_of_mem hx

/-- **`acquire`**. -/
theorem acquire_spec (h : Live T live) (cfg : AllocatorConfig) (t : Nat) {size : Nat} (hpos : 0 < size)
    (hmax : size ≤ kMaxRequest) : AcquireOutcome cfg T live
      (if cfg.enableGuardBytes then .guarded else .plain) size (acquire cfg T t size) := by
  have hmax' : size ≤ 2 ^ 46 := hmax
  unfold acquire
  by_cases hg : cfg.enableGuardBytes = true
  · rw [if_pos hg, if_pos hg]
    have hgs : guardedSize size = size + 64 := by
      unfold guardedSize
      change (size + 32 + 32) % 2 ^ 64 = size + 64
      omega
    rw [hgs]
    have hout := Raw.rawAllocate_spec h.raw cfg.enableThreadCache t (n := size + 64) (by omega)
    generalize T.rawAllocate cfg.enableThreadCache t (size + 64) = q at *
    cases hout with
    | @refused T1 hok hk href =>
      exact AcquireOutcome.refused ⟨hok, h.ok_keeps (fun _ hd => hd) hk⟩ hk href
    | @served T1 b hok hsz hk hnew =>
      dsimp only
      obtain ⟨-, hfit, hbd, -, -⟩ := raw_facts hok
      have hgok := guarded_ok (m := T1.mem) hpos hmax hsz
      rw [applyGuards_eq _ (show b.user + 32 < 2 ^ 64 by omega)]
      dsimp only
      rw [poisonNew_eq, Tiers.setMem_setMem, Tiers.setMem_mem]
      have hd := h.dress (a := ⟨b.user + 32, size, .guarded, b⟩) hok hk
        (m := poisoned cfg (guardsAt T1.mem b.user size) (b.user + 32) size) (fun x hx => by
          simp only at hx
          exact (poisoned_of_not (by omega)).trans (guardsAt_outside (by omega)))
        (poisoned_ok hgok.1 hfit)
      refine AcquireOutcome.served hd.1 rfl rfl hd.2
        (fun hp x hx => poisoned_all (a := ⟨b.user + 32, size, .guarded, b⟩) hp hx) ?_ hnew
      exact hgok.2.congr hgok.1.placed hfit fun _ _ hx => poisoned_of_not hx
  · rw [if_neg hg, if_neg hg]
    have hout := Raw.rawAllocate_spec h.raw cfg.enableThreadCache t (n := size) (by omega)
    generalize T.rawAllocate cfg.enableThreadCache t size = q at *
    cases hout with
    | @refused T1 hok hk href =>
      exact AcquireOutcome.refused ⟨hok, h.ok_keeps (fun _ hd => hd) hk⟩ hk href
    | @served T1 b hok hsz hk hnew =>
      subst hsz
      dsimp only
      obtain ⟨-, hfit, hbd, -, -⟩ := raw_facts hok
      rw [poisonNew_eq]
      have hd := h.dress (a := ⟨b.user, b.size, .plain, b⟩) hok hk
        (m := poisoned cfg T1.mem b.user b.size) (fun x hx => by
          simp only at hx
          exact poisoned_of_not (by omega))
        (poisoned_ok (plain_ok hok hpos hmax) hfit)
      exact AcquireOutcome.served hd.1 rfl rfl hd.2
        (fun hp x hx => poisoned_all (a := ⟨b.user, b.size, .plain, b⟩) hp hx) (fun e => by cases e) hnew

/-- The address of an over-aligned pointer: behind the raw one by at least a shim header and at
    most the alignment. -/
theorem alignedAddressOf_spec {r k : Nat} (hk : 4 < k) (hk' : k ≤ 30) (hr : r % 16 = 0)
    (hb : r + 2 ^ k < 2 ^ 64) :
    r + 16 ≤ alignedAddressOf r (2 ^ k) ∧ alignedAddressOf r (2 ^ k) ≤ r + 2 ^ k ∧
      alignedAddressOf r (2 ^ k) % 2 ^ k = 0 := by
  have hpos := Nat.two_pow_pos k
  have h32 : 2 ^ k % 32 = 0 := by
    obtain ⟨j, rfl⟩ := Nat.exists_eq_add_of_le hk
    rw [pow_add]
    exact Nat.mul_mod_right _ _
  have hup : alignUp r (2 ^ k) = (r + 2 ^ k - 1) / 2 ^ k * 2 ^ k := by
    rw [alignUp_two_pow (by omega), Nat.mod_eq_of_lt (by omega)]
  have hdm := Nat.div_add_mod (r + 2 ^ k - 1) (2 ^ k)
  have hlt := Nat.mod_lt (r + 2 ^ k - 1) hpos
  rw [Nat.mul_comm] at hdm
  -- the rounded address is a multiple of 16, like `r`
  have h16 : (r + 2 ^ k - 1) / 2 ^ k * 2 ^ k % 16 = 0 := by
    rw [Nat.mul_mod, show 2 ^ k % 16 = 0 by omega, Nat.mul_zero]
  have hmod : (r + 2 ^ k - 1) / 2 ^ k * 2 ^ k % 2 ^ k = 0 := Nat.mul_mod_left _ _
  unfold alignedAddressOf
  rw [hup]
  dsimp only
  by_cases he : (r + 2 ^ k - 1) / 2 ^ k * 2 ^ k = r
  · rw [if_pos he, he, Nat.mod_eq_of_lt hb]
    refine ⟨by omega, Nat.le_refl _, ?_⟩
    rw [Nat.add_mod_right, ← he, hmod]
  · rw [if_neg he]
    exact ⟨by omega, by omega, hmod⟩

/-- **`acquireAligned`**. -/
theorem acquireAligned_spec (h : Live T live) (cfg : AllocatorConfig) (t : Nat) {size alignment : Nat}
    (hpos : 0 < size) (hmax : size ≤ kMaxRequest) (hpow : isPowerOfTwo alignment = true)
    (hlo : 16 < alignment) (hhi : alignment ≤ 2 ^ 30) :
    AcquireOutcome cfg T live (.aligned alignment) size (acquireAligned cfg T t alignment size) := by
  have hmax' : size ≤ 2 ^ 46 := hmax
  obtain ⟨k, rfl⟩ := isPowerOfTwo_iff.mp hpow
  have hk : 4 < k := (Nat.pow_lt_pow_iff_right (show 1 < 2 by decide)).mp (show 2 ^ 4 < 2 ^ k from hlo)
  have hk' : k ≤ 30 := (Nat.pow_le_pow_iff_right (show 1 < 2 by decide)).mp hhi
  unfold acquireAligned
  rw [Nat.mod_eq_of_lt (show size + 2 ^ k < 2 ^ 64 by omega)]
  have hout := Raw.rawAllocate_spec h.raw cfg.enableThreadCache t (n := size + 2 ^ k) (by omega)
  generalize T.rawAllocate cfg.enableThreadCache t (size + 2 ^ k) = q at *
  cases hout with
  | @refused T1 hok hk href =>
    exact AcquireOutcome.refused ⟨hok, h.ok_keeps (fun _ hd => hd) hk⟩ hk href
  | @served T1 b hok hsz hkeep hnew =>
    obtain ⟨h16, hfit, hbd, hlow, -⟩ := raw_facts hok
    obtain ⟨h1, h2, h3⟩ := alignedAddressOf_spec hk hk' h16 (show b.user + 2 ^ k < 2 ^ 64 by omega)
    dsimp only
    generalize alignedAddressOf b.user (2 ^ k) = u at *
    have hhead : headerOf u = u - 16 := headerOf_eq (by omega) (by omega)
    have hoff : ptrSub u b.user = u - b.user := ptrSub_eq (by omega) (by omega)
    rw [hhead, hoff, poisonNew_eq, Tiers.setMem_setMem, Tiers.setMem_mem]
    have haok : Alloc.Ok (BlockHeader.store T1.mem (u - 16) (alignedShim size (u - b.user)))
        ⟨u, size, .aligned (2 ^ k), b⟩ := by
      refine ⟨hpos, hmax, ⟨hsz, h1, h2, h3, ?_, hlo, hhi⟩, ?_⟩
      · obtain ⟨j, rfl⟩ := Nat.exists_eq_add_of_le hk.le
        rw [pow_add]
        exact Nat.mul_mod_right _ _
      · exact BlockHeader.load_store ⟨show size < 2 ^ 64 by omega, (by decide : 0x54 < 2 ^ 16),
          (by decide : 0xA11C < 2 ^ 16), Nat.mod_lt _ (by decide)⟩
    have hd := h.dress (a := ⟨u, size, .aligned (2 ^ k), b⟩) hok hkeep
      (m := poisoned cfg (BlockHeader.store T1.mem (u - 16) (alignedShim size (u - b.user))) u size)
      (fun x hx => by
        simp only at hx
        exact (poisoned_of_not (by omega)).trans (BlockHeader.store_of_not (by omega)))
      (poisoned_ok haok hfit)
    exact AcquireOutcome.served hd.1 rfl rfl hd.2
      (fun hp x hx => poisoned_all (a := ⟨u, size, .aligned (2 ^ k), b⟩) hp hx) (fun e => by cases e) hnew

end Acquire

/-! ## Giving memory back -/

/-- What an allocation leaves behind: a header that is not the header of an allocated block, or no
    mapped byte. -/
structure Alloc.Gone (T : Tiers) (a : Alloc) : Prop where
  dead : a.raw.tier ≠ .Large → BlockHeader.Dead T.mem (a.ptr - 16)
  unmapped : a.raw.tier = .Large → ∀ r ∈ T.world.mapped, r.Disjoint a.raw.region

/-- What giving back the allocation `a` does to the memory. -/
structure Released (T : Tiers) (live : List Alloc) (a : Alloc) (T' : Tiers) : Prop where
  live' : Live T' (live.erase a)
  keeps : T.world.Keeps T'.world (((live.erase a).map Alloc.raw).map Raw.Block.span) [a.raw.span]
  refusals : T'.world.refusals = T.world.refusals
  gone : a.Gone T'

section Release
variable {T : Tiers} {live : List Alloc} {a : Alloc} {cfg : AllocatorConfig}

theorem raw_erase (ha : a ∈ live) :
    ((live.map Alloc.raw).erase a.raw).Perm ((live.erase a).map Alloc.raw) := by
  have hp := ((List.perm_cons_erase ha).map Alloc.raw).erase a.raw
  rwa [List.map_cons, List.erase_cons_head] at hp

/-- After writes that keep the other blocks, the raw block goes back. -/
theorem Live.shrink (h : Live T live) (ha : a ∈ live) {T1 : Tiers} (h1 : Raw.RawOk T1 (live.map Alloc.raw))
    (hk : T.world.Keeps T1.world (((live.erase a).map Alloc.raw).map Raw.Block.span) [a.raw.span])
    (hrf : T1.world.refusals = T.world.refusals)
    (hdead : BlockHeader.Dead (BlockHeader.setState T1.mem a.raw.start kStateFreed) (a.ptr - 16))
    (enabled : Bool) (t : Nat) :
    ∃ T', T1.rawDeallocate enabled t a.raw.user = (.ok a.raw.reserved, T') ∧ Released T live a T' := by
  obtain ⟨T', he, hf⟩ := Raw.rawDeallocate_spec h1 (Live.raw_mem ha) enabled t
  have hgone : a.Gone T' := ⟨fun ht => hdead.of_tame (hf.marked ht _ (h.header_mod_16 ha)), hf.gone⟩
  have hk1 : T1.world.Keeps T'.world (((live.erase a).map Alloc.raw).map Raw.Block.span) [a.raw.span] :=
    hf.keeps.subset ((raw_erase ha).symm.map _).subset
  have hk2 := hk.trans hk1
  exact ⟨T', he, ⟨hf.ok.perm (raw_erase ha), h.ok_keeps (fun _ => List.mem_of_mem_erase) hk2⟩, hk2,
    hf.refusals.trans hrf, hgone⟩

/-- A write behind the raw header of `a` keeps the other blocks. -/
theorem Live.keeps_raw (h : Live T live) (ha : a ∈ live) {m : Mem}
    (hm : ∀ x, ¬ (a.raw.user ≤ x ∧ x < a.raw.user + a.raw.reserved) → m x = T.mem x) :
    T.world.Keeps (T.setMem m).world (((live.erase a).map Alloc.raw).map Raw.Block.span)
      [a.raw.span] := by
  obtain ⟨parts, segs, hr⟩ := h.raw.tiers
  have hk := hr.keeps_write (Live.raw_mem ha) (m := m) fun x hx => hm x fun hx' => hx (by
    unfold Raw.Block.user at hx'
    unfold Span.Has Raw.Block.span
    simp only
    omega)
  exact hk.subset ((raw_erase ha).symm.map _).subset

theorem setState_keeps_offset {m : Mem} {x v : Nat} :
    (BlockHeader.load (BlockHeader.setState m x v) x).offset = (BlockHeader.load m x).offset :=
  readLE_writeLE_of_disjoint (Or.inr (by omega))

/-- The raw pointer is found through the offset of a shim. -/
theorem Alloc.Ok.raw_of_offset {m : Mem} (h : a.Ok m) (hs : a.shape ≠ .plain) (hb : a.ptr < 2 ^ 64) :
    ptrSub a.ptr a.header.offset = a.raw.user := by
  have hp := h.placed
  unfold Alloc.Placed at hp
  unfold Alloc.header
  cases hsh : a.shape with
  | plain => exact absurd hsh hs
  | guarded =>
    rw [hsh] at hp
    dsimp only at hp ⊢
    change ptrSub a.ptr 32 = a.raw.user
    rw [ptrSub_eq (by omega) hb]
    omega
  | aligned alignment =>
    rw [hsh] at hp
    dsimp only at hp ⊢
    change ptrSub a.ptr ((a.ptr - a.raw.user) % 2 ^ 32) = a.raw.user
    rw [Nat.mod_eq_of_lt (by omega), ptrSub_eq (by omega) hb]
    omega

/-- The two shims give back the raw block behind them. -/
theorem releaseShim_spec (cfg : AllocatorConfig) (h : Live T live) (ha : a ∈ live) (hs : a.shape ≠ .plain) (t : Nat) :
    ∃ T', releaseShim cfg T t a.ptr = (.ok a.raw.reserved, T') ∧ Released T live a T' := by
  have hb := h.bounds ha
  have hok := h.ok a ha
  have hfit := h.fits ha
  have hsh := hok.placed.shim hs
  have hm : ∀ x, ¬ (a.raw.user ≤ x ∧ x < a.raw.user + a.raw.reserved) →
      BlockHeader.setState T.mem (a.ptr - 16) kStateFreed x = T.mem x := fun x hx =>
    BlockHeader.setState_of_not (by unfold Raw.Block.user at hx; omega)
  have hoff : (BlockHeader.load (BlockHeader.setState T.mem (a.ptr - 16) kStateFreed) (a.ptr - 16)).offset =
      a.header.offset := setState_keeps_offset.trans (congrArg BlockHeader.offset hok.header)
  unfold releaseShim
  rw [h.headerOf_ptr ha]
  dsimp only
  rw [Tiers.setMem_mem, hoff, hok.raw_of_offset hs (by omega)]
  refine h.shrink ha (h.raw.write (Live.raw_mem ha) hm) (h.keeps_raw ha hm) rfl ?_ _ t
  -- the raw header lies in front of the shim
  refine (BlockHeader.dead_setState T.mem (a.ptr - 16)).of_tame (TameAt.of_same fun x h1 h2 => ?_)
  exact BlockHeader.setState_of_not (by omega)

/-- The memory after the poison of a block that goes. -/
def poisonedOld (cfg : AllocatorConfig) (m : Mem) (ptr size : Nat) : Mem :=
  if cfg.enablePoisoning then poisonOnFree m ptr size else m

theorem poisonOld_eq (cfg : AllocatorConfig) (T : Tiers) (ptr size : Nat) :
    poisonOld cfg T ptr size = T.setMem (poisonedOld cfg T.mem ptr size) := by
  unfold poisonOld poisonedOld
  split <;> rfl

theorem poisonedOld_of_not {m : Mem} {ptr size x : Nat} (hx : ¬ (ptr ≤ x ∧ x < ptr + size)) :
    poisonedOld cfg m ptr size x = m x := by
  unfold poisonedOld
  split
  · exact fill_of_not hx
  · rfl

/-- From a state that differs by writes into the user bytes, the same allocation goes. -/
theorem Released.of_write {T1 T' : Tiers} (hk : T.world.Keeps T1.world
      (((live.erase a).map Alloc.raw).map Raw.Block.span) [a.raw.span])
    (hrf : T1.world.refusals = T.world.refusals) (h : Released T1 live a T') : Released T live a T' :=
  ⟨h.live', hk.trans h.keeps, h.refusals.trans hrf, h.gone⟩

theorem Alloc.header_size (a : Alloc) : a.header.payloadSize = a.size := by
  unfold Alloc.header
  cases a.shape <;> rfl

theorem Alloc.header_state (a : Alloc) : a.header.state = kStateAllocated := by
  unfold Alloc.header
  cases a.shape <;> rfl

theorem Alloc.header_valid (a : Alloc) : a.header.hasValidTier = true := by
  unfold Alloc.header
  cases a.shape with
  | plain => exact BlockHeader.hasValidTier_of_code (t := a.raw.tier) rfl
  | guarded => exact BlockHeader.hasValidTier_of_code (t := .DebugShim) rfl
  | aligned alignment => exact BlockHeader.hasValidTier_of_code (t := .AlignedShim) rfl

theorem Alloc.header_tier (a : Alloc) : a.header.tierValue = match a.shape with
    | .plain => some a.raw.tier
    | .guarded => some .DebugShim
    | .aligned _ => some .AlignedShim := by
  unfold Alloc.header
  cases a.shape with
  | plain => exact BlockHeader.tierValue_of_code rfl
  | guarded => exact BlockHeader.tierValue_of_code rfl
  | aligned alignment => exact BlockHeader.tierValue_of_code rfl

/-- **`release`** of a live allocation. -/
theorem release_spec (h : Live T live) (ha : a ∈ live) (cfg : AllocatorConfig) (t : Nat) :
    ∃ T', release cfg T t a.ptr a.header = (.ok a.raw.reserved, T') ∧ Released T live a T' := by
  have hb := h.bounds ha
  have hok := h.ok a ha
  have hout : ∀ x, ¬ a.range.Has x → poisonedOld cfg T.mem a.ptr a.size x = T.mem x := fun x hx =>
    poisonedOld_of_not hx
  have h1 := h.write ha hout
  have hk1 := h.keeps_raw ha (m := poisonedOld cfg T.mem a.ptr a.size) fun x hx =>
    poisonedOld_of_not (by unfold Raw.Block.user at hx; omega)
  unfold release
  rw [a.header_size, poisonOld_eq, a.header_tier]
  dsimp only
  cases hsh : a.shape with
  | guarded =>
    obtain ⟨T', he, hrel⟩ := releaseShim_spec cfg h1 ha (by rw [hsh]; simp) t
    exact ⟨T', he, hrel.of_write hk1 rfl⟩
  | aligned alignment =>
    obtain ⟨T', he, hrel⟩ := releaseShim_spec cfg h1 ha (by rw [hsh]; simp) t
    exact ⟨T', he, hrel.of_write hk1 rfl⟩
  | plain =>
    have hp := hok.placed
    unfold Alloc.Placed at hp
    rw [hsh] at hp
    have hstart : a.raw.start = a.ptr - 16 := by
      rw [hp.1]
      exact (Nat.add_sub_cancel _ _).symm
    obtain ⟨T', he, hrel⟩ := h1.shrink ha h1.raw (World.Keeps.refl _ _) rfl
      (by rw [hstart]; exact BlockHeader.dead_setState _ _) cfg.enableThreadCache t
    rw [← hp.1] at he
    refine ⟨T', ?_, hrel.of_write hk1 rfl⟩
    obtain ⟨parts, segs, hr⟩ := h.raw.tiers
    rcases (hr.ok _ (Live.raw_mem ha)).tiers with ht | ht | ht
    · rw [ht]
      exact he
    · rw [ht]
      exact he
    · rw [ht]
      exact he

/-- Behind a live allocation no address wraps. -/
theorem Live.rearAt_eq (h : Live T live) (ha : a ∈ live) (hs : a.shape = .guarded) {i : Nat} (hi : i < 32) :
    rearAt a.ptr a.size i = a.ptr + a.size + i := by
  have hb := h.bounds ha
  have hfit := h.fits ha
  obtain ⟨hp, hsz⟩ := (h.ok a ha).placed.guarded hs
  exact DebugLayer.rearAt_eq (by omega)

/-- Intact guards pass the check. -/
theorem corrupt_eq_false (h : Live T live) (ha : a ∈ live) (hg : a.Guarded T.mem)
    (cfg : AllocatorConfig) : corrupt cfg T.mem a.ptr a.header = false := by
  have hb := h.bounds ha
  have hok := h.ok a ha
  unfold corrupt
  rw [a.header_tier, a.header_size]
  cases hsh : a.shape with
  | plain =>
    obtain ⟨parts, segs, hr⟩ := h.raw.tiers
    rcases (hr.ok _ (Live.raw_mem ha)).tiers with ht | ht | ht <;> rw [ht] <;> rfl
  | aligned alignment => rfl
  | guarded =>
    obtain ⟨hf, hrear⟩ := hg hsh
    obtain ⟨hp, -⟩ := hok.placed.guarded hsh
    have hsub : ptrSub a.ptr kFrontGuardSize = a.raw.user := by
      refine (ptrSub_eq (show 32 ≤ a.ptr by omega) (by omega)).trans ?_
      change a.ptr - 32 = a.raw.start + 16
      omega
    have hv : verifyGuards T.mem a.ptr a.size = true := by
      unfold verifyGuards
      rw [hsub, Bool.and_eq_true, List.all_eq_true, List.all_eq_true]
      refine ⟨fun i hi => decide_eq_true (hf i (List.mem_range.mp hi)), fun i hi => decide_eq_true ?_⟩
      rw [h.rearAt_eq ha hsh (List.mem_range.mp hi)]
      exact hrear i (List.mem_range.mp hi)
    rw [hv, Bool.not_true, Bool.and_false]

end Release

end MAlloc.Client
