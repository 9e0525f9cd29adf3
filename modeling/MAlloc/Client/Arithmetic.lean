/-
  The size arithmetic of a request.

  `Request.computed` lists the 64-bit computations on the path of a request, in the order of the
  source: the word the code gets (`word`, the model's own term where it has a name for it) and the number
  the expression stands for (`exact`). A request that passes the two checks of its arguments asks the
  tiers for at most `2^46 + 2^30` bytes, so no sum comes near `2^64` (`rawComputed_exact`). What the tiers
  give back is in their books (`RawTiers`), so the differences are exact too (`capacity_exact`).
-/
import MAlloc.Client.Aligned
import MAlloc.Model.StlAllocator

namespace MAlloc.Client

open Lib AllocatorImpl DebugLayer SizeClassTable SystemMemory PoolAllocator

/-- A word, and the number it should be. -/
structure Computed where
  word : Nat
  exact : Int
  deriving DecidableEq, Repr

namespace Computed

def Exact (k : Computed) : Prop := (k.word : Int) = k.exact

def plus (a b : Nat) : Computed := ⟨(a + b) % 2 ^ 64, a + b⟩

def minus (a b : Nat) : Computed := ⟨(a + (2 ^ 64 - b)) % 2 ^ 64, a - b⟩

def times (a b : Nat) : Computed := ⟨a * b % 2 ^ 64, a * b⟩

/-- `alignUp(value, alignment)`. -/
def rounded (value alignment : Nat) : List Computed :=
  [plus value alignment, minus ((value + alignment) % 2 ^ 64) 1,
    ⟨alignUp value alignment, ((value + alignment - 1) / alignment * alignment : Nat)⟩]

/-- `roundToPages(size)`. -/
def pages (page : PageSize) (size : Nat) : List Computed :=
  [plus size page.bytes, minus ((size + page.bytes) % 2 ^ 64) 1,
    ⟨roundToPages page size, ((size + page.bytes - 1) / page.bytes * page.bytes : Nat)⟩]

/-- The computations before the tier is asked: the class and the stride of its blocks, the block of a
    segment, the region. -/
def small (page : PageSize) (size : Nat) : List Computed :=
  [plus size kGranularity, minus ((size + kGranularity) % 2 ^ 64) 1,
    plus kHeaderSize (classSize (classIndex size))] ++
    rounded ((kHeaderSize + classSize (classIndex size)) % 2 ^ 64) kDefaultAlignment ++
    pages page kRunSize

def medium (page : PageSize) (size : Nat) : List Computed :=
  [plus size kHeaderSize] ++ rounded ((size + kHeaderSize) % 2 ^ 64) kDefaultAlignment ++
    [plus (alignUp ((size + kHeaderSize) % 2 ^ 64) kDefaultAlignment) SegmentHeap.kBlockHeaderSize] ++
    pages page SegmentHeap.kSegmentSize

def large (page : PageSize) (size : Nat) : List Computed :=
  [plus size kHeaderSize, plus ((size + kHeaderSize) % 2 ^ 64) LargeAllocator.kPayloadOffset] ++
    pages page (((size + kHeaderSize) % 2 ^ 64 + LargeAllocator.kPayloadOffset) % 2 ^ 64)

/-- `payloadCapacity(payload) - kHeaderSize`, the capacity being `whole - tag`. -/
def capacity (whole tag : Nat) : List Computed :=
  [minus whole tag, minus ((whole + (2 ^ 64 - tag)) % 2 ^ 64) kHeaderSize]

/-- The computations after the tier has served the request. -/
def served (T : Tiers) (size payload : Nat) : List Computed :=
  if size ≤ kSmallMax then []
  else if size ≤ kMediumMax then
    capacity (MediumBlock.size T.mem (SegmentHeap.blockOf payload)) SegmentHeap.kBlockHeaderSize
  else
    match T.large.lookup payload with
    | some region => capacity region.size LargeAllocator.kPayloadOffset
    | none => []

/-- The computations of `rawAllocate(size)`. -/
def raw (enabled : Bool) (T : Tiers) (t size : Nat) : List Computed :=
  (if size ≤ kSmallMax then small T.world.page size
    else if size ≤ kMediumMax then medium T.world.page size
    else large T.world.page size) ++
  match T.rawAllocate enabled t size with
  | (.ok r, T') => served T' size (headerOf r.user)
  | (.error _, _) => []

/-- The user address `alignedAllocate` computes from the raw one, and its distance. -/
def address (r alignment size : Nat) : List Computed :=
  rounded r alignment ++
    (if alignUp r alignment = r then [plus (alignUp r alignment) alignment] else []) ++
    [minus (alignedAddressOf r alignment) r,
      ⟨(alignedShim size (ptrSub (alignedAddressOf r alignment) r)).offset,
        (alignedAddressOf r alignment : Int) - r⟩]

/-- `guardedSize(size)`, when guards are on. -/
def guards (cfg : AllocatorConfig) (size : Nat) : List Computed :=
  if cfg.enableGuardBytes then
    [plus size kFrontGuardSize, plus ((size + kFrontGuardSize) % 2 ^ 64) kRearGuardSize,
      ⟨guardedSize size, size + 64⟩]
  else []

end Computed

namespace Request

/-- The size `rawAllocate` is asked for. -/
def asked (cfg : AllocatorConfig) : Request → Nat
  | .allocate size =>
    if cfg.enableGuardBytes then guardedSize (atLeastOne size) else atLeastOne size
  | .alignedAllocate alignment size =>
    if alignment ≤ kDefaultAlignment then
      if cfg.enableGuardBytes then guardedSize (atLeastOne size) else atLeastOne size
    else (atLeastOne size + alignment) % 2 ^ 64

/-- What `allocate`, or `alignedAllocate`, computes before `rawAllocate`. -/
def before (cfg : AllocatorConfig) : Request → List Computed
  | .allocate size => Computed.guards cfg (atLeastOne size)
  | .alignedAllocate alignment size =>
    if alignment ≤ kDefaultAlignment then Computed.guards cfg (atLeastOne size)
    else [.plus (atLeastOne size) alignment]

/-- What `alignedAllocate` computes from the raw block. -/
def after (r : RawAllocation) : Request → List Computed
  | .allocate _ => []
  | .alignedAllocate alignment size =>
    if alignment ≤ kDefaultAlignment then []
    else Computed.address r.user alignment (atLeastOne size)

/-- The 64-bit computations of a request that passes the checks. -/
def computed (s : AllocatorImpl) (t : Nat) (r : Request) : List Computed :=
  r.before s.config ++ Computed.raw s.config.enableThreadCache s.tiers t (r.asked s.config) ++
  match s.tiers.rawAllocate s.config.enableThreadCache t (r.asked s.config) with
  | (.ok raw, _) => r.after raw
  | (.error _, _) => []

end Request

/-! ## Exactness -/

namespace Computed

theorem plus_exact {a b : Nat} (h : a + b < 2 ^ 64) : (plus a b).Exact := by
  unfold Exact plus
  rw [Nat.mod_eq_of_lt h]
  exact Int.natCast_add a b

theorem minus_exact {a b : Nat} (h : b ≤ a) (ha : a < 2 ^ 64) : (minus a b).Exact := by
  unfold Exact minus
  rw [show (a + (2 ^ 64 - b)) % 2 ^ 64 = a - b by omega]
  exact Int.natCast_sub h

theorem times_exact {a b : Nat} (h : a * b < 2 ^ 64) : (times a b).Exact := by
  unfold Exact times
  rw [Nat.mod_eq_of_lt h]
  exact Int.natCast_mul a b

theorem rounded_exact {v k : Nat} (hk : k < 64) (h : v + 2 ^ k < 2 ^ 64) :
    ∀ c ∈ rounded v (2 ^ k), c.Exact := by
  have hpos := Nat.two_pow_pos k
  have hmod : (v + 2 ^ k) % 2 ^ 64 = v + 2 ^ k := Nat.mod_eq_of_lt h
  have hup : alignUp v (2 ^ k) = (v + 2 ^ k - 1) / 2 ^ k * 2 ^ k := by
    rw [alignUp_two_pow hk, Nat.mod_eq_of_lt (by omega)]
  unfold rounded
  intro c hc
  rw [hmod] at hc
  rcases List.mem_cons.mp hc with rfl | hc
  · exact plus_exact h
  rcases List.mem_cons.mp hc with rfl | hc
  · exact minus_exact (by omega) h
  · rw [List.mem_singleton.mp hc]
    exact congrArg Nat.cast hup

theorem pages_exact {page : PageSize} {size : Nat} (h : size + 2 ^ 30 < 2 ^ 64) :
    ∀ c ∈ pages page size, c.Exact := by
  have hb := page.bounds
  have hmod : (size + page.bytes) % 2 ^ 64 = size + page.bytes := Nat.mod_eq_of_lt (by omega)
  unfold pages
  intro c hc
  rw [hmod] at hc
  rcases List.mem_cons.mp hc with rfl | hc
  · exact plus_exact (by omega)
  rcases List.mem_cons.mp hc with rfl | hc
  · exact minus_exact (by omega) (by omega)
  · rw [List.mem_singleton.mp hc]
    exact congrArg Nat.cast (roundToPages_eq (by omega))

theorem capacity_exact {whole : Nat} (h : 32 ≤ whole) (hlt : whole < 2 ^ 64) :
    ∀ c ∈ capacity whole 16, c.Exact := by
  unfold capacity
  rw [show (whole + (2 ^ 64 - 16)) % 2 ^ 64 = whole - 16 by omega]
  intro c hc
  rcases List.mem_cons.mp hc with rfl | hc
  · exact minus_exact (by omega) hlt
  · rw [List.mem_singleton.mp hc]
    exact minus_exact (show 16 ≤ whole - 16 by omega) (by omega)

theorem small_exact {page : PageSize} {size : Nat} (h : size ≤ kSmallMax) :
    ∀ c ∈ small page size, c.Exact := by
  have h1 : size ≤ 4096 := h
  have hcls := (classSize_bounds (classIndex size) (classIndex_lt h)).2
  have hstep : (size + 8) % 2 ^ 64 = size + 8 := Nat.mod_eq_of_lt (by omega)
  have hhead : (16 + classSize (classIndex size)) % 2 ^ 64 = 16 + classSize (classIndex size) :=
    Nat.mod_eq_of_lt (by omega)
  unfold small
  intro c hc
  rw [show kGranularity = 8 from rfl, show kHeaderSize = 16 from rfl, hstep, hhead] at hc
  rcases List.mem_append.mp hc with hc | hc
  · rcases List.mem_append.mp hc with hc | hc
    · rcases List.mem_cons.mp hc with rfl | hc
      · exact plus_exact (by omega)
      rcases List.mem_cons.mp hc with rfl | hc
      · exact minus_exact (by omega) (by omega)
      · rw [List.mem_singleton.mp hc]
        exact plus_exact (by omega)
    · exact rounded_exact (k := 4) (by decide) (by omega) c hc
  · exact pages_exact (by decide) c hc

theorem medium_exact {page : PageSize} {size : Nat} (h : size ≤ kMediumMax) :
    ∀ c ∈ medium page size, c.Exact := by
  have h1 : size ≤ 262144 := h
  have hsum : (size + 16) % 2 ^ 64 = size + 16 := Nat.mod_eq_of_lt (by omega)
  have hup : alignUp (size + 16) 16 = (size + 16 + 15) / 16 * 16 := alignUp_16 (by omega)
  unfold medium
  intro c hc
  rw [show kHeaderSize = 16 from rfl, hsum] at hc
  rcases List.mem_append.mp hc with hc | hc
  · rcases List.mem_append.mp hc with hc | hc
    · rcases List.mem_append.mp hc with hc | hc
      · rw [List.mem_singleton.mp hc]
        exact plus_exact (by omega)
      · exact rounded_exact (k := 4) (by decide) (by omega) c hc
    · rw [List.mem_singleton.mp hc]
      refine plus_exact ?_
      change alignUp (size + 16) 16 + 16 < 2 ^ 64
      omega
  · exact pages_exact (by decide) c hc

theorem large_exact {page : PageSize} {size : Nat} (h : size < 2 ^ 62) :
    ∀ c ∈ large page size, c.Exact := by
  have hsum : (size + 16) % 2 ^ 64 = size + 16 := Nat.mod_eq_of_lt (by omega)
  have hsum' : (size + 16 + 16) % 2 ^ 64 = size + 16 + 16 := Nat.mod_eq_of_lt (by omega)
  unfold large
  intro c hc
  rw [show kHeaderSize = 16 from rfl, show LargeAllocator.kPayloadOffset = 16 from rfl, hsum, hsum'] at hc
  rcases List.mem_append.mp hc with hc | hc
  · rcases List.mem_cons.mp hc with rfl | hc
    · exact plus_exact (by omega)
    · rw [List.mem_singleton.mp hc]
      exact plus_exact (by omega)
  · exact pages_exact (by omega) c hc

/-- The whole block behind a medium payload. -/
theorem medium_whole {T : Tiers} {raws : List Raw.Block} {parts : Small.Places} {segs : List Heap.Seg}
    (h : Raw.RawTiers T raws parts segs) {b : Raw.Block} (hb : b ∈ raws) (ht : b.tier = .Medium) :
    MediumBlock.size T.mem (SegmentHeap.blockOf b.start) = b.reserved + 32 ∧
      b.reserved + 32 < 2 ^ 64 := by
  obtain ⟨p, hp, -, hpb⟩ := Heap.mem_used.mp (h.used_span hb ht)
  obtain ⟨lists, hr⟩ := h.heap.rep
  have hok := h.heap.layout.placed_ok hp
  have hstart : p.addr + 16 = b.start := congrArg Span.data hpb
  have hsize : p.size - 16 = b.reserved + 16 := congrArg Span.size hpb
  have hblock : SegmentHeap.blockOf b.start = p.addr := by
    rw [← hstart]
    exact (ptrSub_eq (show 16 ≤ p.addr + 16 by omega) (show p.addr + 16 < 2 ^ 64 by omega)).trans
      (Nat.add_sub_cancel _ _)
  rw [hblock, (hr.tags p hp).size]
  exact ⟨by omega, by omega⟩

theorem served_exact {T : Tiers} {raws : List Raw.Block} {b : Raw.Block} (h : Raw.RawOk T raws)
    (hb : b ∈ raws) : ∀ c ∈ served T b.size b.start, c.Exact := by
  obtain ⟨parts, segs, hr⟩ := h.tiers
  have hbound := hr.span_bound hb
  have htier := tier_eq (hr.ok b hb)
  unfold tierFor at htier
  unfold served
  by_cases h1 : b.size ≤ kSmallMax
  · rw [if_pos h1]
    intro c hc
    cases hc
  rw [if_neg h1] at htier ⊢
  by_cases h2 : b.size ≤ kMediumMax
  · rw [if_pos h2] at htier ⊢
    obtain ⟨hwhole, hlt⟩ := medium_whole hr hb htier
    rw [hwhole]
    exact capacity_exact (Nat.le_add_left _ _) hlt
  · rw [if_neg h2] at htier ⊢
    rw [hr.lookup_region hb htier]
    exact capacity_exact (show 32 ≤ b.reserved + 32 by omega) (show b.reserved + 32 < 2 ^ 64 by
      have := (hr.ok b hb).large htier
      omega)

theorem raw_exact {T : Tiers} {raws : List Raw.Block} (h : Raw.RawOk T raws) (enabled : Bool) (t : Nat)
    {size : Nat} (hsz : size < 2 ^ 62) : ∀ c ∈ raw enabled T t size, c.Exact := by
  unfold raw
  intro c hc
  rcases List.mem_append.mp hc with hc | hc
  · by_cases h1 : size ≤ kSmallMax
    · rw [if_pos h1] at hc
      exact small_exact h1 c hc
    rw [if_neg h1] at hc
    by_cases h2 : size ≤ kMediumMax
    · rw [if_pos h2] at hc
      exact medium_exact h2 c hc
    · rw [if_neg h2] at hc
      exact large_exact hsz c hc
  · have hout := Raw.rawAllocate_spec h enabled t hsz
    generalize T.rawAllocate enabled t size = q at hout hc
    cases hout with
    | refused => cases hc
    | @served T' b hok hb hk hnew =>
      obtain ⟨parts, segs, hr⟩ := hok.tiers
      have hbound := hr.span_bound List.mem_cons_self
      have hstart : headerOf b.user = b.start :=
        (headerOf_eq (show 16 ≤ b.start + 16 by omega) (show b.start + 16 < 2 ^ 64 by omega)).trans
          (Nat.add_sub_cancel _ _)
      dsimp only at hc
      rw [hstart, ← hb] at hc
      exact served_exact hok List.mem_cons_self c hc

/-- The address of an over-aligned block in `n + A` bytes at `r`. -/
theorem address_exact {r n A : Nat} (hpow : isPowerOfTwo A = true) (hlo : 16 < A) (hhi : A ≤ 2 ^ 30)
    (hr : r % 16 = 0) (hb : r + n + A < 2 ^ 64) : ∀ c ∈ address r A n, c.Exact := by
  have hwell := wellPlaced hpow hlo hhi hr hb
  have hin := hwell.inside
  have hshim := hwell.shim
  have hoff := hwell.offset
  obtain ⟨k, rfl⟩ := isPowerOfTwo_iff.mp hpow
  have hk : k ≤ 30 := (Nat.pow_le_pow_iff_right (show 1 < 2 by decide)).mp hhi
  unfold address
  intro c hc
  rcases List.mem_append.mp hc with hc | hc
  · rcases List.mem_append.mp hc with hc | hc
    · exact rounded_exact (by omega) (by omega) c hc
    · by_cases he : alignUp r (2 ^ k) = r
      · rw [if_pos he, List.mem_singleton] at hc
        rw [hc, he]
        exact plus_exact (by omega)
      · rw [if_neg he] at hc
        cases hc
  · rcases List.mem_cons.mp hc with rfl | hc
    · exact minus_exact (by omega) (by omega)
    · rw [List.mem_singleton.mp hc]
      unfold Exact
      rw [hoff]
      exact Int.natCast_sub (by omega)

theorem guards_exact {cfg : AllocatorConfig} {n : Nat} (h : n ≤ kMaxRequest) :
    ∀ c ∈ guards cfg n, c.Exact := by
  have h1 : n ≤ 2 ^ 46 := h
  have hsum : (n + 32) % 2 ^ 64 = n + 32 := Nat.mod_eq_of_lt (by omega)
  unfold guards
  intro c hc
  by_cases hg : cfg.enableGuardBytes = true
  · rw [if_pos hg, show kFrontGuardSize = 32 from rfl, show kRearGuardSize = 32 from rfl, hsum] at hc
    rcases List.mem_cons.mp hc with rfl | hc
    · exact plus_exact (by omega)
    rcases List.mem_cons.mp hc with rfl | hc
    · exact plus_exact (by omega)
    · rw [List.mem_singleton.mp hc]
      have hsize : guardedSize n = n + 64 := Nat.mod_eq_of_lt (show n + 32 + 32 < 2 ^ 64 by omega)
      unfold Exact
      dsimp only
      rw [hsize]
      exact Int.natCast_add n 64
  · rw [if_neg hg] at hc
    cases hc

end Computed

/-! ## Requests -/

section Request
variable {cfg : AllocatorConfig} {r : Request}

/-- What the checks leave. -/
theorem Request.of_verdict (hv : r.verdict = none) : r.size ≤ kMaxRequest ∧
    ∀ A n, r = .alignedAllocate A n → isPowerOfTwo A = true ∧ A ≤ kMaxAlignment := by
  cases r with
  | allocate n =>
    unfold Request.verdict at hv
    dsimp only at hv
    split at hv
    · cases hv
    · rename_i h
      exact ⟨Nat.le_of_not_lt h, fun A n he => by cases he⟩
  | alignedAllocate A n =>
    unfold Request.verdict at hv
    dsimp only at hv
    split at hv
    · cases hv
    rename_i hbad
    split at hv
    · cases hv
    rename_i h
    obtain ⟨hpow, hle⟩ := not_or.mp hbad
    refine ⟨Nat.le_of_not_lt h, fun B k he => ?_⟩
    cases he
    exact ⟨by simpa using hpow, Nat.le_of_not_lt hle⟩

/-- The checks keep what the tiers are asked for far below `2^64`. -/
theorem Request.asked_lt (hv : r.verdict = none) : r.asked cfg < 2 ^ 62 := by
  obtain ⟨hn, hA⟩ := Request.of_verdict hv
  have hn' : r.size ≤ 2 ^ 46 := hn
  have hguard : (if cfg.enableGuardBytes = true then guardedSize r.size else r.size) < 2 ^ 62 := by
    split
    · change (r.size + 32 + 32) % 2 ^ 64 < 2 ^ 62
      omega
    · omega
  cases r with
  | allocate n => exact hguard
  | alignedAllocate A n =>
    have hle : A ≤ 2 ^ 30 := (hA A n rfl).2
    unfold Request.asked
    dsimp only
    split
    · exact hguard
    · change (Request.size (.alignedAllocate A n) + A) % 2 ^ 64 < 2 ^ 62
      omega

/-- **The arithmetic of a request that passes the checks.** -/
theorem Request.computed_exact {s : AllocatorImpl} {live : List Alloc} (h : Live s.tiers live) (t : Nat)
    (hv : r.verdict = none) : ∀ c ∈ r.computed s t, c.Exact := by
  have hlt : r.asked s.config < 2 ^ 62 := Request.asked_lt hv
  obtain ⟨hn, hA⟩ := Request.of_verdict hv
  unfold Request.computed
  intro c hc
  rcases List.mem_append.mp hc with hc | hc
  · rcases List.mem_append.mp hc with hc | hc
    · cases r with
      | allocate n => exact Computed.guards_exact hn c hc
      | alignedAllocate A n =>
        have hle : A ≤ 2 ^ 30 := (hA A n rfl).2
        have hn' : atLeastOne n ≤ 2 ^ 46 := hn
        unfold Request.before at hc
        dsimp only at hc
        split at hc
        · exact Computed.guards_exact hn c hc
        · rw [List.mem_singleton.mp hc]
          exact Computed.plus_exact (by omega)
    · exact Computed.raw_exact h.raw _ t hlt c hc
  · cases r with
    | allocate n =>
      split at hc <;> cases hc
    | alignedAllocate A n =>
      obtain ⟨hpow, hle⟩ := hA A n rfl
      unfold Request.after at hc
      simp only at hc
      by_cases hsm : A ≤ kDefaultAlignment
      · simp only [if_pos hsm] at hc
        split at hc <;> cases hc
      simp only [if_neg hsm] at hc
      have hout := Raw.rawAllocate_spec h.raw s.config.enableThreadCache t hlt
      have hn' : atLeastOne n ≤ 2 ^ 46 := hn
      have hle' : A ≤ 2 ^ 30 := hle
      have hasked : (Request.alignedAllocate A n).asked s.config = atLeastOne n + A := by
        unfold Request.asked
        dsimp only
        rw [if_neg hsm]
        exact Nat.mod_eq_of_lt (by omega)
      generalize s.tiers.rawAllocate s.config.enableThreadCache t
        ((Request.alignedAllocate A n).asked s.config) = q at hout hc
      cases hout with
      | refused => cases hc
      | @served T' b hok hb hk hnew =>
        obtain ⟨parts, segs, hr⟩ := hok.tiers
        have hbound := hr.span_bound List.mem_cons_self
        have hfit := (hr.ok b List.mem_cons_self).fits
        have halign := hr.aligned List.mem_cons_self
        rw [hasked] at hb
        exact Computed.address_exact hpow (Nat.lt_of_not_le hsm) hle
          (show (b.start + 16) % 16 = 0 by omega) (show b.start + 16 + atLeastOne n + A < 2 ^ 64 by omega) c hc

end Request

/-! ## The statement -/

/-- The request is turned down for its arguments; nothing was asked of the tiers, nor of the OS. -/
def Rejected (s : AllocatorImpl) (t : Nat) (r : Request) : Prop :=
  ∃ e, (e = .SizeOverflow ∨ e = .InvalidAlignment) ∧ (r.run s t).1 = .error e ∧
    (r.run s t).2.tiers = s.tiers

/-- No computation of the request wraps, the lookup stays inside its table, and what the tier reserves
    is enough. -/
structure Unwrapped (s : AllocatorImpl) (t : Nat) (r : Request) : Prop where
  exact : ∀ c ∈ r.computed s t, c.Exact
  lookup : r.asked s.config ≤ kSmallMax →
    (r.asked s.config + (kGranularity - 1)) % 2 ^ 64 / kGranularity < kLookup.length ∧
      classIndex (r.asked s.config) < kClassSizes.length
  enough : ∀ raw T', s.tiers.rawAllocate s.config.enableThreadCache t (r.asked s.config) = (.ok raw, T') →
    r.asked s.config ≤ raw.reserved
  recorded : (r.acquire s.config s.tiers t).1.map RawAllocation.reserved =
    (s.tiers.rawAllocate s.config.enableThreadCache t (r.asked s.config)).1.map RawAllocation.reserved

/-- `asked` is what the request asks `rawAllocate` for. -/
theorem Request.acquire_asked (cfg : AllocatorConfig) (T : Tiers) (t : Nat) (r : Request) :
    (r.acquire cfg T t).1.map RawAllocation.reserved =
      (T.rawAllocate cfg.enableThreadCache t (r.asked cfg)).1.map RawAllocation.reserved := by
  have hplain : ∀ n, (AllocatorImpl.acquire cfg T t n).1.map RawAllocation.reserved =
      (T.rawAllocate cfg.enableThreadCache t (if cfg.enableGuardBytes then guardedSize n else n)).1.map
        RawAllocation.reserved := fun n => by
    unfold AllocatorImpl.acquire
    by_cases hg : cfg.enableGuardBytes = true
    · rw [if_pos hg, if_pos hg]
      split <;> rename_i h <;> simp only [h, Except.map]
    · rw [if_neg hg, if_neg hg]
      split <;> rename_i h <;> rw [h]
  cases r with
  | allocate n =>
    unfold Request.acquire Request.asked
    exact hplain (atLeastOne n)
  | alignedAllocate A n =>
    unfold Request.acquire Request.asked
    dsimp only
    by_cases hsm : A ≤ kDefaultAlignment
    · rw [if_pos hsm, if_pos hsm]
      exact hplain (atLeastOne n)
    · rw [if_neg hsm, if_neg hsm]
      unfold acquireAligned
      split <;> rename_i h <;> simp only [h, Except.map]

theorem Request.settled {s : AllocatorImpl} {live : List Alloc} (h : Live s.tiers live) (t : Nat)
    (r : Request) : Rejected s t r ∨ Unwrapped s t r := by
  cases hv : r.verdict with
  | some e =>
    left
    refine ⟨e, ?_, ?_, ?_⟩
    · cases r with
      | allocate n =>
        unfold Request.verdict at hv
        dsimp only at hv
        split at hv
        · exact Or.inl (Option.some.inj hv).symm
        · cases hv
      | alignedAllocate A n =>
        unfold Request.verdict at hv
        dsimp only at hv
        split at hv
        · exact Or.inr (Option.some.inj hv).symm
        split at hv
        · exact Or.inl (Option.some.inj hv).symm
        · cases hv
    · rw [Request.run_eq, hv]
      rfl
    · rw [Request.run_eq, hv]
      rfl
  | none =>
    right
    refine ⟨Request.computed_exact h t hv, fun hsmall => ⟨?_, classIndex_lt hsmall⟩, fun raw T' he => ?_,
      Request.acquire_asked _ _ t r⟩
    · have hle : r.asked s.config ≤ 4096 := hsmall
      rw [kLookup_length]
      change (r.asked s.config + 7) % 2 ^ 64 / 8 < 513
      omega
    · have hlt : r.asked s.config < 2 ^ 62 := Request.asked_lt hv
      have hout := Raw.rawAllocate_spec h.raw s.config.enableThreadCache t hlt
      rw [he] at hout
      cases hout with
      | served hok hb hk hnew =>
        rw [← hb]
        obtain ⟨parts, segs, hr⟩ := hok.tiers
        exact (hr.ok _ List.mem_cons_self).fits

/-- The request `StlAllocator<T>::allocate(count)` makes. -/
def elementRequest (T : ElementType) (count : Nat) : Request :=
  if T.alignof > 16 then .alignedAllocate T.alignof (count * T.sizeof) else .allocate (count * T.sizeof)

/-- `StlAllocator<T>::allocate` throws before it asks, or asks for the exact product. -/
theorem stl_allocate_eq (T : ElementType) (s : AllocatorImpl) (t count : Nat) :
    StlAllocator.allocate T s t count = (none, s) ∨
      (Computed.times count T.sizeof).Exact ∧ StlAllocator.allocate T s t count =
        StlAllocator.orThrow ((elementRequest T count).run s t) := by
  unfold StlAllocator.allocate
  by_cases hbig : count > (2 ^ 64 - 1) / T.sizeof
  · rw [if_pos hbig]
    exact Or.inl rfl
  · right
    have hlt : count * T.sizeof < 2 ^ 64 := by
      have := (Nat.le_div_iff_mul_le T.sizeof_pos).mp (Nat.le_of_not_lt hbig)
      omega
    have hbytes : StlAllocator.bytes T count = count * T.sizeof := Nat.mod_eq_of_lt hlt
    refine ⟨Computed.times_exact hlt, ?_⟩
    rw [if_neg hbig, hbytes]
    unfold elementRequest
    split <;> rfl

/-- **No size arithmetic wraps**, in any reachable state, for any request. -/
theorem arithmetic_of_run {cfg : AllocatorConfig} {m : Mem} {page : PageSize}
    {answers : List (Option Nat)} {faults : List Bool} {calls : List ClientCall} {s : ClientSys}
    (hrun : runFrom ClientSys.step (ClientSys.start cfg (World.boot m page answers) faults) calls = some s)
    (t : Nat) :
    (∀ r, Rejected s.impl t r ∨ Unwrapped s.impl t r) ∧
      ∀ T count, StlAllocator.allocate T s.impl t count = (none, s.impl) ∨
        (Computed.times count T.sizeof).Exact ∧
          StlAllocator.allocate T s.impl t count =
            StlAllocator.orThrow ((elementRequest T count).run s.impl t) ∧
          (Rejected s.impl t (elementRequest T count) ∨ Unwrapped s.impl t (elementRequest T count)) := by
  obtain ⟨live, h⟩ := good_of_run hrun
  refine ⟨fun r => r.settled h.memory t, fun T count => ?_⟩
  rcases stl_allocate_eq T s.impl t count with hnone | ⟨hexact, heq⟩
  · exact Or.inl hnone
  · exact Or.inr ⟨hexact, heq, Request.settled h.memory t _⟩

/-- After requests in two tiers and a free: an element count that overflows, a size whose guarded size would
    wrap, and an over-aligned request that is served. -/
theorem arithmetic_of_run_mixed : ∃ s, runFrom ClientSys.step
      (ClientSys.start { enableGuardBytes := true } roomyWorld [])
      [.request 0 (.allocate 5000), .request 1 (.allocate 100), .deallocate 1 1048640] = some s ∧
    StlAllocator.allocate ⟨24, 8, by decide⟩ s.impl 0 (2 ^ 62) = (none, s.impl) ∧
    Rejected s.impl 0 (.allocate (2 ^ 64 - 40)) ∧ Unwrapped s.impl 0 (.alignedAllocate 64 9000) := by
  have hrun : (runFrom ClientSys.step (ClientSys.start { enableGuardBytes := true } roomyWorld [])
      [.request 0 (.allocate 5000), .request 1 (.allocate 100), .deallocate 1 1048640]).map (fun s =>
        ((Request.alignedAllocate 64 9000).run s.impl 0).1.toBool) = some true := by
    decide +kernel
  obtain ⟨s, hs, hserved⟩ := Option.map_eq_some_iff.mp hrun
  obtain ⟨hreq, -⟩ := arithmetic_of_run hs 0
  refine ⟨s, hs, ?_, ?_, ?_⟩
  · unfold StlAllocator.allocate
    rw [if_pos (by decide)]
  · rcases hreq (.allocate (2 ^ 64 - 40)) with h | h
    · exact h
    · -- the second addition of the guarded size is not exact
      have hin : Computed.plus (2 ^ 64 - 8) 32 ∈ (Request.allocate (2 ^ 64 - 40)).computed s.impl 0 := by
        unfold Request.computed Request.before
        rw [config_of_run hs]
        exact List.mem_append_left _ (List.mem_append_left _ (List.mem_cons_of_mem _ List.mem_cons_self))
      have hno : ¬ (Computed.plus (2 ^ 64 - 8) 32).Exact := by
        unfold Computed.Exact
        decide
      exact absurd (h.exact _ hin) hno
  · rcases hreq (.alignedAllocate 64 9000) with ⟨e, -, he, -⟩ | h
    · rw [he] at hserved
      cases hserved
    · exact h

end MAlloc.Client
