import Aegis.LabelledRun
import Aegis.Pmm

/-! From the memory map to the frame allocator (kernel/mm/pmm.c).
`pmm_init` frees the whole pages of the usable regions and then reserves every page the
reserved regions and the kernel image touch. The region bounds are 64-bit sums. A run is
any sequence of allocations, references and frees; its log tells how often each frame is
held. -/

namespace Aegis.Memory

open LabelledRun Function List

structure Region where
  base : Nat
  len : Nat

structure MemoryMap where
  regions : List Region
  reserved : List Region
  kernelLen : Nat

def archKernelPhysBase : Nat := 0x100000

def markPages (value : Bool) : (Nat → Bool) → Nat → Nat → Nat → Bool
  | bitmap, _, 0 => bitmap
  | bitmap, idx, n + 1 =>
    markPages value (if idx < pmmMaxPages then update bitmap idx value else bitmap)
      (idx + 1) n

def pmmFreeRegion (bitmap : Nat → Bool) (r : Region) : Nat → Bool :=
  let start := (r.base + 4095) % 2 ^ 64 / 4096 * 4096
  if start ≥ (r.base + r.len) % 2 ^ 64 then bitmap
  else
    let stop := (r.base + r.len) % 2 ^ 64 / 4096 * 4096
    markPages false bitmap (start / 4096) ((stop - start) / 4096)

def pmmReserveRegion (bitmap : Nat → Bool) (r : Region) : Nat → Bool :=
  let start := r.base / 4096 * 4096
  let stop := (r.base + r.len + 4095) % 2 ^ 64 / 4096 * 4096
  markPages true bitmap (start / 4096) ((stop - start) / 4096)

def pmmInit (map : MemoryMap) : Pmm where
  bitmap :=
    pmmReserveRegion
      (map.reserved.foldl pmmReserveRegion (map.regions.foldl pmmFreeRegion fun _ => true))
      ⟨archKernelPhysBase, map.kernelLen⟩
  refcount := fun _ => 0
  allocated := []
  freed := []

/-- `none` is the panic on a frame without a reference or with 255 of them. -/
def pmmRefPage (p : Pmm) (i : Nat) : Option Pmm :=
  if pmmMaxPages ≤ i then some p
  else if p.refcount i = 0 then none
  else if p.refcount i = 255 then none
  else some { p with refcount := update p.refcount i (p.refcount i + 1) }

def Region.Holds (r : Region) (f : Nat) : Prop :=
  r.base ≤ f * 4096 ∧ f * 4096 + 4096 ≤ r.base + r.len

def Region.Touches (r : Region) (f : Nat) : Prop :=
  r.base < f * 4096 + 4096 ∧ f * 4096 < r.base + r.len

def MemoryMap.Usable (map : MemoryMap) (f : Nat) : Prop :=
  f < pmmMaxPages ∧ ∃ r ∈ map.regions, r.Holds f

def MemoryMap.Reserved (map : MemoryMap) (f : Nat) : Prop :=
  ∃ r ∈ map.reserved ++ [⟨archKernelPhysBase, map.kernelLen⟩], r.Touches f

/-- Rounding the base of a usable region up does not wrap, and its end is a 64-bit number
unless the region starts above the bitmap. -/
def Region.RoundsUp (r : Region) : Prop :=
  r.base ≤ 2 ^ 64 - 4096 ∧ r.base + r.len < 2 ^ 64 ∨
    pmmMaxPages * 4096 ≤ r.base ∧ r.base + r.len = 2 ^ 64
  deriving Decidable

/-- Rounding the end of a reserved region up does not wrap, unless the region starts
above the bitmap. -/
def Region.EndRoundsUp (r : Region) : Prop :=
  r.base + r.len ≤ 2 ^ 64 - 4096 ∨ pmmMaxPages * 4096 ≤ r.base ∧ r.base + r.len ≤ 2 ^ 64
  deriving Decidable

structure MemoryMap.Fits (map : MemoryMap) : Prop where
  regions : ∀ r ∈ map.regions, r.RoundsUp
  reserved : ∀ r ∈ map.reserved ++ [⟨archKernelPhysBase, map.kernelLen⟩], r.EndRoundsUp

theorem markPages_apply (value : Bool) (bitmap : Nat → Bool) (idx n f : Nat) :
    markPages value bitmap idx n f =
      if idx ≤ f ∧ f < idx + n ∧ f < pmmMaxPages then value else bitmap f := by
  induction n generalizing bitmap idx with
  | zero => rw [markPages, if_neg (by omega)]
  | succ n ih =>
    rw [markPages, ih]
    by_cases h1 : f = idx
    · subst h1
      by_cases small : f < pmmMaxPages
      · simp [small]
      · simp [small]
    · have other : (if idx < pmmMaxPages then update bitmap idx value else bitmap) f =
          bitmap f := by
        split
        · exact update_of_ne h1 ..
        · rfl
      rw [other]
      congr 1
      apply propext
      omega

section
variable {r : Region} {f : Nat} (small : f < pmmMaxPages) (bitmap : Nat → Bool)
include small

theorem markPages_false_set (idx n : Nat) :
    markPages false bitmap idx n f = true ↔ bitmap f = true ∧ ¬ (idx ≤ f ∧ f < idx + n) := by
  by_cases hit : idx ≤ f ∧ f < idx + n
  · simp [markPages_apply, hit, small]
  · rw [markPages_apply, if_neg (by omega)]
    exact (and_iff_left hit).symm

theorem markPages_true_set (idx n : Nat) :
    markPages true bitmap idx n f = true ↔ bitmap f = true ∨ idx ≤ f ∧ f < idx + n := by
  by_cases hit : idx ≤ f ∧ f < idx + n
  · simp [markPages_apply, hit, small]
  · rw [markPages_apply, if_neg (by omega)]
    exact (or_iff_left hit).symm

theorem pmmFreeRegion_set (fits : r.RoundsUp) :
    pmmFreeRegion bitmap r f = true ↔ bitmap f = true ∧ ¬ r.Holds f := by
  simp only [Region.RoundsUp, pmmMaxPages] at fits
  rw [pmmFreeRegion, Region.Holds]
  split
  · rw [pmmMaxPages] at small
    exact (and_iff_left (by omega)).symm
  rw [markPages_false_set small, and_congr_right_iff]
  rw [pmmMaxPages] at small
  omega

theorem pmmReserveRegion_set (fits : r.EndRoundsUp) :
    pmmReserveRegion bitmap r f = true ↔ bitmap f = true ∨ r.Touches f := by
  simp only [Region.EndRoundsUp, pmmMaxPages] at fits
  rw [pmmReserveRegion, Region.Touches, markPages_true_set small]
  apply or_congr_right
  rw [pmmMaxPages] at small
  omega

theorem freeRegions_set {regions : List Region} (fits : ∀ r ∈ regions, r.RoundsUp) :
    regions.foldl pmmFreeRegion bitmap f = true ↔ bitmap f = true ∧ ∀ r ∈ regions, ¬ r.Holds f := by
  induction regions generalizing bitmap with
  | nil => simp
  | cons r regions ih =>
    rw [forall_mem_cons] at fits
    rw [foldl_cons, ih _ fits.2, pmmFreeRegion_set small _ fits.1, forall_mem_cons, and_assoc]

theorem reserveRegions_set {regions : List Region} (fits : ∀ r ∈ regions, r.EndRoundsUp) :
    regions.foldl pmmReserveRegion bitmap f = true ↔
      bitmap f = true ∨ ∃ r ∈ regions, r.Touches f := by
  induction regions generalizing bitmap with
  | nil => simp
  | cons r regions ih =>
    rw [forall_mem_cons] at fits
    rw [foldl_cons, ih _ fits.2, pmmReserveRegion_set small _ fits.1, or_assoc]
    simp only [mem_cons, exists_eq_or_imp]

theorem pmmInit_set {map : MemoryMap} (fits : map.Fits) :
    (pmmInit map).bitmap f = true ↔ map.Usable f → map.Reserved f := by
  have bits : (pmmInit map).bitmap =
      List.foldl pmmReserveRegion (map.regions.foldl pmmFreeRegion fun _ => true)
        (map.reserved ++ [⟨archKernelPhysBase, map.kernelLen⟩]) := by
    rw [foldl_append, foldl_cons, foldl_nil, pmmInit]
  rw [bits, reserveRegions_set small _ fits.reserved, freeRegions_set small _ fits.regions]
  simp only [MemoryMap.Usable, MemoryMap.Reserved, small, true_and]
  constructor
  · rintro (free | hr) ⟨r, hl, hh⟩
    · exact absurd hh (free r hl)
    · exact hr
  · intro hg
    by_cases hu : ∃ r ∈ map.regions, r.Holds f
    · exact .inr (hg hu)
    · exact .inl fun r hl hh => hu ⟨r, hl, hh⟩

end

inductive PmmEvent
  | alloc (f : Nat)
  | ref (f : Nat)
  | free (f : Nat)

/-- How often frame `f` is held after the events of a log, latest first: 1 plus the
references minus the frees since it was last allocated. -/
def holdsOf : List PmmEvent → Nat → Nat
  | [], _ => 0
  | .alloc g :: log, f => if f = g then 1 else holdsOf log f
  | .ref g :: log, f => if f = g then holdsOf log f + 1 else holdsOf log f
  | .free g :: log, f => if f = g then holdsOf log f - 1 else holdsOf log f

inductive PmmCall
  | alloc
  | ref (f : Nat)
  | free (f : Nat)

structure PmmState where
  pmm : Pmm
  log : List PmmEvent

def pmmStart (map : MemoryMap) : PmmState := ⟨pmmInit map, []⟩

def pmmStep (s : PmmState) : PmmCall → Option PmmState
  | .alloc =>
    let (f, p) := pmmAllocPage s.pmm
    some ⟨p, if f = 0 then s.log else .alloc f :: s.log⟩
  | .ref f => (pmmRefPage s.pmm f).map fun p => ⟨p, .ref f :: s.log⟩
  | .free f => some ⟨pmmFreePage s.pmm f, .free f :: s.log⟩

def OnlyHeld (s : PmmState) : PmmCall → Prop
  | .alloc => True
  | .ref f | .free f => 0 < holdsOf s.log f

instance (s : PmmState) (call : PmmCall) : Decidable (OnlyHeld s call) := by
  rcases call <;> (dsimp only [OnlyHeld]; infer_instance)

structure PmmState.Accounted (map : MemoryMap) (s : PmmState) : Prop where
  counts : ∀ f, s.pmm.refcount f = holdsOf s.log f
  bits : ∀ f < pmmMaxPages, s.pmm.bitmap f = true ↔
    (map.Usable f → map.Reserved f) ∨ 0 < holdsOf s.log f
  inside : ∀ f, 0 < holdsOf s.log f → map.Usable f ∧ ¬ map.Reserved f

theorem firstClear_none {bitmap : Nat → Bool} {fuel i f : Nat}
    (full : firstClear bitmap fuel i = none) (ha : i ≤ f) (hb : f < i + fuel) :
    bitmap f = true := by
  induction fuel generalizing i with
  | zero => omega
  | succ fuel ih =>
    rw [firstClear] at full
    split at full
    · next set =>
      by_cases h1 : f = i
      · exact h1 ▸ set
      · exact ih full (by omega) (by omega)
    · cases full

theorem pmmAllocPage_full {p p' : Pmm} (hr : p.bitmap 0 = true)
    (ht : pmmAllocPage p = (0, p')) {f : Nat} (small : f < pmmMaxPages) :
    p.bitmap f = true := by
  rw [pmmAllocPage] at ht
  cases hf : firstClear p.bitmap pmmMaxPages 0 with
  | none => exact firstClear_none hf (Nat.zero_le f) (by omega)
  | some i =>
    simp only [hf, Prod.mk.injEq] at ht
    have clear := (firstClear_spec hf).1
    rw [ht.1, hr] at clear
    cases clear

section
variable {map : MemoryMap} {s : PmmState} (accounted : s.Accounted map)
include accounted

theorem PmmState.Accounted.zero_set (zero : map.Reserved 0) : s.pmm.bitmap 0 = true :=
  (accounted.bits 0 (by decide)).mpr (.inl fun _ => zero)

variable {f : Nat}

theorem PmmState.Accounted.of_clear (clear : s.pmm.bitmap f = false) (small : f < pmmMaxPages) :
    map.Usable f ∧ ¬ map.Reserved f ∧ holdsOf s.log f = 0 := by
  have set := (accounted.bits f small).not.mp (by simp [clear])
  obtain ⟨open_, unheld⟩ := not_or.mp set
  obtain ⟨hu, free⟩ := Classical.not_imp.mp open_
  exact ⟨hu, free, by omega⟩

theorem PmmState.Accounted.alloc {p : Pmm} (ht : pmmAllocPage s.pmm = (f, p)) (some : f ≠ 0) :
    PmmState.Accounted map ⟨p, .alloc f :: s.log⟩ := by
  rcases pmmAllocPage_cases ht with ⟨none, -⟩ | ⟨clear, small, rfl⟩
  · exact absurd none some
  obtain ⟨hu, free, -⟩ := accounted.of_clear clear small
  refine ⟨fun g => ?_, fun g below => ?_, fun g held => ?_⟩
  · by_cases eq : g = f
    · simp [eq, holdsOf]
    · simpa [eq, holdsOf] using accounted.counts g
  · by_cases eq : g = f
    · simp [eq, holdsOf]
    · simpa [eq, holdsOf] using accounted.bits g below
  · by_cases eq : g = f
    · exact eq ▸ ⟨hu, free⟩
    · exact accounted.inside g (by simpa [holdsOf, eq] using held)

theorem PmmState.Accounted.ref {p : Pmm} (held : 0 < holdsOf s.log f)
    (hs : pmmRefPage s.pmm f = some p) : PmmState.Accounted map ⟨p, .ref f :: s.log⟩ := by
  have small : f < pmmMaxPages := (accounted.inside f held).1.1
  obtain rfl : { s.pmm with
      refcount := update s.pmm.refcount f (s.pmm.refcount f + 1) } = p := by
    unfold pmmRefPage at hs
    split at hs
    · omega
    split at hs
    · cases hs
    split at hs
    · cases hs
    · exact Option.some.inj hs
  refine ⟨fun g => ?_, fun g below => ?_, fun g stays => ?_⟩
  · by_cases eq : g = f
    · simp [eq, holdsOf, accounted.counts]
    · simpa [eq, holdsOf] using accounted.counts g
  · by_cases eq : g = f
    · subst eq
      simpa [holdsOf] using (accounted.bits g below).mpr (.inr held)
    · simpa [eq, holdsOf] using accounted.bits g below
  · by_cases eq : g = f
    · exact eq ▸ accounted.inside f held
    · exact accounted.inside g (by simpa [holdsOf, eq] using stays)

theorem PmmState.Accounted.free (held : 0 < holdsOf s.log f) :
    PmmState.Accounted map ⟨pmmFreePage s.pmm f, .free f :: s.log⟩ := by
  have small : f < pmmMaxPages := (accounted.inside f held).1.1
  have set : s.pmm.bitmap f = true := (accounted.bits f small).mpr (.inr held)
  have count := accounted.counts f
  have hf : pmmFreePage s.pmm f = { dropRef s.pmm f with freed := f :: s.pmm.freed } := by
    simp [pmmFreePage, dropRef, set, Nat.not_le.mpr small, count, held.ne']
  rw [hf]
  refine ⟨fun g => ?_, fun g below => ?_, fun g stays => ?_⟩
  · by_cases eq : g = f
    · simp [eq, dropRef, holdsOf, count]
    · simpa [eq, dropRef, holdsOf] using accounted.counts g
  · by_cases eq : g = f
    · subst eq
      obtain ⟨hu, free⟩ := accounted.inside g held
      by_cases last : holdsOf s.log g - 1 = 0
      · simp [dropRef, holdsOf, count, last, hu, free]
      · simp [dropRef, holdsOf, count, last, set, Nat.pos_of_ne_zero last]
    · have bit : (dropRef s.pmm f).bitmap g = s.pmm.bitmap g := by
        unfold dropRef
        dsimp only
        split
        · exact update_of_ne eq ..
        · rfl
      simpa [bit, eq, holdsOf] using accounted.bits g below
  · by_cases eq : g = f
    · exact eq ▸ accounted.inside f held
    · exact accounted.inside g (by simpa [holdsOf, eq] using stays)

theorem PmmState.Accounted.step {call : PmmCall} {t : PmmState} (ha : OnlyHeld s call)
    (zero : map.Reserved 0) (hm : pmmStep s call = some t) : t.Accounted map := by
  cases call with
  | alloc =>
    rcases taken : pmmAllocPage s.pmm with ⟨f, p⟩
    simp only [pmmStep, taken, Option.some.injEq] at hm
    subst hm
    split
    · next none =>
      subst none
      exact pmmAllocPage_failed (accounted.zero_set zero) taken ▸ accounted
    · next some => exact accounted.alloc taken some
  | ref f =>
    obtain ⟨p, hs, rfl⟩ := Option.map_eq_some_iff.mp hm
    exact accounted.ref ha hs
  | free f =>
    cases hm
    exact accounted.free ha

end

theorem pmmStart_accounted {map : MemoryMap} (fits : map.Fits) : (pmmStart map).Accounted map where
  counts _ := rfl
  bits f small := by simp [pmmStart, pmmInit_set small fits, holdsOf]
  inside f held := absurd held (lt_irrefl 0)

/-- The allocator over a memory map whose bounds can be rounded: in every run that
references and frees only held frames, an allocatable frame has its bit set exactly while
it is held, its count is the number of holds, an allocation returns an allocatable frame
that nobody holds, and it fails only when all of them are held. -/
theorem frames_accounted {map : MemoryMap} (fits : map.Fits) (zero : map.Reserved 0)
    {calls : List PmmCall} {s : PmmState}
    (run : RunWhere pmmStep OnlyHeld (pmmStart map) calls s) :
    (∀ f, map.Usable f → ¬ map.Reserved f → (s.pmm.bitmap f = true ↔ 0 < s.pmm.refcount f) ∧
          s.pmm.refcount f = holdsOf s.log f) ∧
      (∀ f p, pmmAllocPage s.pmm = (f, p) → f ≠ 0 →
        map.Usable f ∧ ¬ map.Reserved f ∧ holdsOf s.log f = 0) ∧
      ∀ p, pmmAllocPage s.pmm = (0, p) →
        ∀ f, map.Usable f → ¬ map.Reserved f → 0 < holdsOf s.log f := by
  have accounted : s.Accounted map := run.invariant (pmmStart_accounted fits)
    fun _ _ _ kept admitted => kept.step admitted zero
  have bit {f : Nat} (usable : map.Usable f) (free : ¬ map.Reserved f) :
      s.pmm.bitmap f = true ↔ 0 < holdsOf s.log f := by
    simp [accounted.bits f usable.1, usable, free]
  refine ⟨fun f usable free => ?_, fun f p taken some => ?_, fun p taken f usable free => ?_⟩
  · rw [bit usable free, accounted.counts f]
    exact ⟨Iff.rfl, rfl⟩
  · rcases pmmAllocPage_cases taken with ⟨none, -⟩ | ⟨clear, small, -⟩
    · exact absurd none some
    · exact accounted.of_clear clear small
  · exact (bit usable free).mp (pmmAllocPage_full (accounted.zero_set zero) taken usable.1)

def threePages : MemoryMap := ⟨[⟨0x1800, 0x4000⟩], [⟨0, 0x1000⟩], 0x1000⟩

def sharedCalls : List PmmCall := [.alloc, .alloc, .ref 2, .ref 2, .free 3, .free 2]

theorem frames_accounted_shared :
    (reached (guarded pmmStep OnlyHeld) (pmmStart threePages) sharedCalls).pmm.refcount 2 = 2 ∧
      (reached (guarded pmmStep OnlyHeld) (pmmStart threePages) sharedCalls).pmm.bitmap 2 = true ∧
      (pmmAllocPage
        (reached (guarded pmmStep OnlyHeld) (pmmStart threePages) sharedCalls).pmm).1 = 3 := by
  have fits : threePages.Fits := ⟨by decide, by decide⟩
  have zero : threePages.Reserved 0 := ⟨⟨0, 0x1000⟩, by simp [threePages], by decide, by decide⟩
  have usable : threePages.Usable 2 :=
    ⟨by decide, ⟨0x1800, 0x4000⟩, by simp [threePages], by decide, by decide⟩
  have free : ¬ threePages.Reserved 2 := by
    simp [MemoryMap.Reserved, threePages, Region.Touches, archKernelPhysBase]
  have run := runWhere_of_exec (exec_eq_reached (by decide +kernel :
    (exec (guarded pmmStep OnlyHeld) (pmmStart threePages) sharedCalls).isSome))
  obtain ⟨set, count⟩ := (frames_accounted fits zero run).1 2 usable free
  have two : holdsOf (reached (guarded pmmStep OnlyHeld) (pmmStart threePages) sharedCalls).log 2
      = 2 := by
    decide +kernel
  rw [two] at count
  exact ⟨count, set.mpr (by omega), by decide +kernel⟩

/-- A usable region of three pages, and a reserved region that runs from its second page
to the last byte of the address space, as only the device tree of an ARM64 machine can list
one: the reserved regions of x86 lie in memory. -/
def reservedToTop : MemoryMap :=
  ⟨[⟨0x1000, 0x3000⟩], [⟨0, 0x1000⟩, ⟨0x2000, 2 ^ 64 - 0x2001⟩], 0x1000⟩

/-- No region wraps around, but rounding the end of the reserved one does: the second
allocation hands out a reserved frame. -/
theorem reserved_frame_handed_out :
    (∀ r ∈ reservedToTop.regions ++ reservedToTop.reserved, r.base + r.len < 2 ^ 64) ∧
      reservedToTop.Reserved 0 ∧ reservedToTop.Reserved 2 ∧
      ∃ s, RunWhere pmmStep OnlyHeld (pmmStart reservedToTop) [.alloc] s ∧
        (pmmAllocPage s.pmm).1 = 2 := by
  refine ⟨by decide, ⟨⟨0, 0x1000⟩, by simp [reservedToTop], by decide, by decide⟩,
    ⟨⟨0x2000, 2 ^ 64 - 0x2001⟩, by simp [reservedToTop], by decide, by decide⟩,
    reached (guarded pmmStep OnlyHeld) (pmmStart reservedToTop) [.alloc],
    runWhere_of_exec exec_eq_reached, by decide +kernel⟩

end Aegis.Memory
