import Aegis.SharedFrames
import Aegis.MemFailure
import Aegis.ByteLayout
import Mathlib.Data.BitVec

/-! The size of a memfd and the bytes of its pages. One memfd is followed while it is resized,
its pages are written through a mapping, and the rest of the kernel takes and returns frames.
`memfd_truncate` counts pages in 32 bits, keeps the frames it got before an allocation failed,
and clears new pages only, not the tail of a page that was cut and grows back. In every run
without these three the bookkeeping is exact. -/

namespace Aegis.Memory

open LabelledRun Function List Option Memfd
open ByteLayout (Byte)

abbrev FrameData := Nat → Nat → Byte

def clearFrame (d : FrameData) (f : Nat) : FrameData :=
  update d f fun _ => 0

def storeByte (d : FrameData) (f offset : Nat) (b : Byte) : FrameData :=
  update d f (update (d f) offset b)

def clearPages : List Nat → Pmm × (Nat → Nat) → FrameData → FrameData
  | [], _, d => d
  | j :: rest, x, d =>
    if (pmmAllocPage x.1).1 = 0 then d
    else
      clearPages rest ((pmmAllocPage x.1).2, update x.2 j (pmmAllocPage x.1).1)
        (clearFrame d (pmmAllocPage x.1).1)

def Memfd.newSlots (mf : Memfd) (size : Nat) : List Nat :=
  List.range' mf.pageCount (truncPages size - mf.pageCount)

def Memfd.cutSlots (mf : Memfd) (size : Nat) : List Nat :=
  List.range' (truncPages size) (mf.pageCount - truncPages size)

structure MemfdPages where
  sys : System
  data : FrameData
  others : List Nat

namespace MemfdPages

variable (s : MemfdPages)

def memfd (id : Nat) : Memfd := s.sys.memfds id

def setPmm (pmm : Pmm) (others : List Nat) : MemfdPages :=
  ⟨{ s.sys with pmm := pmm }, s.data, others⟩

def truncateData (id size : Nat) : FrameData :=
  match memfdGet s.sys id with
  | none => s.data
  | some mf =>
    if memfdPagesMax < truncPages size then s.data
    else
      clearPages (mf.newSlots size) (s.sys.pmm, mf.physPages) s.data

def truncate (id size : Nat) : MemfdPages × Except Nat Nat :=
  (⟨(memfdTruncate s.sys id size).1, s.truncateData id size, s.others⟩,
    (memfdTruncate s.sys id size).2)

def byteAt (id p : Nat) : Byte :=
  let page := p / 4096 % 2 ^ 32
  if page < (s.memfd id).pageCount ∧ (s.memfd id).physPages page ≠ 0 then
    s.data ((s.memfd id).physPages page) (p % 4096)
  else 0

abbrev grown (id size : Nat) : Bool × Pmm × (Nat → Nat) :=
  growPages ((s.memfd id).newSlots size) (s.sys.pmm, (s.memfd id).physPages)

end MemfdPages

inductive PageEvent
  | truncate (size : BitVec 64)
  /-- A process writes to a page that it has mapped. -/
  | store (page offset : Nat) (b : Byte)
  | take
  | give (frame : Nat)
  | scribble (frame offset : Nat) (b : Byte)

def pageStep (id : Nat) (s : MemfdPages) : PageEvent → Option MemfdPages
  | .truncate size => some (s.truncate id size.toNat).1
  | .store page offset b =>
    if page < (s.memfd id).pageCount ∧ offset < 4096 then
      some { s with data := storeByte s.data ((s.memfd id).physPages page) offset b }
    else none
  | .take =>
    if (pmmAllocPage s.sys.pmm).1 = 0 then none
    else some (s.setPmm (pmmAllocPage s.sys.pmm).2 ((pmmAllocPage s.sys.pmm).1 :: s.others))
  | .give f =>
    if f ∈ s.others then some (s.setPmm (pmmFreePage s.sys.pmm f) (s.others.erase f)) else none
  | .scribble f offset b =>
    if f ∈ s.others then some { s with data := storeByte s.data f offset b } else none

def pagesFor (size : Nat) : Nat :=
  (size + 4095) / 4096

structure Bookkept (s : MemfdPages) (id : Nat) : Prop where
  count : (s.memfd id).pageCount = pagesFor (s.memfd id).size
  limit : (s.memfd id).pageCount ≤ memfdPagesMax
  listed : ∀ j < (s.memfd id).pageCount, (s.memfd id).physPages j ≠ 0 ∧
    s.sys.pmm.bitmap ((s.memfd id).physPages j) = true ∧
    s.sys.pmm.refcount ((s.memfd id).physPages j) = 1
  distinct : ∀ i < (s.memfd id).pageCount, ∀ j < (s.memfd id).pageCount,
    (s.memfd id).physPages i = (s.memfd id).physPages j → i = j
  beyond : ∀ j, (s.memfd id).pageCount ≤ j → (s.memfd id).physPages j = 0

def GrowsZero (s : MemfdPages) (id size : Nat) : Prop :=
  (s.truncate id size).2 = .ok 0 → ∀ p, (s.memfd id).size ≤ p → p < size →
    (s.truncate id size).1.byteAt id p = 0

def FailsClean (s : MemfdPages) (id size : Nat) : Prop :=
  ∀ e, (s.truncate id size).2 = .error e →
    (s.truncate id size).1.memfd id = s.memfd id ∧ (s.truncate id size).1.sys.pmm = s.sys.pmm

/-- The page count is exact if the call accepts it, the new frames are there or the first one
is not, and the rest of a page that was cut is zero when it grows back. -/
structure Sizeable (s : MemfdPages) (id size : Nat) : Prop where
  exact : truncPages size ≤ memfdPagesMax → size ≤ 4096 * memfdPagesMax
  frames : truncPages size ≤ memfdPagesMax →
    truncPages size - (s.memfd id).pageCount ≤ freeFrames s.sys.pmm ∨ freeFrames s.sys.pmm = 0
  tail : ∀ p, (s.memfd id).size ≤ p → p < size → p < 4096 * (s.memfd id).pageCount →
    s.byteAt id p = 0

def OnlySizeable (id : Nat) (s : MemfdPages) : PageEvent → Prop
  | .truncate size => Sizeable s id size.toNat
  | _ => True

open MemfdPages

section
variable {s s' : MemfdPages} {id size : Nat} {slots held : List Nat} {x : Pmm × (Nat → Nat)}
  {d : FrameData}

theorem truncPages_exact (lt : size ≤ 4096 * memfdPagesMax) : truncPages size = pagesFor size := by
  have hw : size + 4095 < 2 ^ 64 := by
    simp only [memfdPagesMax] at lt
    omega
  have fits : (size + 4095) / 4096 < 2 ^ 32 := by
    simp only [memfdPagesMax] at lt
    omega
  rw [truncPages, Nat.mod_eq_of_lt hw, Nat.mod_eq_of_lt fits, pagesFor]

theorem growPages_succeeds (hr : x.1.bitmap 0 = true)
    (he : slots.length ≤ freeFrames x.1) : (growPages slots x).1 = true := by
  induction slots generalizing x with
  | nil => rfl
  | cons slot ho ih =>
    rw [length_cons] at he
    rw [growPages]
    split
    · next none =>
      have full := freeFrames_of_full hr (Prod.ext none rfl)
      omega
    · next some =>
      have ht : pmmAllocPage x.1 = ((pmmAllocPage x.1).1, (pmmAllocPage x.1).2) := rfl
      have hf := pmmAllocPage_freeFrames ht some
      refine ih ?_ (by simp only; omega)
      obtain ⟨zero, -⟩ | ⟨-, -, after⟩ := pmmAllocPage_cases ht
      · exact absurd zero some
      · rw [after]
        simpa only [update_of_ne (Ne.symm some)] using hr

theorem pmmAllocPage_none {p : Pmm} (none : freeFrames p = 0) : (pmmAllocPage p).1 = 0 := by
  by_contra some
  have ht : pmmAllocPage p = ((pmmAllocPage p).1, (pmmAllocPage p).2) := rfl
  have hf := pmmAllocPage_freeFrames ht some
  omega

theorem growPages_none (hr : x.1.bitmap 0 = true) (none : freeFrames x.1 = 0) :
    growPages slots x = (decide (slots = []), x) := by
  cases slots with
  | nil => rfl
  | cons slot ho =>
    have h1 := pmmAllocPage_none none
    have eq : (pmmAllocPage x.1).2 = x.1 := pmmAllocPage_failed hr (Prod.ext h1 rfl)
    rw [growPages, if_pos h1]
    exact congrArg (fun pmm => (false, pmm, x.2)) eq

theorem clearPages_spec (distinct : slots.Nodup) (owned : Owned x.1 held)
    (whole : (growPages slots x).1 = true) :
    (∀ j ∈ slots, clearPages slots x d ((growPages slots x).2.2 j) = fun _ => 0) ∧
      ∀ f ∈ held, clearPages slots x d f = d f := by
  induction slots generalizing held x d with
  | nil => exact ⟨fun _ mem => absurd mem not_mem_nil, fun _ _ => rfl⟩
  | cons slot others ih =>
    obtain ⟨fresh, distinct⟩ := nodup_cons.mp distinct
    by_cases none : (pmmAllocPage x.1).1 = 0
    · rw [growPages, if_pos none] at whole
      cases whole
    rw [growPages, if_neg none] at whole ⊢
    rw [clearPages, if_neg none]
    have taken : Owned (pmmAllocPage x.1).2 ((pmmAllocPage x.1).1 :: held) := owned.alloc rfl none
    have gone := (nodup_cons.mp taken.nodup).1
    obtain ⟨cleared, kept⟩ := ih (d := clearFrame d (pmmAllocPage x.1).1) distinct taken whole
    have keeps := (growPages_spec others (x := ((pmmAllocPage x.1).2,
      update x.2 slot (pmmAllocPage x.1).1)) distinct taken).1
    refine ⟨fun j mem => ?_, fun f mem => ?_⟩
    · rcases mem_cons.mp mem with rfl | later
      · -- The frame of the first slot is in use for the rest of the loop.
        have first : (growPages others ((pmmAllocPage x.1).2,
            update x.2 j (pmmAllocPage x.1).1)).2.2 j = (pmmAllocPage x.1).1 :=
          (keeps j fresh).trans (update_self ..)
        rw [first, kept _ mem_cons_self, clearFrame, update_self]
      · exact cleared j later
    · have other : f ≠ (pmmAllocPage x.1).1 := fun same => gone (same ▸ mem)
      rw [kept f (mem_cons_of_mem _ mem), clearFrame, update_of_ne other]

theorem shrinkPages_zero (slots : List Nat) (x : Pmm × (Nat → Nat)) :
    ∀ j ∈ slots, (slots.foldl shrinkPage x).2 j = 0 := by
  have hs : ∀ (slots : List Nat) (x : Pmm × (Nat → Nat)) (j : Nat), x.2 j = 0 →
      (slots.foldl shrinkPage x).2 j = 0 := by
    intro slots
    induction slots with
    | nil => exact fun _ _ zero => zero
    | cons slot ho ih =>
      intro x j zero
      refine ih _ j ?_
      rw [shrinkPage]
      split
      · exact zero
      by_cases eq : j = slot
      · rw [eq]
        exact update_self ..
      · exact (update_of_ne eq _ _).trans zero
  induction slots generalizing x with
  | nil => exact fun _ mem => absurd mem not_mem_nil
  | cons slot ho ih =>
    intro j mem
    rcases mem_cons.mp mem with rfl | hl
    · refine hs ho _ j ?_
      rw [shrinkPage]
      split
      · next zero => exact zero
      · exact update_self ..
    · exact ih _ j hl

section
variable (there : memfdGet s.sys id = some (s.memfd id))
include there

theorem truncate_rejected (many : memfdPagesMax < truncPages size) :
    s.truncate id size = (s, .error enomem) := by
  simp only [truncate, memfdTruncate, truncateData, there, if_pos many]

theorem truncate_accepted (ha : truncPages size ≤ memfdPagesMax) (ends : Pmm × (Nat → Nat))
    (hw : (s.grown id size).1 = true)
    (cut : ((s.memfd id).cutSlots size).foldl shrinkPage (s.grown id size).2 = ends) :
    (s.truncate id size).2 = .ok 0 ∧ (s.truncate id size).1.sys.pmm = ends.1 ∧
      (s.truncate id size).1.memfd id =
        ⟨(s.memfd id).inUse, (s.memfd id).refcount, ends.2, truncPages size, size⟩ ∧
      (s.truncate id size).1.data = clearPages ((s.memfd id).newSlots size)
        (s.sys.pmm, (s.memfd id).physPages) s.data ∧
      (s.truncate id size).1.others = s.others := by
  subst cut
  simp only [grown, newSlots, memfd] at hw there
  simp only [truncate, memfd, memfdTruncate, truncateData, there,
    not_lt.mpr ha, if_false, hw, Bool.true_eq_false, System.setMemfd,
    update_self, grown, newSlots, cutSlots, and_self]

theorem truncate_short {pmm : Pmm} {pages : Nat → Nat} (ok : truncPages size ≤ memfdPagesMax)
    (hs : s.grown id size = (false, pmm, pages)) :
    (s.truncate id size).2 = .error enomem ∧ (s.truncate id size).1.sys.pmm = pmm := by
  simp only [grown, newSlots, memfd] at hs there
  simp only [truncate, memfdTruncate, there, not_lt.mpr ok, if_false, hs, if_true, and_self]

theorem truncate_full (hr : s.sys.pmm.bitmap 0 = true) (none : freeFrames s.sys.pmm = 0)
    (hf : (s.grown id size).1 = false) :
    (s.truncate id size).1.sys.pmm = s.sys.pmm ∧ (s.truncate id size).1.memfd id = s.memfd id ∧
      (s.truncate id size).1.others = s.others ∧ (s.truncate id size).2 = .error enomem := by
  have hs : s.grown id size =
      (decide ((s.memfd id).newSlots size = []), s.sys.pmm, (s.memfd id).physPages) :=
    growPages_none hr none
  rw [hs] at hf
  rw [grown, newSlots] at hs
  rw [newSlots] at hf
  simp only [truncate, memfd, memfdTruncate, truncateData, there]
  split
  · simp only [and_self]
  · simp only [memfd] at hs hf
    simp only [hs, hf, if_true, System.setMemfd, update_self, and_self]

end

end

/-! ### One memfd and the frames it owns -/

structure MemfdKept (id : Nat) (s : MemfdPages) : Prop where
  small : id < memfdMax
  inUse : (s.memfd id).inUse = true
  count : (s.memfd id).pageCount = pagesFor (s.memfd id).size
  limit : (s.memfd id).pageCount ≤ memfdPagesMax
  beyond : ∀ j, (s.memfd id).pageCount ≤ j → (s.memfd id).physPages j = 0
  owned : Owned s.sys.pmm
    ((List.range (s.memfd id).pageCount).map (s.memfd id).physPages ++ s.others)

section
variable {s s' : MemfdPages} {id size : Nat}

theorem MemfdKept.get (kept : MemfdKept id s) : memfdGet s.sys id = some (s.memfd id) :=
  if_pos ⟨kept.small, kept.inUse⟩

theorem mem_frames {others : List Nat} {mf : Memfd} {j : Nat} (lower : j < mf.pageCount) :
    mf.physPages j ∈ (range mf.pageCount).map mf.physPages ++ others :=
  mem_append_left _ (mem_map.mpr ⟨j, mem_range.mpr lower, rfl⟩)

theorem MemfdKept.frame_ne_zero (kept : MemfdKept id s) {j : Nat}
    (lower : j < (s.memfd id).pageCount) : (s.memfd id).physPages j ≠ 0 :=
  (kept.owned.live _ (mem_frames lower)).2.2.1

theorem MemfdKept.bookkept (kept : MemfdKept id s) : Bookkept s id where
  count := kept.count
  limit := kept.limit
  listed j lower := by
    obtain ⟨set, one, nonzero, -⟩ := kept.owned.live _ (mem_frames lower)
    exact ⟨nonzero, set, one⟩
  distinct i lower j lower' same := by
    have nodup := (nodup_append.mp kept.owned.nodup).1
    exact inj_on_of_nodup_map nodup (mem_range.mpr lower) (mem_range.mpr lower') same
  beyond := kept.beyond

theorem MemfdKept.byteAt (kept : MemfdKept id s) {p : Nat}
    (lower : p / 4096 < (s.memfd id).pageCount) :
    s.byteAt id p = s.data ((s.memfd id).physPages (p / 4096)) (p % 4096) := by
  have limit := kept.limit
  simp only [memfdPagesMax] at limit
  have fits : p / 4096 % 2 ^ 32 = p / 4096 := Nat.mod_eq_of_lt (by omega)
  simp only [MemfdPages.byteAt, fits]
  rw [if_pos ⟨lower, kept.frame_ne_zero lower⟩]

theorem range_map_grow (f g : Nat → Nat) {n m : Nat} (hg : n ≤ m) (eq : ∀ j < n, g j = f j) :
    (range m).map g = (range n).map f ++ (range' n (m - n)).map g := by
  have range : range m = range n ++ range' n (m - n) := by
    have hj := range'_append_1 (s := 0) (m := n) (n := m - n)
    rw [zero_add, Nat.add_sub_cancel' hg] at hj
    rw [range_eq_range', range_eq_range', hj]
  rw [range, map_append]
  exact congrArg (· ++ _) (map_congr_left fun j mem => eq j (mem_range.mp mem))

section
variable (kept : MemfdKept id s)
include kept

theorem MemfdKept.grow (accepted : truncPages size ≤ memfdPagesMax)
    (exact : truncPages size = pagesFor size) (grows : (s.memfd id).pageCount ≤ truncPages size)
    (whole : (s.grown id size).1 = true) (tail : ∀ p, (s.memfd id).size ≤ p → p < size →
      p < 4096 * (s.memfd id).pageCount → s.byteAt id p = 0) :
    MemfdKept id (s.truncate id size).1 ∧ (s.truncate id size).2 = .ok 0 ∧
      ∀ p, (s.memfd id).size ≤ p → p < size → (s.truncate id size).1.byteAt id p = 0 := by
  have none : (s.memfd id).cutSlots size = [] := by
    rw [cutSlots, Nat.sub_eq_zero_of_le grows, range'_zero]
  obtain ⟨done, pmm, memfd, data, others⟩ := truncate_accepted kept.get accepted
    (s.grown id size).2 whole (by rw [none, foldl_nil])
  have distinct : ((s.memfd id).newSlots size).Nodup := nodup_range'
  have mem_new : ∀ j, j ∈ (s.memfd id).newSlots size ↔
      (s.memfd id).pageCount ≤ j ∧ j < truncPages size := fun j => by
    rw [newSlots, mem_range'_1]
    omega
  obtain ⟨keeps, new, owned, filled⟩ := growPages_spec _ distinct
    (x := (s.sys.pmm, (s.memfd id).physPages)) kept.owned
  obtain ⟨cleared, untouched⟩ := clearPages_spec (d := s.data) distinct
    (x := (s.sys.pmm, (s.memfd id).physPages)) kept.owned whole
  have below : ∀ j < (s.memfd id).pageCount, j ∉ (s.memfd id).newSlots size :=
    fun j lower mem => not_lt.mpr ((mem_new j).mp mem).1 lower
  have after : MemfdKept id (s.truncate id size).1 := by
    refine ⟨kept.small, memfd ▸ kept.inUse, memfd ▸ exact, memfd ▸ accepted, ?_, ?_⟩
    · intro j high
      rw [memfd] at high ⊢
      refine (keeps j fun mem => ?_).trans (kept.beyond j (le_trans grows high))
      exact not_lt.mpr high ((mem_new j).mp mem).2
    · rw [memfd, pmm, others]
      simp only
      rw [range_map_grow (s.memfd id).physPages _ grows fun j lower => keeps j (below j lower)]
      change Owned _ (_ ++ ((s.memfd id).newSlots size).map _ ++ _)
      rw [filled whole]
      refine owned.perm ?_
      rw [← append_assoc]
      exact perm_append_comm.append_right _
  refine ⟨after, done, fun p old new => ?_⟩
  have lower : p / 4096 < truncPages size := by
    rw [exact, pagesFor]
    omega
  rw [after.byteAt (by rw [memfd]; exact lower), memfd, data]
  simp only
  by_cases kind : p / 4096 < (s.memfd id).pageCount
  · rw [keeps _ (below _ kind), untouched _ (mem_frames kind), ← kept.byteAt kind]
    exact tail p old new (by omega)
  · rw [cleared _ ((mem_new _).mpr ⟨not_lt.mp kind, lower⟩)]

theorem MemfdKept.shrink (ha : truncPages size ≤ memfdPagesMax)
    (exact : truncPages size = pagesFor size) (hf : truncPages size < (s.memfd id).pageCount) :
    MemfdKept id (s.truncate id size).1 ∧ (s.truncate id size).2 = .ok 0 ∧
      size ≤ (s.memfd id).size := by
  have none : s.grown id size = (true, s.sys.pmm, (s.memfd id).physPages) := by
    rw [grown, newSlots, Nat.sub_eq_zero_of_le hf.le, range'_zero, growPages]
  obtain ⟨done, pmm, memfd, -, ho⟩ := truncate_accepted kept.get ha _ (by rw [none]) rfl
  rw [none] at pmm memfd
  obtain ⟨hr, kept'⟩ := shrinkPages_spec ((s.memfd id).cutSlots size)
    (x := (s.sys.pmm, (s.memfd id).physPages)) nodup_range'
  have emptied := shrinkPages_zero ((s.memfd id).cutSlots size) (s.sys.pmm, (s.memfd id).physPages)
  have mem_cut : ∀ j, j ∈ (s.memfd id).cutSlots size ↔
      truncPages size ≤ j ∧ j < (s.memfd id).pageCount := fun j => by
    rw [cutSlots, mem_range'_1]
    omega
  refine ⟨⟨kept.small, memfd ▸ kept.inUse, memfd ▸ exact, memfd ▸ ha, ?_, ?_⟩, done, ?_⟩
  · intro j high
    rw [memfd] at high ⊢
    by_cases hi : j < (s.memfd id).pageCount
    · exact emptied j ((mem_cut j).mpr ⟨high, hi⟩)
    · refine (kept' j fun mem => ?_).trans (kept.beyond j (not_lt.mp hi))
      exact hi ((mem_cut j).mp mem).2
  · rw [memfd, pmm, ho]
    simp only
    have front : (range (truncPages size)).map (((s.memfd id).cutSlots size).foldl shrinkPage
        (s.sys.pmm, (s.memfd id).physPages)).2 =
        (range (truncPages size)).map (s.memfd id).physPages :=
      map_congr_left fun j mem => kept' j fun later =>
        absurd (mem_range.mp mem) (not_lt.mpr ((mem_cut j).mp later).1)
    have gone : (((s.memfd id).cutSlots size).map (s.memfd id).physPages).filter (· ≠ 0) =
        ((s.memfd id).cutSlots size).map (s.memfd id).physPages := by
      refine filter_eq_self.mpr fun f mem => decide_eq_true ?_
      obtain ⟨j, range, rfl⟩ := mem_map.mp mem
      exact kept.frame_ne_zero ((mem_cut j).mp range).2
    rw [front, hr, gone]
    refine Owned.custody.freePages (kept.owned.perm ?_)
    rw [range_map_grow (s.memfd id).physPages _ hf.le fun _ _ => rfl, append_assoc]
    exact perm_append_comm_assoc _ _ _
  · rw [kept.count, exact, pagesFor, pagesFor] at hf
    omega

theorem MemfdKept.congr (memfd : s'.memfd id = s.memfd id) (pmm : s'.sys.pmm = s.sys.pmm)
    (ho : s'.others = s.others) : MemfdKept id s' := by
  obtain ⟨lt, inUse, count, limit, hb, how⟩ := kept
  exact ⟨lt, memfd ▸ inUse, memfd ▸ count, memfd ▸ limit, memfd ▸ hb,
    by rw [memfd, pmm, ho]; exact how⟩

theorem MemfdKept.truncate (fits : Sizeable s id size) :
    MemfdKept id (s.truncate id size).1 ∧ GrowsZero s id size ∧ FailsClean s id size := by
  by_cases ok : truncPages size ≤ memfdPagesMax
  · have exact := truncPages_exact (fits.exact ok)
    rcases lt_or_ge (truncPages size) (s.memfd id).pageCount with ha | hg
    · obtain ⟨after, done, smaller⟩ := kept.shrink ok exact ha
      refine ⟨after, fun _ p old new => by omega, fun e hf => ?_⟩
      rw [done] at hf
      cases hf
    · cases hw : (s.grown id size).1 with
      | true =>
        obtain ⟨after, done, zero⟩ := kept.grow ok exact hg hw fits.tail
        refine ⟨after, fun _ => zero, fun e hf => ?_⟩
        rw [done] at hf
        cases hf
      | false =>
        have none : freeFrames s.sys.pmm = 0 := by
          refine (fits.frames ok).resolve_left fun he => ?_
          have gets : (s.grown id size).1 = true :=
            growPages_succeeds kept.owned.reserved (by rw [newSlots, length_range']; exact he)
          rw [hw] at gets
          cases gets
        obtain ⟨pmm, memfd, ho, hf⟩ := truncate_full kept.get kept.owned.reserved none hw
        refine ⟨kept.congr memfd pmm ho, fun done => ?_, fun _ _ => ⟨memfd, pmm⟩⟩
        rw [hf] at done
        cases done
  · have eq := truncate_rejected kept.get (not_le.mp ok)
    refine ⟨by rw [eq]; exact kept, fun done => ?_, fun _ _ => by rw [eq]; exact ⟨rfl, rfl⟩⟩
    rw [eq] at done
    cases done

theorem MemfdKept.step {e : PageEvent} (fits : OnlySizeable id s e)
    (step : pageStep id s e = some s') : MemfdKept id s' := by
  cases e with
  | truncate size =>
    cases step
    exact (kept.truncate fits).1
  | store _ _ _ | scribble _ _ _ =>
    obtain ⟨-, done⟩ := ite_none_right_eq_some.mp step
    cases done
    exact kept.congr rfl rfl rfl
  | take =>
    obtain ⟨some, done⟩ := ite_none_left_eq_some.mp step
    cases done
    refine ⟨kept.small, kept.inUse, kept.count, kept.limit, kept.beyond, ?_⟩
    have ht : pmmAllocPage s.sys.pmm =
        ((pmmAllocPage s.sys.pmm).1, (pmmAllocPage s.sys.pmm).2) := rfl
    exact (kept.owned.alloc ht some).perm perm_middle.symm
  | give f =>
    obtain ⟨mem, done⟩ := ite_none_right_eq_some.mp step
    cases done
    refine ⟨kept.small, kept.inUse, kept.count, kept.limit, kept.beyond, ?_⟩
    refine (kept.owned.perm ?_).free
    exact ((perm_cons_erase mem).append_left _).trans perm_middle

end

theorem memfdKept_new (lt : id < memfdMax) (hf : s.memfd id = newMemfd)
    (ho : Owned s.sys.pmm s.others) : MemfdKept id s := by
  have zero : (s.memfd id).pageCount = 0 := by rw [hf, newMemfd]
  refine ⟨lt, by rw [hf, newMemfd], by rw [hf]; rfl, by omega, fun j _ => by rw [hf, newMemfd], ?_⟩
  rw [zero]
  exact ho

/-- From a new memfd on, as long as no call meets one of the three cases, the page count, the
list of frames and the size agree, what a larger size adds is zero, and a call that fails
changes nothing. -/
theorem memfd_size_kept {start : MemfdPages} {events : List PageEvent} (small : id < memfdMax)
    (fresh : start.memfd id = newMemfd) (owned : Owned start.sys.pmm start.others)
    (run : RunWhere (pageStep id) (OnlySizeable id) start events s) :
    Bookkept s id ∧ ∀ size : BitVec 64, Sizeable s id size.toNat →
      GrowsZero s id size.toNat ∧ FailsClean s id size.toNat := by
  have kept : MemfdKept id s := run.invariant (memfdKept_new small fresh owned)
    fun _ _ _ kept fits step => kept.step fits step
  exact ⟨kept.bookkept, fun size fits => (kept.truncate fits).2⟩

end

def freshMemfd : MemfdPages where
  sys := ⟨oneFrame, fun _ => newMemfd, fun _ => none⟩
  data _ _ := 0xFF
  others := [1]

theorem freshMemfd_owned : Owned freshMemfd.sys.pmm freshMemfd.others :=
  ⟨by decide, rfl, fun f mem => by
    obtain rfl := mem_singleton.mp mem
    exact ⟨rfl, rfl, by decide, by decide⟩⟩

theorem growPages_two {p q : Pmm} {f : Nat} {pages : Nat → Nat} (one : freeFrames p = 1)
    (h1 : pmmAllocPage p = (f, q)) (some : f ≠ 0) (hr : q.bitmap 0 = true) :
    growPages [0, 1] (p, pages) = (false, q, update pages 0 f) := by
  have left := pmmAllocPage_freeFrames h1 some
  have h2 := pmmAllocPage_none (p := q) (by omega)
  have eq : (pmmAllocPage q).2 = q := pmmAllocPage_failed hr (Prod.ext h2 rfl)
  simp only [growPages, h1, h2, eq, if_true, some, if_false]

theorem oneFrame_alloc : pmmAllocPage oneFrame = (6, (pmmAllocPage oneFrame).2) :=
  Prod.ext (by decide +kernel) rfl

theorem freshMemfd_two : (freshMemfd.truncate 0 8192).2 = .error enomem ∧
    (freshMemfd.truncate 0 8192).1.sys.pmm.bitmap 6 = true := by
  have taken : (pmmAllocPage oneFrame).2.bitmap 6 = true := by decide +kernel
  have reserved : (pmmAllocPage oneFrame).2.bitmap 0 = true := by decide +kernel
  have slots : (freshMemfd.memfd 0).newSlots 8192 = [0, 1] := by decide
  have short : freshMemfd.grown 0 8192 =
      (false, (pmmAllocPage oneFrame).2, update (fun _ => 0) 0 6) := by
    rw [grown, slots]
    exact growPages_two oneFrame_free oneFrame_alloc (by decide) reserved
  obtain ⟨failed, same⟩ := truncate_short (s := freshMemfd) rfl (by decide) short
  exact ⟨failed, by rw [same]; exact taken⟩

/-- The largest size of all is accepted with no page at all; the frame of a page that could not
be completed stays with a call that failed; and a page that was cut shows its old bytes when it
grows back. -/
theorem memfd_size_lost :
    (∃ s, Run (pageStep 0) freshMemfd [.truncate (2 ^ 64 - 1)] s ∧ ¬ Bookkept s 0) ∧
      ¬ FailsClean freshMemfd 0 8192 ∧
      ∃ s, Run (pageStep 0) freshMemfd [.truncate 4096, .store 0 100 0xAB, .truncate 1] s ∧
        ¬ GrowsZero s 0 4096 := by
  refine ⟨?_, ?_, ?_⟩
  · refine exists_run_of (fun s => (s.memfd 0).pageCount = 0 ∧ (s.memfd 0).size = 2 ^ 64 - 1) ?_
    rintro s - ⟨pages, size⟩ kept
    have count := kept.count
    rw [pages, size] at count
    exact absurd count (by decide)
  · intro clean
    obtain ⟨failed, taken⟩ := freshMemfd_two
    rw [(clean _ failed).2] at taken
    exact absurd taken (by decide)
  · refine exists_run_of (fun s => (s.memfd 0).size = 1 ∧ (s.truncate 0 4096).2 = .ok 0 ∧
      (s.truncate 0 4096).1.byteAt 0 100 = 0xAB) ?_
    rintro s - ⟨size, done, stale⟩ zero
    have read := zero done 100 (by rw [size]; decide) (by decide)
    rw [stale] at read
    exact absurd read (by decide)

theorem freshMemfd_sizeable : Sizeable freshMemfd 0 5 :=
  ⟨fun _ => by decide, fun _ => .inl (by rw [freshMemfd, oneFrame_free]; decide),
    fun p _ _ hb => absurd hb (Nat.not_lt_zero p)⟩

theorem memfd_size_kept_five :
    ∃ s, RunWhere (pageStep 0) (OnlySizeable 0) freshMemfd [.truncate 5, .store 0 3 0xAB] s ∧
      (s.memfd 0).pageCount = 1 ∧ Bookkept s 0 := by
  have passes : (exec (pageStep 0) freshMemfd [.truncate 5, .store 0 3 0xAB]).any (fun s =>
      (s.memfd 0).pageCount == 1) = true := by decide +kernel
  obtain ⟨last, ends, pages⟩ := (Option.any_eq_true ..).mp passes
  obtain ⟨mid, first, rest⟩ := Option.bind_eq_some_iff.mp ends
  obtain ⟨stop, second, rest⟩ := Option.bind_eq_some_iff.mp rest
  obtain rfl : stop = last := Option.some.inj rest
  have run : RunWhere (pageStep 0) (OnlySizeable 0) freshMemfd
      [.truncate 5, .store 0 3 0xAB] stop :=
    .head freshMemfd_sizeable first (.head trivial second .nil)
  exact ⟨stop, run, eq_of_beq pages, (memfd_size_kept (by decide) rfl freshMemfd_owned run).1⟩

end Aegis.Memory
