import Aegis.MemCalls

/-! What the page loops of the memory calls do to the page tables, and what each call does, seen
from outside. An entry is dormant when it keeps a frame without being present, which is how
`PROT_NONE` pages are stored; the loops disagree on whether such an entry is in use, and the
effect of a mapping call is stated for ranges without dormant pages. -/

namespace Aegis.Memory

open List Option Pte

def Space.Backed (s : Space) : Prop :=
  ∀ q < userPages, s.pte q ≠ Pte.zero → (s.pte q).frame ≠ 0

def Pte.Dormant (pte : Pte) : Prop :=
  pte ≠ Pte.zero ∧ pte.flags.present = false
  deriving Decidable

def Space.Awake (s : Space) (pages : List Nat) : Prop :=
  ∀ q ∈ pages, ¬ (s.pte q).Dormant
  deriving Decidable

def InUser (pages : List Nat) : Prop :=
  ∀ q ∈ pages, q < userPages

section
variable {m m' : Pmm × Space} {s : Space} {page q : Nat} {pages : List Nat} {flags : PteFlags}

theorem Pte.zero_of_awake {pte : Pte} (hw : ¬ pte.Dormant)
    (ha : pte.flags.present = false) : pte = zero := by
  by_contra used
  exact hw ⟨used, ha⟩

theorem InUser.tail (hi : InUser (page :: pages)) : InUser pages :=
  fun q mem => hi q (.tail _ mem)

theorem InUser.head (hi : InUser (page :: pages)) : page < userPages := hi page mem_cons_self

theorem pte_unmap_eq (lt : page < userPages) (lt' : q < userPages) :
    (vmmUnmapUserPage s page).pte q =
      if q = page ∧ (s.pte q).flags.present then zero else s.pte q := by
  by_cases eq : q = page
  · subst eq
    simp [pte_unmap]
  · simp [eq, pte_unmap_other lt lt' eq]

theorem dropPage_pte (hb : m.2.Backed) (lt : page < userPages) (lt' : q < userPages) :
    (dropPage m page).2.pte q =
      if q = page ∧ (m.2.pte q).flags.present then zero else m.2.pte q := by
  rw [dropPage]
  split
  · next none =>
    rw [if_neg]
    rintro ⟨rfl, hp⟩
    rw [vmmPhysOfUser, if_pos hp] at none
    exact hb q lt (ne_zero_of_present hp) none
  · exact pte_unmap_eq lt lt'

theorem munmapPage_pte {b : Bool} (hb : m.2.Backed) (lt : page < userPages) (lt' : q < userPages) :
    (munmapPage b m page).2.pte q =
      if q = page ∧ (m.2.pte q).flags.present then zero else m.2.pte q := by
  rw [munmapPage]
  split
  · next none =>
    rw [if_neg]
    rintro ⟨rfl, hp⟩
    have used := ne_zero_of_present hp
    rw [vmmPhysOfUserRaw, if_neg used] at none
    exact hb q lt used none
  · exact pte_unmap_eq lt lt'

theorem foldl_clears {hr : Pmm × Space → Nat → Pmm × Space}
    (clears : ∀ m page q, m.2.Backed → page < userPages → q < userPages → (hr m page).2.pte q =
        if q = page ∧ (m.2.pte q).flags.present then zero else m.2.pte q)
    (hb : m.2.Backed) (hi : InUser pages) :
    (pages.foldl hr m).2.Backed ∧ ∀ q < userPages, (pages.foldl hr m).2.pte q =
      if q ∈ pages ∧ (m.2.pte q).flags.present then zero else m.2.pte q := by
  induction pages generalizing m with
  | nil => exact ⟨hb, fun q _ => by simp⟩
  | cons page rest ih =>
    have h1 := fun q => clears m page q hb hi.head
    have hs : (hr m page).2.Backed := by
      intro q lt used
      rw [h1 q lt] at used ⊢
      split_ifs at used ⊢
      · exact absurd rfl used
      · exact hb q lt used
    obtain ⟨ends, ho⟩ := ih hs hi.tail
    refine ⟨ends, fun q lt => ?_⟩
    rw [foldl_cons, ho q lt, h1 q lt]
    by_cases eq : q = page
    · subst eq
      by_cases hp : (m.2.pte q).flags.present <;> simp [hp, zero, PteFlags.none]
    · simp [eq]

theorem dropPages_pte (hb : m.2.Backed) (hi : InUser pages) :
    (pages.foldl dropPage m).2.Backed ∧ ∀ q < userPages, (pages.foldl dropPage m).2.pte q =
      if q ∈ pages ∧ (m.2.pte q).flags.present then zero else m.2.pte q :=
  foldl_clears (fun _ _ _ => dropPage_pte) hb hi

theorem munmapPages_pte {b : Bool} (hb : m.2.Backed) (hi : InUser pages) :
    (pages.foldl (munmapPage b) m).2.Backed ∧
      ∀ q < userPages, (pages.foldl (munmapPage b) m).2.pte q =
        if q ∈ pages ∧ (m.2.pte q).flags.present then zero else m.2.pte q :=
  foldl_clears (fun _ _ _ => munmapPage_pte) hb hi

theorem mapFresh_pte {count : Nat} (hp : flags.present = true) (ne : pages.Nodup)
    (hi : InUser pages) (done : mapFresh flags pages m = some (count, m')) :
    count ≤ pages.length ∧ (∀ q ∈ pages.take count, (m.2.pte q).flags.present = false ∧
        ∃ f ≠ 0, m'.2.pte q = ⟨f, flags⟩) ∧
      ∀ q < userPages, q ∉ pages.take count → m'.2.pte q = m.2.pte q := by
  induction pages generalizing m count with
  | nil =>
    cases done
    simp
  | cons page rest ih =>
    obtain ⟨hr, ne⟩ := nodup_cons.mp ne
    rw [mapFresh] at done
    split at done
    · cases done
      simp
    next some =>
    obtain ⟨next, hm, hl⟩ := bind_eq_some_iff.mp done
    obtain ⟨⟨more, last⟩, loop, eq⟩ := map_eq_some_iff.mp hl
    cases eq
    obtain ⟨entry, ha, ho⟩ := vmmMapUserPage_pte hi.head hm
    obtain ⟨hs, hf, kept⟩ := ih ne hi.tail loop
    have hc : ∀ q ∈ rest.take more, q ≠ page := fun q mem eq =>
      hr (eq ▸ mem_of_mem_take mem)
    simp only [take_succ_cons, mem_cons, length_cons, forall_eq_or_imp, not_or]
    refine ⟨by omega, ⟨⟨ha, _, some, ?_⟩, fun q mem => ?_⟩, fun q small outside => ?_⟩
    · rw [kept page hi.head fun mem => hc page mem rfl, entry]
      cases flags
      simpa using hp.symm
    · obtain ⟨was, rest⟩ := hf q mem
      rw [ho q (hi.tail q (mem_of_mem_take mem)) (hc q mem)] at was
      exact ⟨was, rest⟩
    · rw [kept q small outside.2, ho q small outside.1]

theorem mapShared_pte {mf : Memfd} {w : Bool} {i : Nat} (hp : flags.present = true)
    (ne : pages.Nodup) (hi : InUser pages)
    (done : mapShared mf flags i pages m = some (w, m')) :
    ∃ count, (w = true → count = pages.length) ∧
      (∀ q ∈ pages.take count, (m.2.pte q).flags.present = false ∧
        ∃ j < mf.pageCount, mf.physPages j ≠ 0 ∧ m'.2.pte q = ⟨mf.physPages j, flags⟩) ∧
      ∀ q < userPages, q ∉ pages.take count → m'.2.pte q = m.2.pte q := by
  induction pages generalizing m i with
  | nil =>
    cases done
    exact ⟨0, by simp⟩
  | cons page rest ih =>
    obtain ⟨hr, ne⟩ := nodup_cons.mp ne
    rw [mapShared] at done
    split at done
    · cases done
      exact ⟨0, by simp⟩
    next ht =>
    obtain ⟨hb, some⟩ := not_or.mp ht
    obtain ⟨next, hm, loop⟩ := bind_eq_some_iff.mp done
    obtain ⟨entry, ha, ho⟩ := vmmMapUserPage_pte hi.head hm
    obtain ⟨more, hc, hf, kept⟩ := ih ne hi.tail loop
    have hd : ∀ q ∈ rest.take more, q ≠ page := fun q mem eq =>
      hr (eq ▸ mem_of_mem_take mem)
    refine ⟨more + 1, fun all => by simp [hc all], ?_⟩
    simp only [take_succ_cons, mem_cons, forall_eq_or_imp, not_or]
    refine ⟨⟨⟨ha, i, by omega, some, ?_⟩, fun q mem => ?_⟩, fun q small outside => ?_⟩
    · rw [kept page hi.head fun mem => hd page mem rfl, entry]
      cases flags
      simpa using hp.symm
    · obtain ⟨was, rest⟩ := hf q mem
      rw [ho q (hi.tail q (mem_of_mem_take mem)) (hd q mem)] at was
      exact ⟨was, rest⟩
    · rw [kept q small outside.2, ho q small outside.1]

theorem mapShared_whole {mf : Memfd} {w : Bool} {i : Nat}
    (hl : ∀ j < mf.pageCount, mf.physPages j ≠ 0) (long : i + pages.length ≤ mf.pageCount)
    (done : mapShared mf flags i pages m = some (w, m')) : w = true := by
  induction pages generalizing m i with
  | nil => exact (Prod.mk.inj (some.inj done)).1.symm
  | cons page rest ih =>
    rw [length_cons] at long
    rw [mapShared, if_neg (not_or.mpr ⟨by omega, hl i (by omega)⟩)] at done
    obtain ⟨next, -, loop⟩ := bind_eq_some_iff.mp done
    exact ih (by omega) loop

theorem setProts_pte (ne : pages.Nodup) (hi : InUser pages) :
    ∀ q < userPages, (pages.foldl (fun s page => vmmSetUserProt s page flags) s).pte q =
      if q ∈ pages ∧ (s.pte q).flags.present then ⟨(s.pte q).frame, flags⟩ else s.pte q := by
  induction pages generalizing s with
  | nil => simp
  | cons page rest ih =>
    obtain ⟨hf, ne⟩ := nodup_cons.mp ne
    intro q lt
    rw [foldl_cons, ih ne hi.tail q lt]
    by_cases eq : q = page
    · subst eq
      simp [hf, pte_setProt]
    · simp [eq, pte_setProt_other hi.head lt eq]

end

section
open List Option

section
variable {m m' : Mem} {a : MmapArgs} {files : Nat → Option Memfd} {r : Except Nat Nat}
  {base len addr prot q : Nat}

theorem pageUp_mod (len : Nat) : pageUp len % 4096 = 0 := by
  simp [pageUp]

theorem pagesOf_nodup : (pagesOf base len).Nodup := nodup_range'

theorem length_pagesOf : (pagesOf base len).length = len / 4096 := length_range'

theorem mem_pagesOf (hd : base % 4096 = 0) (hw : len % 4096 = 0) :
    q ∈ pagesOf base len ↔ base ≤ 4096 * q ∧ 4096 * q < base + len := by
  simp only [pagesOf, mem_range'_1]
  omega

theorem pagesOf_inUser (hb : base + len ≤ 2 ^ 47) : InUser (pagesOf base len) := by
  intro q mem
  simp only [pagesOf, mem_range'_1] at mem
  simp only [userPages]
  omega

def mmapTarget (m : Mem) (a : MmapArgs) : Nat :=
  if a.fixed then a.addr else mmapBaseFor m (pageUp a.len)

def mmapReady (m : Mem) (a : MmapArgs) : Mem :=
  if a.fixed then mmapClear m a.addr (pageUp a.len) else mmapTake m (pageUp a.len)

def Mappable (m : Mem) (a : MmapArgs) : Prop :=
  0 < pageUp a.len ∧ a.prot < 8 ∧ (a.fileBacked = true ∨ a.anonymous = true) ∧
    (a.fileBacked = true → a.off % 4096 = 0) ∧
    (if a.fixed then a.addr % 4096 = 0 else a.addr = 0) ∧
    mmapTarget m a + pageUp a.len ≤ if a.fixed then 2 ^ 47 else userAddrMax
  deriving Decidable

theorem sysMmap_cases (done : sysMmap files m a = some (m', r)) : (m' = m ∧ ∃ e, r = .error e) ∨
      (0 < pageUp a.len ∧ m' = mmapTake m (pageUp a.len) ∧ r = .error enomem) ∨
      (Mappable m a ∧ mmapAt files (mmapReady m a) a (mmapTarget m a) = some (m', r)) := by
  have hr : ∀ {e}, some (m, Except.error e) = some (m', r) → m' = m ∧ ∃ e, r = .error e := by
    rintro e eq
    cases eq
    exact ⟨rfl, e, rfl⟩
  rw [sysMmap] at done
  split_ifs at done with empty bits source offset fixed
  · exact .inl (hr done)
  · exact .inl (hr done)
  · exact .inl (hr done)
  · exact .inl (hr done)
  · rw [mmapFixed] at done
    split_ifs at done with unaligned outside
    · exact .inl (hr done)
    · exact .inl (hr done)
    refine .inr (.inr ⟨?_, by simpa only [mmapReady, mmapTarget, fixed, if_true] using done⟩)
    simp only [Mappable, mmapTarget, fixed, if_true]
    refine ⟨by omega, by omega, ?_, ?_, by omega, by omega⟩
    · simpa [or_iff_not_imp_left] using source
    · simpa using offset
  · rw [mmapAnywhere] at done
    rw [Bool.not_eq_true] at fixed
    split_ifs at done with hint outside
    · exact .inl (hr done)
    · cases done
      exact .inr (.inl ⟨by omega, rfl, rfl⟩)
    refine .inr (.inr ⟨?_, by simpa [mmapReady, mmapTarget, fixed] using done⟩)
    simp only [Mappable, mmapTarget, fixed, Bool.false_eq_true, if_false]
    refine ⟨by omega, by omega, ?_, ?_, by omega, by omega⟩
    · simpa [or_iff_not_imp_left] using source
    · simpa using offset

theorem Mappable.inUser (ok : Mappable m a) : InUser (pagesOf (mmapTarget m a) (pageUp a.len)) := by
  refine pagesOf_inUser (ok.2.2.2.2.2.trans ?_)
  split_ifs <;> simp [userAddrMax]

structure Unchanged (m m' : Mem) : Prop where
  proc : m'.proc = { m.proc with space := m'.proc.space }
  pte : ∀ q < userPages, m'.proc.space.pte q = m.proc.space.pte q

structure Extended (m m' : Mem) (a : MmapArgs) (base : Nat) (type : VmaType) : Prop where
  proc : m'.proc = { m.proc with
    space := m'.proc.space
    mmapBase :=
      if !a.fixed && m.proc.mmapBase ≤ base then base + pageUp a.len else m.proc.mmapBase
    vmas := vmaInsert m.proc.vmas ⟨base, pageUp a.len, a.prot % 8, type⟩ }
  vacant : ∀ q ∈ pagesOf base (pageUp a.len), m.proc.space.pte q = Pte.zero
  filled : ∀ q ∈ pagesOf base (pageUp a.len),
    ∃ f ≠ 0, m'.proc.space.pte q = ⟨f, protFlags a.prot⟩
  others : ∀ q < userPages, q ∉ pagesOf base (pageUp a.len) →
    m'.proc.space.pte q = m.proc.space.pte q

theorem mmapPrivate_effect (hb : m.proc.space.Backed)
    (ha : m.proc.space.Awake (pagesOf base (pageUp a.len)))
    (hi : InUser (pagesOf base (pageUp a.len))) (done : mmapPrivate m a base = some (m', r)) :
    (r = .error enomem ∧ Unchanged m m') ∨ (r = .ok base ∧ Extended m m' a base .mmap) := by
  obtain ⟨⟨count, last⟩, loop, hr⟩ := map_eq_some_iff.mp done
  obtain ⟨hh, hf, kept⟩ := mapFresh_pte rfl pagesOf_nodup hi loop
  have hv : ∀ q ∈ (pagesOf base (pageUp a.len)).take count,
      m.proc.space.pte q = Pte.zero := fun q mem =>
    Pte.zero_of_awake (ha q (mem_of_mem_take mem)) (hf q mem).1
  simp only at hr
  split at hr
  · cases hr
    refine .inl ⟨rfl, rfl, fun q lt => ?_⟩
    have hs : last.2.Backed := by
      intro p hc used
      by_cases mem : p ∈ (pagesOf base (pageUp a.len)).take count
      · obtain ⟨-, f, hn, entry⟩ := hf p mem
        rw [entry]
        exact hn
      · rw [kept p hc mem] at used ⊢
        exact hb p hc used
    have front : InUser ((pagesOf base (pageUp a.len)).take count) := fun p mem =>
      hi p (mem_of_mem_take mem)
    refine ((dropPages_pte hs front).2 q lt).trans ?_
    by_cases mem : q ∈ (pagesOf base (pageUp a.len)).take count
    · obtain ⟨-, f, -, entry⟩ := hf q mem
      rw [if_pos ⟨mem, by rw [entry]; rfl⟩, hv q mem]
    · rw [if_neg fun both => mem both.1, kept q lt mem]
  · next all =>
    cases hr
    rw [take_of_length_le (by omega)] at hv hf kept
    exact .inr ⟨rfl, rfl, hv, fun q mem => (hf q mem).2, kept⟩

theorem mmapAt_anonymous (ha : a.anonymous = true) :
    mmapAt files m a base = mmapPrivate m a base := by
  simp [mmapAt, MmapArgs.fileBacked, ha]

def mmapType (a : MmapArgs) : VmaType :=
  if a.shared && a.fileBacked then .shared else .mmap

theorem mmapShared_effect {memfd : Option Memfd}
    (hl : ∀ mf ∈ memfd, ∀ j < mf.pageCount, mf.physPages j ≠ 0)
    (ha : m.proc.space.Awake (pagesOf base (pageUp a.len)))
    (hi : InUser (pagesOf base (pageUp a.len)))
    (done : mmapShared memfd m a base = some (m', r)) :
    ((∃ e, r = .error e) ∧ Unchanged m m') ∨ (r = .ok base ∧ Extended m m' a base .shared) := by
  cases memfd with
  | none =>
    cases done
    exact .inl ⟨⟨_, rfl⟩, rfl, fun q _ => rfl⟩
  | some mf =>
    rw [mmapShared] at done
    split at done
    · cases done
      exact .inl ⟨⟨_, rfl⟩, rfl, fun q _ => rfl⟩
    next long =>
    obtain ⟨⟨hw, last⟩, loop, hr⟩ := map_eq_some_iff.mp done
    have fits : 0 + (pagesOf base (pageUp a.len)).length ≤ mf.pageCount := by
      rw [length_pagesOf]
      omega
    obtain rfl := mapShared_whole (hl mf rfl) fits loop
    obtain ⟨count, hc, hf, kept⟩ := mapShared_pte rfl pagesOf_nodup hi loop
    rw [take_of_length_le (le_of_eq (hc rfl).symm)] at hf kept
    cases hr
    refine .inr ⟨rfl, rfl, fun q mem => ?_, fun q mem => ?_, kept⟩
    · exact Pte.zero_of_awake (ha q mem) (hf q mem).1
    · obtain ⟨-, j, -, hn, entry⟩ := hf q mem
      exact ⟨_, hn, entry⟩

theorem mmapAt_effect (hl : ∀ mf ∈ files (a.fd % 2 ^ 32), ∀ j < mf.pageCount, mf.physPages j ≠ 0)
    (hb : m.proc.space.Backed) (ha : m.proc.space.Awake (pagesOf base (pageUp a.len)))
    (hi : InUser (pagesOf base (pageUp a.len)))
    (done : mmapAt files m a base = some (m', r)) :
    ((∃ e, r = .error e) ∧ Unchanged m m') ∨ (r = .ok base ∧ Extended m m' a base (mmapType a)) := by
  rw [mmapAt] at done
  rw [mmapType]
  split_ifs at done ⊢
  · exact mmapShared_effect hl ha hi done
  rcases mmapPrivate_effect hb ha hi done with ⟨error, eq⟩ | he
  · exact .inl ⟨⟨_, error⟩, eq⟩
  · exact .inr he

structure Unmapped (m m' : Mem) (addr len : Nat) : Prop where
  proc : m'.proc = { m.proc with
    space := m'.proc.space
    mmapFree := mmapFreeInsert m.proc.mmapFree addr len
    vmas := vmaRemove m.proc.vmas addr len }
  pte : ∀ q < userPages, m'.proc.space.pte q =
    if q ∈ pagesOf addr len ∧ (m.proc.space.pte q).flags.present then Pte.zero
    else m.proc.space.pte q

def Unmappable (addr len : Nat) : Prop :=
  addr % 4096 = 0 ∧ addr < userAddrMax ∧ addr + pageUp len ≤ userAddrMax
  deriving Decidable

theorem sysMunmap_refused (hr : ¬ Unmappable addr len) : (sysMunmap m addr len).1 = m := by
  rw [sysMunmap]
  split_ifs with unaligned outside
  · rfl
  · rfl
  · exact absurd ⟨by omega, by omega, by omega⟩ hr

theorem sysMunmap_effect (ok : Unmappable addr len) (hb : m.proc.space.Backed) :
    Unmapped m (sysMunmap m addr len).1 addr (pageUp len) := by
  obtain ⟨hd, low, hl⟩ := ok
  rw [sysMunmap, if_neg (by omega), if_neg (by omega)]
  have hi : InUser (pagesOf addr (pageUp len)) := pagesOf_inUser (by simp [userAddrMax] at *; omega)
  exact ⟨rfl, (munmapPages_pte (m := (m.pmm, m.proc.space)) hb hi).2⟩

structure PageAligned (m : Mem) : Prop where
  brk : m.proc.brk % 4096 = 0
  brkUser : m.proc.brk ≤ 2 ^ 47
  bump : m.proc.mmapBase % 4096 = 0
  free : FreeAligned m.proc.mmapFree

theorem mmapAt_proc (done : mmapAt files m a base = some (m', r)) :
    m'.proc.brk = m.proc.brk ∧ m'.proc.mmapFree = m.proc.mmapFree ∧
      (m'.proc.mmapBase = m.proc.mmapBase ∨ m'.proc.mmapBase = base + pageUp a.len) := by
  have hf : ∀ x type, (mmapFinish (m.withSpace x) a base type).1.proc.mmapBase =
      m.proc.mmapBase ∨ (mmapFinish (m.withSpace x) a base type).1.proc.mmapBase =
        base + pageUp a.len := fun x type => by
    rw [mmapFinish, Mem.withSpace]
    simp only
    split_ifs <;> simp
  rw [mmapAt] at done
  split at done
  · cases memfd : files (a.fd % 2 ^ 32) with
    | none =>
      rw [memfd] at done
      cases done
      exact ⟨rfl, rfl, .inl rfl⟩
    | some mf =>
      rw [memfd, mmapShared] at done
      split at done
      · cases done
        exact ⟨rfl, rfl, .inl rfl⟩
      obtain ⟨⟨hw, last⟩, -, hr⟩ := map_eq_some_iff.mp done
      split at hr
      · rw [← (Prod.mk.inj hr).1]
        exact ⟨rfl, rfl, hf last .shared⟩
      · rw [← (Prod.mk.inj hr).1]
        exact ⟨rfl, rfl, .inl rfl⟩
  · obtain ⟨⟨count, last⟩, -, hr⟩ := map_eq_some_iff.mp done
    simp only at hr
    split at hr
    · rw [← (Prod.mk.inj hr).1]
      exact ⟨rfl, rfl, .inl rfl⟩
    · rw [← (Prod.mk.inj hr).1]
      exact ⟨rfl, rfl, hf last .mmap⟩

section
variable (hd : PageAligned m)
include hd

theorem mmapBaseFor_aligned (hw : len % 4096 = 0) : mmapBaseFor m len % 4096 = 0 := by
  rw [mmapBaseFor]
  split_ifs
  · exact hd.bump
  · exact (mmapFreeAlloc_aligned hd.free hw).1

theorem mmapTarget_aligned (ok : Mappable m a) : mmapTarget m a % 4096 = 0 := by
  have hp := ok.2.2.2.2.1
  rw [mmapTarget]
  split_ifs at hp ⊢
  · exact hp
  · exact mmapBaseFor_aligned hd (pageUp_mod _)

theorem PageAligned.take (hw : len % 4096 = 0) : PageAligned (mmapTake m len) :=
  ⟨hd.brk, hd.brkUser, hd.bump, (mmapFreeAlloc_aligned hd.free hw).2⟩

theorem PageAligned.ready : PageAligned (mmapReady m a) := by
  rw [mmapReady]
  split_ifs
  · exact ⟨hd.brk, hd.brkUser, hd.bump, hd.free⟩
  · exact hd.take (pageUp_mod _)

theorem PageAligned.mmap (done : sysMmap files m a = some (m', r)) : PageAligned m' := by
  rcases sysMmap_cases done with ⟨rfl, -⟩ | ⟨-, rfl, -⟩ | ⟨ok, hm⟩
  · exact hd
  · exact hd.take (pageUp_mod _)
  obtain ⟨brk, free, bump⟩ := mmapAt_proc hm
  have hr : PageAligned (mmapReady m a) := hd.ready
  have target := mmapTarget_aligned hd ok
  have hw := pageUp_mod a.len
  refine ⟨brk ▸ hr.brk, brk ▸ hr.brkUser, ?_, free ▸ hr.free⟩
  rcases bump with eq | hv
  · rw [eq]
    exact hr.bump
  · omega

end

theorem sysBrk_cases {arg : Nat} (done : sysBrk m arg = some (m', r)) :
    m' = m ∨ (arg < userAddrMax ∧ m.proc.brkBase ≤ arg) ∧ pageUp arg ≤ 2 ^ 47 ∧
      ((m.proc.brk < pageUp arg ∧ brkGrow m (pageUp arg) = some (m', r)) ∨
        (pageUp arg < m.proc.brk ∧ m' = brkShrink m (pageUp arg))) := by
  rw [sysBrk] at done
  split at done
  · exact .inl (Prod.mk.inj (some.inj done)).1.symm
  next ok =>
  have hb : pageUp arg ≤ 2 ^ 47 := by
    simp only [pageUp, userAddrMax] at *
    omega
  simp only at done
  split_ifs at done with grows shrinks
  · exact .inr ⟨⟨by omega, by omega⟩, hb, .inl ⟨grows, done⟩⟩
  · exact .inr ⟨⟨by omega, by omega⟩, hb, .inr ⟨shrinks, (Prod.mk.inj (some.inj done)).1.symm⟩⟩
  · exact .inl (Prod.mk.inj (some.inj done)).1.symm

theorem brkGrow_cases {arg : Nat} (done : brkGrow m arg = some (m', r)) :
    ∃ count last, mapFresh heapFlags (pagesOf m.proc.brk (arg - m.proc.brk))
        (m.pmm, m.proc.space) = some (count, last) ∧
      m'.pmm = last.1 ∧ m'.proc.space = last.2 ∧ m'.proc.mmapBase = m.proc.mmapBase ∧
      m'.proc.mmapFree = m.proc.mmapFree ∧ (m'.proc.brk = m.proc.brk ∨ m'.proc.brk = arg) := by
  obtain ⟨⟨count, last⟩, loop, hr⟩ := map_eq_some_iff.mp done
  refine ⟨count, last, loop, ?_⟩
  simp only at hr
  split at hr
  · rw [← (Prod.mk.inj hr).1]
    exact ⟨rfl, rfl, rfl, rfl, .inl rfl⟩
  · rw [← (Prod.mk.inj hr).1]
    exact ⟨rfl, rfl, rfl, rfl, .inr rfl⟩

theorem sysMprotect_proc (m : Mem) (addr len prot : Nat) :
    (sysMprotect m addr len prot).1.proc.brk = m.proc.brk ∧
    (sysMprotect m addr len prot).1.proc.mmapBase = m.proc.mmapBase ∧
    (sysMprotect m addr len prot).1.proc.mmapFree = m.proc.mmapFree := by
  rw [sysMprotect]
  split_ifs <;> exact ⟨rfl, rfl, rfl⟩

theorem memStep_aligned {c : MemCall} (hd : PageAligned m) (step : memStep m c = some m') :
    PageAligned m' := by
  cases c with
  | mmap files args =>
    obtain ⟨⟨last, r⟩, done, rfl⟩ := map_eq_some_iff.mp step
    exact hd.mmap done
  | munmap addr len =>
    rw [← some.inj step]
    by_cases ok : Unmappable addr len
    · rw [sysMunmap, if_neg (by have := ok.1; omega), if_neg (by have := ok.2; omega)]
      exact ⟨hd.brk, hd.brkUser, hd.bump,
        mmapFreeInsert_aligned hd.free ok.1 (pageUp_mod len)⟩
    · rw [sysMunmap_refused ok]
      exact hd
  | mprotect addr len prot =>
    obtain ⟨brk, bump, free⟩ := sysMprotect_proc m addr len prot
    rw [← some.inj step]
    exact ⟨brk ▸ hd.brk, brk ▸ hd.brkUser, bump ▸ hd.bump, free ▸ hd.free⟩
  | brk arg =>
    obtain ⟨⟨last, r⟩, done, rfl⟩ := map_eq_some_iff.mp step
    have hw := pageUp_mod arg
    rcases sysBrk_cases done with rfl | ⟨-, hb, ⟨-, hg⟩ | ⟨-, rfl⟩⟩
    · exact hd
    · obtain ⟨-, -, -, -, -, bump, free, brk⟩ := brkGrow_cases hg
      refine ⟨?_, ?_, by rw [bump]; exact hd.bump, by rw [free]; exact hd.free⟩
      · rcases brk with eq | hm
        · rw [eq]
          exact hd.brk
        · rwa [hm]
      · rcases brk with eq | hm
        · rw [eq]
          exact hd.brkUser
        · rwa [hm]
    · exact ⟨hw, hb, hd.bump, hd.free⟩

end

end

end Aegis.Memory
