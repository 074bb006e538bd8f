import Aegis.LabelledRun
import Aegis.MemSpec

/-! The free ranges over runs of anonymous `sys_mmap` calls without an address and of
`sys_munmap`. `sys_munmap` puts its range into the free list without a test: an empty range,
a range that is free already and a range above the bump pointer get in as well. The ranges
stay apart from each other, from the mapped pages and from the bump region in every run
whose `sys_munmap` calls give back a range that is none of these. -/

namespace Aegis.Memory

open LabelledRun

def AnonymousCall : MemCall → Prop
  | .mmap _ args => args.addr = 0 ∧ args.anonymous = true
  | .munmap _ _ => True
  | .mprotect _ _ _ => False
  | .brk _ => False

/-- The range that `sys_munmap` would put into the list is dropped because the list is full,
or is empty and joined to a neighbour, or is new: not empty, below the bump pointer and
apart from the ranges that are free. -/
def ReturnedOnce (m : Mem) : MemCall → Prop
  | .munmap addr len => Unmappable addr len →
      (¬ Adjacent m.proc.mmapFree addr (pageUp len) ∧ ¬ m.proc.mmapFree.length < mmapFreeMax) ∨
      (pageUp len = 0 ∧ Adjacent m.proc.mmapFree addr (pageUp len)) ∨
      (0 < pageUp len ∧ addr + pageUp len ≤ m.proc.mmapBase ∧
        ∀ e ∈ m.proc.mmapFree, FreeRange.Apart ⟨addr, pageUp len⟩ e)
  | _ => True

instance (c : MemCall) : Decidable (AnonymousCall c) := by
  rcases c <;> (dsimp only [AnonymousCall]; infer_instance)

instance (m : Mem) (c : MemCall) : Decidable (ReturnedOnce m c) := by
  rcases c <;> (dsimp only [ReturnedOnce]; infer_instance)

structure RangesApart (m : Mem) : Prop where
  list : FreeList m.proc.mmapFree
  below : ∀ e ∈ m.proc.mmapFree, e.stop ≤ m.proc.mmapBase
  unmapped : ∀ va < 2 ^ 47, InFree m.proc.mmapFree va →
    m.proc.space.pte (va / 4096) = Pte.zero

structure FreshRanges (m : Mem) : Prop where
  none : m.proc.mmapFree = []
  bump : m.proc.mmapBase = 0x700000000000
  image : ∀ q < userPages, m.proc.space.pte q ≠ Pte.zero →
    (m.proc.space.pte q).flags.present = true ∧ (m.proc.space.pte q).frame ≠ 0 ∧
      4096 * q < m.proc.mmapBase

structure RangeInvariant (m : Mem) : Prop extends RangesApart m where
  aligned : FreeAligned m.proc.mmapFree
  bumpAligned : m.proc.mmapBase % 4096 = 0
  backed : m.proc.space.Backed
  awake : ∀ q < userPages, ¬ (m.proc.space.pte q).Dormant
  bump : ∀ q < userPages, m.proc.mmapBase ≤ 4096 * q → m.proc.space.pte q = Pte.zero

section
variable {m m' : Mem} {a : MmapArgs} {files : Nat → Option Memfd} {r : Except Nat Nat}
  {addr len : Nat}

theorem FreshRanges.invariant (hf : FreshRanges m) : RangeInvariant m := by
  have he : ∀ va, ¬ InFree m.proc.mmapFree va := by
    rw [hf.none]
    rintro va ⟨e, mem, -⟩
    cases mem
  refine ⟨⟨?_, ?_, fun va _ hi => absurd hi (he va)⟩, ?_, ?_, ?_, ?_, ?_⟩
  · rw [hf.none]
    exact ⟨.nil, nofun⟩
  · rw [hf.none]
    nofun
  · rw [hf.none]
    nofun
  · rw [hf.bump]
  · exact fun q lt used => (hf.image q lt used).2.1
  · rintro q lt ⟨used, ha⟩
    rw [(hf.image q lt used).1] at ha
    cases ha
  · intro q lt hb
    by_contra used
    have low := (hf.image q lt used).2.2
    omega

variable {l : List FreeRange}

theorem FreeList.stop_le {e : FreeRange} {bound : Nat} (list : FreeList l) (mem : e ∈ l)
    (within : ∀ va, InFree l va → va < bound) : e.stop ≤ bound := by
  have proper := list.proper e mem
  have last := within (e.stop - 1) ⟨e, mem, by rw [FreeRange.stop]; omega, by
    rw [FreeRange.stop]
    omega⟩
  omega

theorem RangesApart.lt_base (ha : RangesApart m) {va : Nat}
    (hi : InFree m.proc.mmapFree va) : va < m.proc.mmapBase := by
  obtain ⟨e, mem, -, upper⟩ := hi
  have hb := ha.below e mem
  omega

section
variable (inv : RangeInvariant m)
include inv

theorem RangeInvariant.take (wide : 0 < len) (hw : len % 4096 = 0) :
    RangeInvariant (mmapTake m len) := by
  obtain ⟨list, hf, -⟩ := mmapFreeAlloc_spec inv.list wide
  refine ⟨⟨list, fun e mem => ?_, ?_⟩, (mmapFreeAlloc_aligned inv.aligned hw).2,
    inv.bumpAligned, inv.backed, inv.awake, inv.bump⟩
  · exact list.stop_le mem fun va hi => inv.lt_base (hf va hi)
  · exact fun va lt hi => inv.unmapped va lt (hf va hi)

/-- The chosen address is page aligned, and its range is free of both kinds: it is not in
the list any more, and it is new to the bump region or came out of the list. -/
theorem mmapBaseFor_spec (wide : 0 < len) (hw : len % 4096 = 0) :
    mmapBaseFor m len % 4096 = 0 ∧ (∀ va, mmapBaseFor m len ≤ va → va < mmapBaseFor m len + len →
        ¬ InFree (mmapTake m len).proc.mmapFree va) ∧
      (mmapBaseFor m len = m.proc.mmapBase ∨ mmapBaseFor m len + len ≤ m.proc.mmapBase) := by
  obtain ⟨-, hf, ht⟩ := mmapFreeAlloc_spec inv.list wide
  rw [mmapBaseFor]
  split
  · refine ⟨inv.bumpAligned, fun va lower _ hi => ?_, .inl rfl⟩
    have hb := inv.lt_base (hf va hi)
    omega
  · next some =>
    refine ⟨(mmapFreeAlloc_aligned inv.aligned hw).1, fun va lower upper => ?_, .inr ?_⟩
    · exact (ht some va lower upper).2
    have last := inv.lt_base (ht some ((mmapFreeAlloc m.proc.mmapFree len).1 + len - 1)
      (by omega) (by omega)).1
    omega

theorem RangeInvariant.unchanged (eq : Unchanged m m') : RangeInvariant m' := by
  have free : m'.proc.mmapFree = m.proc.mmapFree := by rw [eq.proc]
  have base : m'.proc.mmapBase = m.proc.mmapBase := by rw [eq.proc]
  refine ⟨⟨free ▸ inv.list, by rw [free, base]; exact inv.below, fun va lt hi => ?_⟩,
    free ▸ inv.aligned, base ▸ inv.bumpAligned, fun q lt used => ?_, fun q lt => ?_,
    fun q lt ha => ?_⟩
  · rw [eq.pte _ (by simp only [userPages]; omega)]
    exact inv.unmapped va lt (free ▸ hi)
  · rw [eq.pte q lt] at used ⊢
    exact inv.backed q lt used
  · rw [eq.pte q lt]
    exact inv.awake q lt
  · rw [eq.pte q lt]
    exact inv.bump q lt (base ▸ ha)

theorem RangeInvariant.extended {base : Nat} {type : VmaType} (he : Extended m m' a base type)
    (hf : a.fixed = false) (ha : base % 4096 = 0)
    (hc : ∀ va, base ≤ va → va < base + pageUp a.len → ¬ InFree m.proc.mmapFree va)
    (hp : base = m.proc.mmapBase ∨ base + pageUp a.len ≤ m.proc.mmapBase) :
    RangeInvariant m' := by
  have hw := pageUp_mod a.len
  have pages := fun q => mem_pagesOf (q := q) ha hw
  have free : m'.proc.mmapFree = m.proc.mmapFree := by rw [he.proc]
  have bump : m'.proc.mmapBase = max m.proc.mmapBase (base + pageUp a.len) := by
    rw [he.proc]
    simp only [hf, Bool.not_false, Bool.true_and, decide_eq_true_eq]
    split_ifs <;> omega
  refine ⟨⟨free ▸ inv.list, fun e mem => ?_, fun va lt inside => ?_⟩, free ▸ inv.aligned, ?_,
    fun q lt used => ?_, fun q lt => ?_, fun q lt above => ?_⟩
  · have hl := inv.below e (free ▸ mem)
    omega
  · rw [free] at inside
    rw [he.others _ (by simp only [userPages]; omega)]
    · exact inv.unmapped va lt inside
    intro mem
    have hb := (pages _).mp mem
    exact hc va (by omega) (by omega) inside
  · have := inv.bumpAligned
    omega
  · by_cases mem : q ∈ pagesOf base (pageUp a.len)
    · obtain ⟨f, hn, entry⟩ := he.filled q mem
      rw [entry]
      exact hn
    · rw [he.others q lt mem] at used ⊢
      exact inv.backed q lt used
  · by_cases mem : q ∈ pagesOf base (pageUp a.len)
    · obtain ⟨f, hn, entry⟩ := he.filled q mem
      rw [entry]
      exact fun hd => Bool.noConfusion hd.2
    · rw [he.others q lt mem]
      exact inv.awake q lt
  · have ho : q ∉ pagesOf base (pageUp a.len) := fun mem => by
      have hb := (pages q).mp mem
      omega
    rw [he.others q lt ho]
    exact inv.bump q lt (by omega)

theorem sysMmap_anonymous (hint : a.addr = 0) (ha : a.anonymous = true)
    (done : sysMmap files m a = some (m', r)) :
    RangeInvariant m' ∧ ∀ base, r = .ok base →
      ∀ q ∈ pagesOf base (pageUp a.len), m.proc.space.pte q = Pte.zero := by
  have hv : a.fixed = false := by simp [MmapArgs.fixed, hint]
  rcases sysMmap_cases done with ⟨rfl, e, rfl⟩ | ⟨wide, rfl, rfl⟩ | ⟨hc, hm⟩
  · exact ⟨inv, nofun⟩
  · exact ⟨inv.take wide (pageUp_mod _), nofun⟩
  have hi := hc.inUser
  have wide := hc.1
  simp only [mmapReady, mmapTarget, hv, Bool.false_eq_true, if_false] at hm hi
  obtain ⟨hl, hd, hp⟩ := mmapBaseFor_spec inv wide (pageUp_mod _)
  have took := inv.take wide (pageUp_mod _)
  rw [mmapAt_anonymous ha] at hm
  rcases mmapPrivate_effect took.backed (fun q mem => took.awake q (hi q mem)) hi
    hm with ⟨rfl, eq⟩ | ⟨rfl, he⟩
  · exact ⟨took.unchanged eq, nofun⟩
  refine ⟨took.extended he hv hl hd hp, fun base hr => ?_⟩
  cases hr
  exact he.vacant

end

theorem adjacent_apart (list : FreeList l) (next : Adjacent l addr 0) :
    ∀ x ∈ l, FreeRange.Apart ⟨addr, 0⟩ x := by
  obtain ⟨e, mem, hm⟩ := next
  intro x other
  have hp := list.proper e mem
  have properX := list.proper x other
  by_cases eq : e = x
  · subst eq
    simp only [FreeRange.Apart, FreeRange.stop] at hm ⊢
    omega
  · have ha := list.apart.forall mem other eq
    simp only [FreeRange.Apart, FreeRange.stop] at hm ha ⊢
    omega

theorem sysMunmap_returned (inv : RangeInvariant m) (once : ReturnedOnce m (.munmap addr len)) :
    RangeInvariant (sysMunmap m addr len).1 := by
  by_cases ok : Unmappable addr len
  · have effect := sysMunmap_effect ok inv.backed
    have pages := fun q => mem_pagesOf (q := q) ok.1 (pageUp_mod len)
    -- No page is dormant, so the loop clears every page of the range.
    have hc : ∀ q < userPages, (sysMunmap m addr len).1.proc.space.pte q =
        if q ∈ pagesOf addr (pageUp len) then Pte.zero else m.proc.space.pte q := by
      intro q lt
      rw [effect.pte q lt]
      by_cases hp : (m.proc.space.pte q).flags.present
      · simp [hp]
      · have zero := Pte.zero_of_awake (inv.awake q lt) (by simpa using hp)
        simp [zero]
    have free : (sysMunmap m addr len).1.proc.mmapFree =
        mmapFreeInsert m.proc.mmapFree addr (pageUp len) := by rw [effect.proc]
    have bump : (sysMunmap m addr len).1.proc.mmapBase = m.proc.mmapBase := by rw [effect.proc]
    have hn : FreeList (mmapFreeInsert m.proc.mmapFree addr (pageUp len)) ∧
        ∀ va, InFree (mmapFreeInsert m.proc.mmapFree addr (pageUp len)) va →
          InFree m.proc.mmapFree va ∨
            (va < m.proc.mmapBase ∧ addr ≤ va ∧ va < addr + pageUp len) := by
      rcases once ok with ⟨ha, full⟩ | ⟨he, next⟩ | ⟨wide, hb, hf⟩
      · rw [mmapFreeInsert_full ha full]
        exact ⟨inv.list, fun va => .inl⟩
      · rw [he] at next ⊢
        obtain ⟨list, cover⟩ :=
          mmapFreeInsert_spec inv.list (adjacent_apart inv.list next) (.inr next)
        exact ⟨list, fun va hi => (cover va hi).imp_right fun range => by omega⟩
      · obtain ⟨list, cover⟩ := mmapFreeInsert_spec inv.list hf (.inl wide)
        exact ⟨list, fun va hi => (cover va hi).imp_right fun range =>
          ⟨by omega, range⟩⟩
    refine ⟨⟨free ▸ hn.1, fun e mem => ?_, fun va lt hi => ?_⟩, ?_,
      bump ▸ inv.bumpAligned, fun q lt used => ?_, fun q lt => ?_, fun q lt above => ?_⟩
    · rw [free] at mem
      rw [bump]
      exact hn.1.stop_le mem fun va hi =>
        (hn.2 va hi).elim inv.lt_base And.left
    · rw [free] at hi
      rw [hc _ (by simp only [userPages]; omega)]
      rcases hn.2 va hi with old | range
      · rw [inv.unmapped va lt old, ite_self]
      · rw [if_pos ((pages _).mpr (by have := pageUp_mod len; have := ok.1; omega))]
    · rw [free]
      exact mmapFreeInsert_aligned inv.aligned ok.1 (pageUp_mod len)
    · rw [hc q lt] at used ⊢
      split_ifs at used ⊢
      · exact absurd rfl used
      · exact inv.backed q lt used
    · rw [hc q lt]
      split_ifs
      · exact fun hd => hd.1 rfl
      · exact inv.awake q lt
    · rw [hc q lt, inv.bump q lt (bump ▸ above), ite_self]
  · rw [sysMunmap_refused ok]
    exact inv

theorem memStep_ranges {c : MemCall} (inv : RangeInvariant m)
    (ok : AnonymousCall c ∧ ReturnedOnce m c) (step : memStep m c = some m') :
    RangeInvariant m' := by
  cases c with
  | mmap files args =>
    obtain ⟨⟨last, r⟩, done, rfl⟩ := Option.map_eq_some_iff.mp step
    exact (sysMmap_anonymous inv ok.1.1 ok.1.2 done).1
  | munmap addr len =>
    rw [← Option.some.inj step]
    exact sysMunmap_returned inv ok.2
  | mprotect addr len prot => exact ok.1.elim
  | brk addr => exact ok.1.elim

end

/-- Over whole runs: the free ranges are apart from each other, from the mapped pages and
from the bump region, and a new mapping without an address overlaps none. -/
theorem mmap_ranges_apart {start m : Mem} {calls : List MemCall} (fresh : FreshRanges start)
    (run : RunWhere memStep (fun m c => AnonymousCall c ∧ ReturnedOnce m c) start calls m) :
    RangesApart m ∧ ∀ files args m' base, AnonymousCall (.mmap files args) →
      sysMmap files m args = some (m', .ok base) →
      ∀ q ∈ pagesOf base (pageUp args.len), m.proc.space.pte q = Pte.zero := by
  have inv := run.invariant fresh.invariant fun _ _ _ inv ok step => memStep_ranges inv ok step
  refine ⟨inv.toRangesApart, fun files args m' base call done => ?_⟩
  exact (sysMmap_anonymous inv call.1 call.2 done).2 base rfl

theorem emptyProcess_fresh : FreshRanges emptyProcess := ⟨rfl, rfl, fun _ _ used => absurd rfl used⟩

def anonymousMmap (len : Nat) : MemCall :=
  .mmap (fun _ => none) ⟨0, len, 3, 0x22, 2 ^ 64 - 1, 0⟩

def reusedPage : Mem :=
  reached (guarded memStep fun m c => AnonymousCall c ∧ ReturnedOnce m c) emptyProcess
    [anonymousMmap 8192, .munmap mmapRegion 4096, anonymousMmap 100]

theorem mmap_ranges_apart_reused_page :
    reusedPage.proc.mmapBase = mmapRegion + 8192 ∧ reusedPage.proc.mmapFree = [] ∧
      RangesApart reusedPage := by
  have enabled : (exec (guarded memStep fun m c => AnonymousCall c ∧ ReturnedOnce m c) emptyProcess
      [anonymousMmap 8192, .munmap mmapRegion 4096, anonymousMmap 100]).isSome := by decide +kernel
  have run := runWhere_of_exec (exec_eq_reached enabled)
  exact ⟨by decide +kernel, by decide +kernel, (mmap_ranges_apart emptyProcess_fresh run).1⟩

def returnedTwice : Mem :=
  reached memStep emptyProcess
    [anonymousMmap 4096, .munmap mmapRegion 4096, .munmap mmapRegion 4096]

/-- The range is then in the list twice, and the kernel panics when it is mapped twice. -/
theorem munmap_twice_frees_twice :
    Run memStep emptyProcess [anonymousMmap 4096, .munmap mmapRegion 4096,
        .munmap mmapRegion 4096] returnedTwice ∧
      returnedTwice.proc.mmapFree = [⟨mmapRegion, 4096⟩, ⟨mmapRegion, 4096⟩] ∧
      ¬ RangesApart returnedTwice ∧
      exec memStep returnedTwice [anonymousMmap 4096, anonymousMmap 4096] = none := by
  have twice : returnedTwice.proc.mmapFree = [⟨mmapRegion, 4096⟩, ⟨mmapRegion, 4096⟩] := by
    decide +kernel
  refine ⟨run_of_exec exec_eq_reached, twice, fun ranges => ?_,
    Option.isNone_iff_eq_none.mp (by decide +kernel)⟩
  have apart := ranges.list.apart
  rw [twice] at apart
  exact absurd apart (by decide)

end Aegis.Memory
