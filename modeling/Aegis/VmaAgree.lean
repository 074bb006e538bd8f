import Aegis.LabelledRun
import Aegis.MemSpec

/-! Agreement of the VMA table with the page tables. Each memory call changes the two one
after the other: the table drops an entry or a split for which it has no slot, the page loops
pass over dormant pages, and the pages of a grown heap are executable although their entry is
not. In every run without these, a page is mapped exactly where an entry covers it, with the
permissions that the calls derive from the entry. -/

namespace Aegis.Memory

open LabelledRun Option Pte PteFlags

def PteFlags.perm (flags : PteFlags) : Bool × Bool × Bool :=
  (flags.present, flags.writable, flags.nx)

/-- The permission bits are those that `sys_mmap` or `sys_mprotect` derives. -/
def Derived (prot : Nat) (flags : PteFlags) : Prop :=
  flags.perm = (protFlags prot).perm ∨ flags.perm = (mprotectFlags prot).perm
  deriving Decidable

structure VmaAgreement (s : Space) (vmas : List VmaEntry) : Prop where
  covered : ∀ q < userPages, s.pte q ≠ Pte.zero ↔ ∃ prot type, Maps vmas (4096 * q) prot type
  derived : ∀ q < userPages, ∀ prot type, Maps vmas (4096 * q) prot type →
    Derived prot (s.pte q).flags

structure Coherent (s : Space) (vmas : List VmaEntry) : Prop extends VmaAgreement s vmas where
  sorted : VmaSorted vmas
  entries : ∀ e ∈ vmas, e.Aligned
  backed : s.Backed
  heapless : ∀ e ∈ vmas, e.type ≠ .heap

section
variable {s s' : Space} {vmas : List VmaEntry} {base len prot q : Nat} {type : VmaType}

theorem derived_protFlags (prot : Nat) : Derived (prot % 8) (protFlags prot) := by
  left
  have bits : ∀ i < 3, (prot % 8).testBit i = prot.testBit i := fun i lt => by
    rw [show 8 = 2 ^ 3 from rfl, Nat.testBit_mod_two_pow, decide_eq_true lt, Bool.true_and]
  rw [perm, perm, protFlags, protFlags, bits 1 (by decide), bits 2 (by decide)]

theorem derived_mprotectFlags (prot : Nat) : Derived (prot % 8) (mprotectFlags prot) := by
  by_cases none : prot = 0
  · subst none
    exact .inr rfl
  · rw [mprotectFlags, if_neg none]
    exact derived_protFlags prot

theorem Derived.dormant {flags : PteFlags} (derived : Derived prot flags)
    (ha : flags.present = false) : Derived 0 flags := by
  rcases derived with hm | hc
  · exact absurd (congrArg Prod.fst hm) (by simp [perm, protFlags, ha])
  by_cases none : prot = 0
  · subst none
    exact .inr hc
  · rw [mprotectFlags, if_neg none] at hc
    exact absurd (congrArg Prod.fst hc) (by simp [perm, protFlags, ha])

section
variable (hj : Coherent s vmas)
include hj

section
variable (start : base % 4096 = 0)
include start

section
variable (whole : len % 4096 = 0)
include whole

theorem Coherent.clear (ha : s.Awake (pagesOf base len))
    (room : 0 < len → VmaRoom (carve base (base + len) []) vmas)
    (pte : ∀ q < userPages, s'.pte q =
      if q ∈ pagesOf base len ∧ (s.pte q).flags.present then zero else s.pte q) :
    Coherent s' (vmaRemove vmas base len) := by
  have pages := fun q => mem_pagesOf (q := q) start whole
  have hc : ∀ q < userPages, s'.pte q = if q ∈ pagesOf base len then zero else s.pte q := by
    intro q lt
    rw [pte q lt]
    by_cases mem : q ∈ pagesOf base len
    · by_cases hp : (s.pte q).flags.present
      · simp [hp]
      · simp [zero_of_awake (ha q mem) (by simpa using hp)]
    · simp [mem]
  refine ⟨⟨fun q lt => ?_, fun q lt prot type maps => ?_⟩,
    vmaRemove_sorted hj.sorted room, all_remove (aligned_cut start whole) hj.entries,
    fun q lt used => ?_, all_remove type_cut hj.heapless⟩
  · rw [hc q lt]
    simp only [vmaRemove_maps hj.sorted room, ← pages]
    split_ifs with mem
    · simp [mem]
    · simp [mem, hj.covered q lt]
  · rw [vmaRemove_maps hj.sorted room, ← pages] at maps
    rw [hc q lt, if_neg maps.2]
    exact hj.derived q lt prot type maps.1
  · rw [hc q lt] at used ⊢
    split_ifs at used ⊢
    · exact absurd rfl used
    · exact hj.backed q lt used

theorem Coherent.apart (wide : 0 < len) (hn : InUser (pagesOf base len))
    (hv : ∀ q ∈ pagesOf base len, s.pte q = zero) :
    ∀ e ∈ vmas, e.stop ≤ base ∨ base + len ≤ e.base := by
  intro e mem
  by_contra overlap
  obtain ⟨h1, last⟩ := hj.entries e mem
  have hp : e.base < e.stop := Nat.lt_add_of_pos_right (hj.sorted.proper e mem)
  -- Both ranges are made of whole pages, so they have the start of a page in common.
  have page : 4096 * (max e.base base / 4096) = max e.base base := by omega
  have hi : max e.base base / 4096 ∈ pagesOf base len := (mem_pagesOf start whole).mpr (by omega)
  refine (hj.covered _ (hn _ hi)).mpr ?_ (hv _ hi)
  exact ⟨e.prot, e.type, e, mem, ⟨by omega, by omega⟩, rfl, rfl⟩

theorem Coherent.fill (wide : 0 < len) (hi : InUser (pagesOf base len)) (other : type ≠ .heap)
    (fits : VmaFits vmas ⟨base, len, prot % 8, type⟩)
    (hv : ∀ q ∈ pagesOf base len, s.pte q = zero)
    (hf : ∀ q ∈ pagesOf base len, ∃ f ≠ 0, s'.pte q = ⟨f, protFlags prot⟩)
    (ho : ∀ q < userPages, q ∉ pagesOf base len → s'.pte q = s.pte q) :
    Coherent s' (vmaInsert vmas ⟨base, len, prot % 8, type⟩) := by
  have pages := fun q => mem_pagesOf (q := q) start whole
  have ha := hj.apart start whole wide hi hv
  obtain ⟨hs, hm⟩ := vmaInsert_spec hj.sorted wide ha fits
  have new : VmaEntry.Aligned ⟨base, len, prot % 8, type⟩ := by
    simp only [VmaEntry.Aligned, VmaEntry.stop]
    omega
  have maps : ∀ q p t, Maps (vmaInsert vmas ⟨base, len, prot % 8, type⟩) (4096 * q) p t ↔
      Maps vmas (4096 * q) p t ∨ q ∈ pagesOf base len ∧ prot % 8 = p ∧ type = t := fun q p t => by
    rw [hm, maps_singleton, pages]
    rfl
  -- No old entry covers a page of the range.
  have hr : ∀ q ∈ pagesOf base len, ∀ p t, ¬ Maps vmas (4096 * q) p t := fun q mem p t old =>
    (hj.covered q (hi q mem)).mpr ⟨p, t, old⟩ (hv q mem)
  refine ⟨⟨fun q lt => ?_, fun q lt p t covers => ?_⟩, hs,
    all_insert aligned_merge hj.entries new, fun q lt used => ?_,
    type_insert hj.heapless other⟩
  · simp only [maps]
    by_cases mem : q ∈ pagesOf base len
    · obtain ⟨f, hn, entry⟩ := hf q mem
      refine iff_of_true (fun zero => hn ?_) ⟨_, _, .inr ⟨mem, rfl, rfl⟩⟩
      rw [entry] at zero
      exact congrArg frame zero
    · simp [mem, ho q lt mem, hj.covered q lt]
  · rcases (maps q p t).mp covers with old | ⟨mem, rfl, -⟩
    · rw [ho q lt fun mem => hr q mem p t old]
      exact hj.derived q lt p t old
    obtain ⟨f, -, entry⟩ := hf q mem
    rw [entry]
    exact derived_protFlags prot
  · by_cases mem : q ∈ pagesOf base len
    · obtain ⟨f, hn, entry⟩ := hf q mem
      rw [entry]
      exact hn
    · rw [ho q lt mem] at used ⊢
      exact hj.backed q lt used

theorem Coherent.protect (hw : prot % 8 ≠ 0 → s.Awake (pagesOf base len))
    (room : 0 < len → VmaRoom (repaint base (base + len) (prot % 8)) vmas)
    (pte : ∀ q < userPages, s'.pte q = if q ∈ pagesOf base len ∧ (s.pte q).flags.present then
      ⟨(s.pte q).frame, mprotectFlags prot⟩ else s.pte q) :
    Coherent s' (vmaUpdateProt vmas base len (prot % 8)) := by
  have pages := fun q => mem_pagesOf (q := q) start whole
  have frame : ∀ q < userPages, (s'.pte q).frame = (s.pte q).frame := fun q lt => by
    rw [pte q lt]
    split_ifs <;> rfl
  have used : ∀ q < userPages, s'.pte q ≠ Pte.zero ↔ s.pte q ≠ Pte.zero := fun q lt => by
    by_cases zero : s.pte q = Pte.zero
    · rw [pte q lt, zero]
      simp [Pte.zero, PteFlags.none]
    refine iff_of_true (fun gone => hj.backed q lt zero ?_) zero
    rw [← frame q lt, gone]
    rfl
  refine ⟨⟨fun q lt => ?_, fun q lt new type hc => ?_⟩, vmaUpdateProt_sorted hj.sorted room,
    all_updateProt (aligned_cut start whole) hj.entries, fun q lt hs => ?_,
    all_updateProt type_cut hj.heapless⟩
  · rw [used q lt, hj.covered q lt]
    simp only [vmaUpdateProt_maps room]
    constructor
    · rintro ⟨old, type, maps⟩
      exact ⟨_, type, old, maps, rfl⟩
    · rintro ⟨new, type, old, maps, -⟩
      exact ⟨old, type, maps⟩
  · obtain ⟨old, maps, rfl⟩ := (vmaUpdateProt_maps room).mp hc
    have pre := hj.derived q lt old type maps
    rw [pte q lt]
    by_cases mem : q ∈ pagesOf base len
    · rw [if_pos ((pages q).mp mem)]
      split_ifs with present
      · exact derived_mprotectFlags prot
      have ha : (s.pte q).flags.present = false := by simpa [mem] using present
      have zero : prot % 8 = 0 := by
        by_contra nonzero
        exact (hj.covered q lt).mpr ⟨old, type, maps⟩
          (Pte.zero_of_awake (hw nonzero q mem) ha)
      rw [zero]
      exact pre.dormant ha
    · rwa [if_neg fun hi => mem ((pages q).mpr hi), if_neg fun both => mem both.1]
  · rw [frame q lt]
    exact hj.backed q lt ((used q lt).mp hs)

end

end

end

end

def vacated (m : Mem) (a : MmapArgs) : List VmaEntry :=
  if a.fixed then m.proc.vmas.flatMap (carve a.addr (a.addr + pageUp a.len) []) else m.proc.vmas

def Protectable (addr len : Nat) : Prop :=
  addr % 4096 = 0 ∧ 0 < pageUp len ∧ addr + pageUp len ≤ userAddrMax
  deriving Decidable

/-- The call neither runs out of VMA slots nor unmaps, maps over or opens a dormant page, and
it does not give the heap a page. The memfd it maps has all its pages. -/
def KeepsVmas (m : Mem) : MemCall → Prop
  | .mmap files a => Mappable m a →
    (∀ mf ∈ files (a.fd % 2 ^ 32), ∀ j < mf.pageCount, mf.physPages j ≠ 0) ∧
      m.proc.space.Awake (pagesOf (mmapTarget m a) (pageUp a.len)) ∧
      (a.fixed = true → VmaRoom (carve a.addr (a.addr + pageUp a.len) []) m.proc.vmas) ∧
      VmaFits (vacated m a) ⟨mmapTarget m a, pageUp a.len, a.prot % 8, mmapType a⟩
  | .munmap addr len => Unmappable addr len →
    m.proc.space.Awake (pagesOf addr (pageUp len)) ∧
      (0 < pageUp len → VmaRoom (carve addr (addr + pageUp len) []) m.proc.vmas)
  | .mprotect addr len prot => Protectable addr len →
    (prot % 8 ≠ 0 → m.proc.space.Awake (pagesOf addr (pageUp len))) ∧
      VmaRoom (repaint addr (addr + pageUp len) (prot % 8)) m.proc.vmas
  | .brk arg => arg < userAddrMax → m.proc.brkBase ≤ arg → m.proc.brk < pageUp arg →
    (pmmAllocPage m.pmm).1 = 0

instance (m : Mem) (c : MemCall) : Decidable (KeepsVmas m c) := by
  rcases c <;> (dsimp only [KeepsVmas]; infer_instance)

structure TableInvariant (m : Mem) : Prop where
  coherent : Coherent m.proc.space m.proc.vmas
  aligned : PageAligned m
  unbroken : m.proc.brk ≤ m.proc.brkBase

section
variable {m m' : Mem} {a : MmapArgs} {files : Nat → Option Memfd} {r : Except Nat Nat}

theorem mmapType_ne_heap (a : MmapArgs) : mmapType a ≠ .heap := by
  rw [mmapType]
  split_ifs <;> decide

theorem Coherent.unchanged (hj : Coherent m.proc.space m.proc.vmas)
    (eq : Unchanged m m') : Coherent m'.proc.space m'.proc.vmas := by
  have vmas : m'.proc.vmas = m.proc.vmas := by rw [eq.proc]
  rw [vmas]
  refine ⟨⟨fun q lt => ?_, fun q lt => ?_⟩, hj.sorted, hj.entries,
    fun q lt => ?_, hj.heapless⟩
  · rw [eq.pte q lt]
    exact hj.covered q lt
  · rw [eq.pte q lt]
    exact hj.derived q lt
  · rw [eq.pte q lt]
    exact hj.backed q lt

theorem Coherent.ready (hj : Coherent m.proc.space m.proc.vmas) (ok : Mappable m a)
    (ha : m.proc.space.Awake (pagesOf (mmapTarget m a) (pageUp a.len)))
    (room : a.fixed = true → VmaRoom (carve a.addr (a.addr + pageUp a.len) []) m.proc.vmas) :
    Coherent (mmapReady m a).proc.space (mmapReady m a).proc.vmas ∧
      (mmapReady m a).proc.vmas = vacated m a ∧
      (mmapReady m a).proc.space.Awake (pagesOf (mmapTarget m a) (pageUp a.len)) := by
  have hp := ok.2.2.2.2.1
  have hi := ok.inUser
  rw [mmapTarget] at ha hi ⊢
  rw [mmapReady, vacated]
  split_ifs at * with fixed
  · have hd := dropPages_pte (m := (m.pmm, m.proc.space)) hj.backed hi
    refine ⟨hj.clear hp (pageUp_mod _) ha (fun _ => room fixed) hd.2,
      vmaRemove_eq hj.sorted ok.1 (room fixed), fun q mem => ?_⟩
    refine (hd.2 q (hi q mem)).symm ▸ ?_
    split_ifs
    · exact fun hdr => hdr.1 rfl
    · exact ha q mem
  · exact ⟨hj, rfl, ha⟩

theorem TableInvariant.mmap (inv : TableInvariant m) (ok : KeepsVmas m (.mmap files a))
    (done : sysMmap files m a = some (m', r)) :
    Coherent m'.proc.space m'.proc.vmas ∧ m'.proc.brk ≤ m'.proc.brkBase := by
  rcases sysMmap_cases done with ⟨rfl, -⟩ | ⟨-, rfl, -⟩ | ⟨hc, hm⟩
  · exact ⟨inv.coherent, inv.unbroken⟩
  · exact ⟨inv.coherent, inv.unbroken⟩
  obtain ⟨hl, ha, room, fits⟩ := ok hc
  obtain ⟨hr, table, hs⟩ := inv.coherent.ready hc ha room
  have hu : (mmapReady m a).proc.brk ≤ (mmapReady m a).proc.brkBase := by
    rw [mmapReady]
    split_ifs <;> exact inv.unbroken
  have hi := hc.inUser
  rcases mmapAt_effect hl hr.backed hs hi hm with ⟨-, eq⟩ | ⟨-, he⟩
  · refine ⟨hr.unchanged eq, ?_⟩
    rw [eq.proc]
    exact hu
  · rw [he.proc]
    refine ⟨?_, hu⟩
    exact hr.fill (mmapTarget_aligned inv.aligned hc) (pageUp_mod _) hc.1 hi
      (mmapType_ne_heap a) (table ▸ fits) he.vacant he.filled he.others

theorem brkGrow_failed {arg : Nat} (none : (pmmAllocPage m.pmm).1 = 0)
    (hg : m.proc.brk + 4096 ≤ arg) (done : brkGrow m arg = some (m', r)) :
    m'.proc = m.proc := by
  obtain ⟨⟨count, last⟩, loop, hr⟩ := map_eq_some_iff.mp done
  cases pages : pagesOf m.proc.brk (arg - m.proc.brk) with
  | nil =>
    have length := congrArg List.length pages
    rw [length_pagesOf, List.length_nil] at length
    omega
  | cons page rest =>
    rw [pages, mapFresh, if_pos none] at loop
    cases loop
    rw [pages, if_pos (by simp)] at hr
    rw [← (Prod.mk.inj hr).1]
    rfl

theorem TableInvariant.step {c : MemCall} (inv : TableInvariant m) (ok : KeepsVmas m c)
    (step : memStep m c = some m') : TableInvariant m' := by
  have hl := memStep_aligned inv.aligned step
  suffices after : Coherent m'.proc.space m'.proc.vmas ∧ m'.proc.brk ≤ m'.proc.brkBase from
    ⟨after.1, hl, after.2⟩
  cases c with
  | mmap files a =>
    obtain ⟨⟨last, r⟩, done, rfl⟩ := map_eq_some_iff.mp step
    exact inv.mmap ok done
  | munmap addr len =>
    rw [← some.inj step]
    by_cases hc : Unmappable addr len
    · obtain ⟨ha, room⟩ := ok hc
      have effect := sysMunmap_effect hc inv.coherent.backed
      rw [effect.proc]
      exact ⟨inv.coherent.clear hc.1 (pageUp_mod len) ha room effect.pte, inv.unbroken⟩
    · rw [sysMunmap_refused hc]
      exact ⟨inv.coherent, inv.unbroken⟩
  | mprotect addr len prot =>
    rw [← some.inj step, sysMprotect]
    split_ifs with unaligned empty outside
    · exact ⟨inv.coherent, inv.unbroken⟩
    · exact ⟨inv.coherent, inv.unbroken⟩
    · exact ⟨inv.coherent, inv.unbroken⟩
    obtain ⟨ha, room⟩ := ok ⟨by omega, by omega, by omega⟩
    have hi : InUser (pagesOf addr (pageUp len)) :=
      pagesOf_inUser (by simp only [userAddrMax] at outside; omega)
    exact ⟨inv.coherent.protect (by omega) (pageUp_mod len) ha (fun _ => room)
      (setProts_pte pagesOf_nodup hi), inv.unbroken⟩
  | brk arg =>
    obtain ⟨⟨last, r⟩, done, rfl⟩ := map_eq_some_iff.mp step
    have start := inv.aligned.brk
    have whole := pageUp_mod arg
    rcases sysBrk_cases done with rfl | ⟨⟨low, hb⟩, -, ⟨hr, hg⟩ | ⟨hs, -⟩⟩
    · exact ⟨inv.coherent, inv.unbroken⟩
    · rw [brkGrow_failed (ok low hb hr) (by omega) hg]
      exact ⟨inv.coherent, inv.unbroken⟩
    -- The break is at its base, below which it cannot go.
    have hu := inv.unbroken
    simp only [pageUp, userAddrMax] at hs low
    omega

end

/-- Over whole runs: the VMA table and the page tables agree. -/
theorem vma_table_agrees {start m : Mem} {calls : List MemCall} (inv : TableInvariant start)
    (run : RunWhere memStep KeepsVmas start calls m) :
    VmaAgreement m.proc.space m.proc.vmas :=
  (run.invariant inv fun _ _ _ inv ok step => inv.step ok step).coherent.toVmaAgreement

theorem emptyProcess_table : TableInvariant emptyProcess := by
  have bump : mmapRegion % 4096 = 0 := by decide
  refine ⟨⟨⟨fun q _ => ?_, nofun⟩, ⟨.nil, nofun⟩, nofun, fun q _ used => absurd rfl used, nofun⟩,
    ⟨rfl, by decide, bump, nofun⟩, le_rfl⟩
  exact iff_of_false (fun used => used rfl) nofun

def splitCalls : List MemCall :=
  [.mmap (fun _ => none) ⟨0, 0x3000, 3, 0x22, 2 ^ 64 - 1, 0⟩,
    .mprotect (mmapRegion + 0x1000) 4096 1, .mprotect (mmapRegion + 0x2000) 4096 0,
    .mmap (fun _ => none) ⟨mmapRegion, 100, 5, 0x32, 2 ^ 64 - 1, 0⟩,
    .munmap (mmapRegion + 0x1000) 4096]

def splitMapping : Mem :=
  reached (guarded memStep KeepsVmas) emptyProcess splitCalls

theorem vma_table_agrees_split_mapping : splitMapping.proc.vmas =
        [⟨mmapRegion, 4096, 5, .mmap⟩, ⟨mmapRegion + 0x2000, 4096, 0, .mmap⟩] ∧
      VmaAgreement splitMapping.proc.space splitMapping.proc.vmas := by
  have enabled : (exec (guarded memStep KeepsVmas) emptyProcess splitCalls).isSome := by
    decide +kernel
  have run := runWhere_of_exec (exec_eq_reached enabled)
  exact ⟨by decide +kernel, vma_table_agrees emptyProcess_table run⟩

def reopenCalls : List MemCall :=
  [.mmap (fun _ => none) ⟨0, 4096, 3, 0x22, 2 ^ 64 - 1, 0⟩, .mprotect mmapRegion 4096 0,
    .mprotect mmapRegion 4096 1]

def reopenedPage : Mem :=
  reached memStep emptyProcess reopenCalls

def grownHeap : Mem :=
  reached memStep emptyProcess [.brk 0x401000]

/-- The page stays closed although its entry says that it can be read, and the first page of
the heap can be executed although its entry says that it cannot. -/
theorem protection_differs_from_vma : Run memStep emptyProcess reopenCalls reopenedPage ∧
      ¬ VmaAgreement reopenedPage.proc.space reopenedPage.proc.vmas ∧
      Run memStep emptyProcess [.brk 0x401000] grownHeap ∧
      ¬ VmaAgreement grownHeap.proc.space grownHeap.proc.vmas := by
  have page : (⟨mmapRegion, 4096, 1, .mmap⟩ : VmaEntry) ∈ reopenedPage.proc.vmas := by
    decide +kernel
  have heap : (⟨0x400000, 4096, 3, .heap⟩ : VmaEntry) ∈ grownHeap.proc.vmas := by decide +kernel
  refine ⟨run_of_exec exec_eq_reached, fun agree => ?_, run_of_exec exec_eq_reached,
    fun agree => ?_⟩
  · exact absurd (agree.derived (mmapRegion / 4096) (by decide) 1 .mmap
      ⟨_, page, by decide, rfl, rfl⟩) (by decide +kernel)
  · exact absurd (agree.derived (0x400000 / 4096) (by decide) 3 .heap
      ⟨_, heap, by decide, rfl, rfl⟩) (by decide +kernel)

end Aegis.Memory
