import Aegis.Vmm
import Aegis.Vma
import Aegis.MmapFree

/-! The memory system calls of one process: `sys_brk`, `sys_mmap`, `sys_munmap` and
`sys_mprotect`. Arguments are 64-bit words; a result of `none` is a panic. The contents of
the pages are left out. A memfd is what the descriptor tables give for a descriptor when
the call is made; its pages are listed by `physPages`. -/

namespace Aegis.Memory

structure Memfd where
  inUse : Bool
  refcount : Nat
  physPages : Nat → Nat
  pageCount : Nat
  size : Nat

structure Proc where
  space : Space
  brk : Nat
  brkBase : Nat
  mmapBase : Nat
  mmapFree : List FreeRange
  vmas : List VmaEntry

structure Mem where
  pmm : Pmm
  proc : Proc

abbrev Outcome := Option (Mem × Except Nat Nat)

def einval : Nat := 22

def enomem : Nat := 12

def userAddrMax : Nat := 0x7FFFFFFFFFFF

def pageUp (len : Nat) : Nat :=
  (len + 4095) % 2 ^ 64 / 4096 * 4096

def pagesOf (base len : Nat) : List Nat :=
  List.range' (base / 4096) (len / 4096)

def sub64 (a b : Nat) : Nat :=
  (a + 2 ^ 64 - b) % 2 ^ 64

def dropPage (m : Pmm × Space) (page : Nat) : Pmm × Space :=
  if vmmPhysOfUser m.2 page = 0 then m
  else (pmmFreePage m.1 (vmmPhysOfUser m.2 page), vmmUnmapUserPage m.2 page)

/-- The page loop of `sys_munmap`: the entry is looked up whether or not it is present. -/
def munmapPage (shared : Bool) (m : Pmm × Space) (page : Nat) : Pmm × Space :=
  if vmmPhysOfUserRaw m.2 page = 0 then m
  else
    (if shared then m.1 else pmmFreePage m.1 (vmmPhysOfUserRaw m.2 page),
      vmmUnmapUserPage m.2 page)

/-- Map a fresh frame at each page, until an allocation fails; the number of pages mapped. -/
def mapFresh (flags : PteFlags) : List Nat → Pmm × Space → Option (Nat × (Pmm × Space))
  | [], m => some (0, m)
  | page :: rest, m =>
    if (pmmAllocPage m.1).1 = 0 then some (0, ((pmmAllocPage m.1).2, m.2))
    else
      (vmmMapUserPage (pmmAllocPage m.1).2 m.2 page (pmmAllocPage m.1).1 flags).bind fun next =>
        (mapFresh flags rest next).map fun r => (r.1 + 1, r.2)

/-- Map the pages of a memfd from index `i` on; `false` when one of them is missing. -/
def mapShared (mf : Memfd) (flags : PteFlags) :
    Nat → List Nat → Pmm × Space → Option (Bool × (Pmm × Space))
  | _, [], m => some (true, m)
  | i, page :: rest, m =>
    if mf.pageCount ≤ i ∨ mf.physPages i = 0 then some (false, m)
    else
      (vmmMapUserPage m.1 m.2 page (mf.physPages i) flags).bind fun next =>
        mapShared mf flags (i + 1) rest next

def Mem.withSpace (m : Mem) (r : Pmm × Space) : Mem :=
  { m with pmm := r.1, proc := { m.proc with space := r.2 } }

def Mem.withVmas (m : Mem) (vmas : List VmaEntry) : Mem :=
  { m with proc := { m.proc with vmas := vmas } }

def isHeap (e : VmaEntry) : Bool :=
  e.type = .heap

def setHeapLen (len : VmaEntry → Nat) : List VmaEntry → List VmaEntry
  | [] => []
  | e :: rest => if isHeap e then { e with len := len e } :: rest else e :: setHeapLen len rest

def heapFlags : PteFlags := ⟨true, true, true, false⟩

def brkGrow (m : Mem) (arg : Nat) : Outcome :=
  let pages := pagesOf m.proc.brk (arg - m.proc.brk)
  (mapFresh heapFlags pages (m.pmm, m.proc.space)).map fun r =>
    let mapped := m.withSpace r.2
    if r.1 < pages.length then (mapped, .ok m.proc.brk)
    else
      let vmas :=
        if m.proc.vmas.any isHeap then setHeapLen (fun e => sub64 arg e.base) m.proc.vmas
        else vmaInsert m.proc.vmas ⟨m.proc.brk, arg - m.proc.brk, 3, .heap⟩
      ({ mapped with proc := { mapped.proc with brk := arg, vmas := vmas } }, .ok arg)

def brkShrink (m : Mem) (arg : Nat) : Mem :=
  let dropped :=
    m.withSpace ((pagesOf arg (m.proc.brk - arg)).foldl dropPage (m.pmm, m.proc.space))
  let vmas := match m.proc.vmas.find? isHeap with
    | none => m.proc.vmas
    | some e =>
      if arg ≤ e.base then vmaRemove m.proc.vmas e.base e.len
      else setHeapLen (fun e => arg - e.base) m.proc.vmas
  { dropped with proc := { dropped.proc with brk := arg, vmas := vmas } }

def sysBrk (m : Mem) (arg : Nat) : Outcome :=
  if arg = 0 ∨ userAddrMax ≤ arg ∨ arg < m.proc.brkBase then some (m, .ok m.proc.brk)
  else
    let arg := pageUp arg
    if m.proc.brk < arg then brkGrow m arg
    else if arg < m.proc.brk then some (brkShrink m arg, .ok arg)
    else some (m, .ok m.proc.brk)

structure MmapArgs where
  addr : Nat
  len : Nat
  prot : Nat
  flags : Nat
  fd : Nat
  off : Nat

def MmapArgs.shared (a : MmapArgs) : Bool := a.flags.testBit 0

def MmapArgs.fixed (a : MmapArgs) : Bool := a.flags.testBit 4 && a.addr ≠ 0

def MmapArgs.anonymous (a : MmapArgs) : Bool := a.flags.testBit 5

def MmapArgs.fileBacked (a : MmapArgs) : Bool := !a.anonymous && a.fd ≠ 2 ^ 64 - 1

def protFlags (prot : Nat) : PteFlags :=
  ⟨true, prot.testBit 1, true, !prot.testBit 2⟩

/-- Advance the bump pointer if the range came from it, and record the range. -/
def mmapFinish (m : Mem) (a : MmapArgs) (base : Nat) (type : VmaType) : Mem × Except Nat Nat :=
  let len := pageUp a.len
  ({ m with proc := { m.proc with
      mmapBase := if !a.fixed && m.proc.mmapBase ≤ base then base + len else m.proc.mmapBase
      vmas := vmaInsert m.proc.vmas ⟨base, len, a.prot % 8, type⟩ } }, .ok base)

def mmapPrivate (m : Mem) (a : MmapArgs) (base : Nat) : Outcome :=
  let pages := pagesOf base (pageUp a.len)
  (mapFresh (protFlags a.prot) pages (m.pmm, m.proc.space)).map fun r =>
    if r.1 < pages.length then
      (m.withSpace ((pages.take r.1).foldl dropPage r.2), .error enomem)
    else mmapFinish (m.withSpace r.2) a base .mmap

def mmapShared (memfd : Option Memfd) (m : Mem) (a : MmapArgs) (base : Nat) : Outcome :=
  match memfd with
  | none => some (m, .error einval)
  | some mf =>
    if mf.pageCount * 4096 < pageUp a.len then some (m, .error einval)
    else
      (mapShared mf (protFlags a.prot) 0 (pagesOf base (pageUp a.len)) (m.pmm, m.proc.space)).map
        fun r =>
          if r.1 then mmapFinish (m.withSpace r.2) a base .shared
          else (m.withSpace r.2, .error einval)

def mmapAt (files : Nat → Option Memfd) (m : Mem) (a : MmapArgs) (base : Nat) : Outcome :=
  if a.shared && a.fileBacked then mmapShared (files (a.fd % 2 ^ 32)) m a base
  else mmapPrivate m a base

def mmapClear (m : Mem) (base len : Nat) : Mem :=
  let dropped := m.withSpace ((pagesOf base len).foldl dropPage (m.pmm, m.proc.space))
  dropped.withVmas (vmaRemove m.proc.vmas base len)

def mmapFixed (files : Nat → Option Memfd) (m : Mem) (a : MmapArgs) : Outcome :=
  let len := pageUp a.len
  if a.addr % 4096 ≠ 0 then some (m, .error einval)
  else if 2 ^ 47 ≤ a.addr ∨ 2 ^ 47 < a.addr + len then some (m, .error einval)
  else mmapAt files (mmapClear m a.addr len) a a.addr

/-- The address `sys_mmap` chooses: from the free list, else at the bump pointer. -/
def mmapBaseFor (m : Mem) (len : Nat) : Nat :=
  if (mmapFreeAlloc m.proc.mmapFree len).1 = 0 then m.proc.mmapBase
  else (mmapFreeAlloc m.proc.mmapFree len).1

def mmapTake (m : Mem) (len : Nat) : Mem :=
  { m with proc := { m.proc with mmapFree := (mmapFreeAlloc m.proc.mmapFree len).2 } }

def mmapAnywhere (files : Nat → Option Memfd) (m : Mem) (a : MmapArgs) : Outcome :=
  let len := pageUp a.len
  if a.addr ≠ 0 then some (m, .error einval)
  else if userAddrMax < mmapBaseFor m len + len then some (mmapTake m len, .error enomem)
  else mmapAt files (mmapTake m len) a (mmapBaseFor m len)

def sysMmap (files : Nat → Option Memfd) (m : Mem) (a : MmapArgs) : Outcome :=
  if pageUp a.len = 0 then some (m, .error einval)
  else if 8 ≤ a.prot then some (m, .error einval)
  else if !a.fileBacked && !a.anonymous then some (m, .error einval)
  else if a.fileBacked && a.off % 4096 ≠ 0 then some (m, .error einval)
  else if a.fixed then mmapFixed files m a
  else mmapAnywhere files m a

def isSharedVma (m : Mem) (addr : Nat) : Bool :=
  m.proc.vmas.any fun e => e.base = addr ∧ e.type = .shared

def sysMunmap (m : Mem) (addr len : Nat) : Mem × Except Nat Nat :=
  let len := pageUp len
  if addr % 4096 ≠ 0 then (m, .error einval)
  else if userAddrMax ≤ addr ∨ userAddrMax < addr + len then (m, .error einval)
  else
    let unmapped := m.withSpace
      ((pagesOf addr len).foldl (munmapPage (isSharedVma m addr)) (m.pmm, m.proc.space))
    ({ unmapped with proc := { unmapped.proc with
        mmapFree := mmapFreeInsert m.proc.mmapFree addr len
        vmas := vmaRemove m.proc.vmas addr len } }, .ok 0)

def mprotectFlags (prot : Nat) : PteFlags :=
  if prot = 0 then .none else protFlags prot

def sysMprotect (m : Mem) (addr len prot : Nat) : Mem × Except Nat Nat :=
  let len := pageUp len
  if addr % 4096 ≠ 0 then (m, .error einval)
  else if len = 0 then (m, .ok 0)
  else if userAddrMax < addr + len then (m, .error einval)
  else
    let space := (pagesOf addr len).foldl
      (fun s page => vmmSetUserProt s page (mprotectFlags prot)) m.proc.space
    ({ m with proc := { m.proc with
        space := space
        vmas := vmaUpdateProt m.proc.vmas addr len (prot % 8) } }, .ok 0)

inductive MemCall where
  | mmap (files : Nat → Option Memfd) (args : MmapArgs)
  | munmap (addr len : Nat)
  | mprotect (addr len prot : Nat)
  | brk (addr : Nat)

def memStep (m : Mem) : MemCall → Option Mem
  | .mmap files args => (sysMmap files m args).map Prod.fst
  | .munmap addr len => some (sysMunmap m addr len).1
  | .mprotect addr len prot => some (sysMprotect m addr len prot).1
  | .brk addr => (sysBrk m addr).map Prod.fst

def smallPmm : Pmm :=
  ⟨fun f => f = 0 ∨ 32 ≤ f, fun _ => 0, [], []⟩

def mmapRegion : Nat := 0x700000000000

def emptyProcess : Mem where
  pmm := (pmmAllocPage smallPmm).2
  proc := ⟨⟨(pmmAllocPage smallPmm).1, RadixTree.empty Pte.zero 3⟩, 0x400000, 0x400000,
    mmapRegion, [], []⟩

end Aegis.Memory
