import Aegis.MemCalls

/-! Shared memory between processes: the table of memfds, the descriptors that name them and
the calls that map, resize and release their pages, over a system of processes. One event is
one call of one process, except that the loops that close descriptors (`fd_table_unref` at an
exit, the close-on-exec loop of `sys_execve`) take an event for each descriptor. A descriptor
that is sent over a socket is received at once. Names, capabilities and page contents are
left out, and so are the kernel's own pages. -/

namespace Aegis.Memory

open Function (update)

def memfdMax : Nat := 16

def memfdPagesMax : Nat := 2048

def procMaxFds : Nat := 16

def maxProcesses : Nat := 64

def ebadf : Nat := 9

def emfile : Nat := 24

def enocap : Nat := 130

structure FdEntry where
  memfd : Option Nat
  cloexec : Bool

/-- A process; `closing` lists the descriptors that its call has yet to close. It is a zombie
when it is exiting and has closed them all. -/
structure Process where
  mem : Proc
  fds : Nat → Option FdEntry
  closing : List Nat
  exiting : Bool

structure System where
  pmm : Pmm
  memfds : Nat → Memfd
  procs : Nat → Option Process

namespace System

def proc (s : System) (i : Nat) : Option Process :=
  if i < maxProcesses then s.procs i else none

def setProc (s : System) (i : Nat) (p : Process) : System :=
  { s with procs := update s.procs i (some p) }

def setMemfd (s : System) (id : Nat) (mf : Memfd) : System :=
  { s with memfds := update s.memfds id mf }

def mem (s : System) (p : Process) : Mem :=
  ⟨s.pmm, p.mem⟩

def setMem (s : System) (i : Nat) (p : Process) (m : Mem) : System :=
  { s.setProc i { p with mem := m.proc } with pmm := m.pmm }

end System

def memfdGet (s : System) (id : Nat) : Option Memfd :=
  if id < memfdMax ∧ (s.memfds id).inUse then some (s.memfds id) else none

def newMemfd : Memfd :=
  ⟨true, 1, fun _ => 0, 0, 0⟩

def memfdAlloc (s : System) : Option Nat :=
  (List.range memfdMax).find? fun id => !(s.memfds id).inUse

def freeFd (fds : Nat → Option FdEntry) : Option Nat :=
  (List.range procMaxFds).find? fun fd => (fds fd).isNone

def memfdFromFd (s : System) (p : Process) (fd : Nat) : Option Memfd :=
  if fd < procMaxFds then ((p.fds fd).bind FdEntry.memfd).bind (memfdGet s) else none

def sysMemfdCreate (s : System) (i : Nat) (p : Process) (ipc : Bool) : System × Except Nat Nat :=
  if !ipc then (s, .error enocap)
  else
    match memfdAlloc s with
    | none => (s, .error emfile)
    | some id =>
      match freeFd p.fds with
      | none => (s.setMemfd id { newMemfd with inUse := false, refcount := 0 }, .error emfile)
      | some fd =>
        ((s.setMemfd id newMemfd).setProc i
          { p with fds := update p.fds fd (some ⟨some id, false⟩) }, .ok fd)

def truncPages (size : Nat) : Nat :=
  (size + 4095) % 2 ^ 64 / 4096 % 2 ^ 32

/-- Fill the slots of the list with fresh pages, until an allocation fails. -/
def growPages : List Nat → Pmm × (Nat → Nat) → Bool × Pmm × (Nat → Nat)
  | [], x => (true, x)
  | j :: rest, x =>
    if (pmmAllocPage x.1).1 = 0 then (false, (pmmAllocPage x.1).2, x.2)
    else growPages rest ((pmmAllocPage x.1).2, update x.2 j (pmmAllocPage x.1).1)

def shrinkPage (x : Pmm × (Nat → Nat)) (j : Nat) : Pmm × (Nat → Nat) :=
  if x.2 j = 0 then x else (pmmFreePage x.1 (x.2 j), update x.2 j 0)

def memfdTruncate (s : System) (id size : Nat) : System × Except Nat Nat :=
  match memfdGet s id with
  | none => (s, .error ebadf)
  | some mf =>
    let pages := truncPages size
    if memfdPagesMax < pages then (s, .error enomem)
    else
      let grown := growPages (List.range' mf.pageCount (pages - mf.pageCount)) (s.pmm, mf.physPages)
      if grown.1 = false then
        ({ s.setMemfd id { mf with physPages := grown.2.2 } with pmm := grown.2.1 },
          .error enomem)
      else
        let shrunk := (List.range' pages (mf.pageCount - pages)).foldl shrinkPage grown.2
        ({ s.setMemfd id { mf with physPages := shrunk.2, pageCount := pages, size := size } with
            pmm := shrunk.1 }, .ok 0)

def sysFtruncate (s : System) (p : Process) (fd size : Nat) : System × Except Nat Nat :=
  match memfdFromFd s p (fd % 2 ^ 32) with
  | none => (s, .error einval)
  | some _ =>
    match (p.fds (fd % 2 ^ 32)).bind FdEntry.memfd with
    | none => (s, .error einval)
    | some id => memfdTruncate s id size

def memfdFrames (mf : Memfd) : List Nat :=
  if mf.inUse then ((List.range mf.pageCount).map mf.physPages).filter (· ≠ 0) else []

section
variable (s : System)

/-- Close one reference; the pages are freed with the last one. -/
def memfdVfsClose (id : Nat) : System :=
  match memfdGet s id with
  | none => s
  | some mf =>
    if mf.refcount = 1 then
      { s.setMemfd id { mf with refcount := 0, inUse := false } with
        pmm := freePages s.pmm (memfdFrames mf) }
    else s.setMemfd id { mf with refcount := (mf.refcount + 2 ^ 32 - 1) % 2 ^ 32 }

def memfdVfsDup (id : Nat) : System :=
  match memfdGet s id with
  | none => s
  | some mf => s.setMemfd id { mf with refcount := (mf.refcount + 1) % 2 ^ 32 }

def fdClose (e : FdEntry) : System :=
  match e.memfd with
  | none => s
  | some id => memfdVfsClose s id

def fdDup (e : FdEntry) : System :=
  match e.memfd with
  | none => s
  | some id => memfdVfsDup s id

def closeFd (i : Nat) (p : Process) (fd : Nat) : System :=
  match p.fds fd with
  | none => s.setProc i p
  | some e => fdClose (s.setProc i { p with fds := update p.fds fd none }) e

def sysClose (i : Nat) (p : Process) (fd : Nat) : System × Except Nat Nat :=
  if procMaxFds ≤ fd then (s, .error ebadf)
  else if (p.fds fd).isNone then (s, .error ebadf)
  else (closeFd s i p fd, .ok 0)

def installFd (i : Nat) (p : Process) (e : FdEntry) : System :=
  match freeFd p.fds with
  | none => s
  | some fd => fdDup (s.setProc i { p with fds := update p.fds fd (some e) }) e

def sysDup (i : Nat) (p : Process) (fd : Nat) : System :=
  if procMaxFds ≤ fd then s
  else
    match p.fds fd with
    | none => s
    | some e => installFd s i p { e with cloexec := false }

/-- A descriptor sent by `p` and received by process `j`; it is dropped when the receiver has
no free slot. -/
def passFd (p : Process) (fd j : Nat) : System :=
  if procMaxFds ≤ fd then s
  else
    match p.fds fd, s.proc j with
    | some e, some receiver => installFd s j receiver e
    | _, _ => s

def setCloexec (i : Nat) (p : Process) (fd : Nat) (on : Bool) : System :=
  if procMaxFds ≤ fd then s
  else
    match p.fds fd with
    | none => s
    | some e => s.setProc i { p with fds := update p.fds fd (some { e with cloexec := on }) }

end

structure Segment where
  first : Nat
  count : Nat
  writable : Bool
  executable : Bool
  inUser : first + count ≤ userPages

/-- A program and the result of its checks: `complete` when the loader accepts all headers,
`argsFit` when the strings fit on the stack. The segments are those loaded in either case. -/
structure Image where
  segments : List Segment
  brk : Nat
  complete : Bool
  argsFit : Bool

/-- `kva_alloc_pages`: the frames of a new kernel range; `none` is a panic. -/
def takeFrames : Nat → Pmm → Option (List Nat × Pmm)
  | 0, p => some ([], p)
  | n + 1, p => (allocTable p).bind fun a => (takeFrames n a.2).map fun r => (a.1 :: r.1, r.2)

def mapFrames (flags : PteFlags) : List (Nat × Nat) → Pmm × Space → Option (Pmm × Space)
  | [], m => some m
  | x :: rest, m => (vmmMapUserPage m.1 m.2 x.1 x.2 flags).bind fun next => mapFrames flags rest next

def Segment.pages (seg : Segment) : List Nat :=
  List.range' seg.first seg.count

def loadSegment (m : Pmm × Space) (seg : Segment) : Option (Pmm × Space) :=
  (takeFrames seg.count m.1).bind fun taken =>
    mapFrames ⟨true, seg.writable, true, false⟩ (seg.pages.zip taken.1) (taken.2, m.2)

def loadSegments : List Segment → Pmm × Space → Option (Pmm × Space)
  | [], m => some m
  | seg :: rest, m => (loadSegment m seg).bind (loadSegments rest)

def Segment.vma (seg : Segment) : VmaEntry :=
  ⟨4096 * seg.first, 4096 * seg.count,
    1 + (if seg.writable then 2 else 0) + (if seg.executable then 4 else 0),
    if seg.executable then .elfText else .elfData⟩

def recordSegments (vmas : List VmaEntry) (segments : List Segment) : List VmaEntry :=
  segments.foldl (fun vmas seg => vmaInsert vmas seg.vma) vmas

def userStackTop : Nat := 0x7FFFFFFF000

def userStackBase : Nat := userStackTop - 4 * 4096

def stackFlags : PteFlags := ⟨true, true, true, false⟩

def stackVma : VmaEntry := ⟨userStackBase, 4 * 4096, 3, .stack⟩

/-- Segments and stack of a new image; `false` when the process cannot go on. -/
def loadImage (image : Image) (m : Pmm × Space) : Option (Bool × (Pmm × Space)) :=
  (loadSegments image.segments m).bind fun loaded =>
    if !image.complete then some (false, loaded)
    else
      (mapFresh stackFlags (pagesOf userStackBase (4 * 4096)) loaded).map fun r =>
        (decide (r.1 = 4) && image.argsFit, r.2)

def exitFds : List Nat :=
  List.range procMaxFds

def cloexecFds (p : Process) : List Nat :=
  (List.range procMaxFds).filter fun fd => (p.fds fd).any FdEntry.cloexec

/-- `sys_execve` from the point of no return on: a failure kills the process. -/
def sysExecve (s : System) (i : Nat) (p : Process) (image : Image) : Option System :=
  (loadImage image (vmmFreeUserPages s.pmm p.mem.space)).map fun r =>
    let vmas := recordSegments [] image.segments
    let mem : Proc := ⟨r.2.2, image.brk, image.brk, mmapRegion, [],
      if r.1 then vmaInsert vmas stackVma else vmas⟩
    { s.setProc i { p with
        mem := mem
        closing := if r.1 then cloexecFds p else exitFds
        exiting := !r.1 } with pmm := r.2.1 }

/-- The descriptors 0 to 2 of a child that gets a copy of one descriptor of its parent. -/
def stdioFds (stdio : Option FdEntry) : Nat → Option FdEntry := fun fd =>
  if fd < 3 then stdio else none

/-- `sys_spawn` into the free slot `child`. The segments are recorded in the table of the
current process, which is the parent. -/
def sysSpawn (s : System) (i : Nat) (p : Process) (child : Nat) (image : Image) (fd : Nat) :
    Option System :=
  match vmmCreateUserPml4 s.pmm with
  | none => some s
  | some (space, pmm) =>
    (loadImage image (pmm, space)).map fun r =>
      let parent := { p with
        mem := { p.mem with vmas := recordSegments p.mem.vmas image.segments } }
      if r.1 then
        let stdio := if fd < procMaxFds then p.fds fd else none
        let mem : Proc := ⟨r.2.2, image.brk, image.brk, mmapRegion, [], [stackVma]⟩
        let born := { (s.setProc i parent).setProc child ⟨mem, stdioFds stdio, [], false⟩ with
          pmm := r.2.1 }
        match stdio with
        | none => born
        | some e => fdDup (fdDup (fdDup born e) e) e
      else { s.setProc i parent with pmm := vmmFreeUserPml4 r.2.1 r.2.2 }

inductive SysCall where
  | memfdCreate (ipc : Bool)
  | ftruncate (fd size : Nat)
  | mmap (args : MmapArgs)
  | munmap (addr len : Nat)
  | close (fd : Nat)
  | dup (fd : Nat)
  | passFd (fd j : Nat)
  | setCloexec (fd : Nat) (on : Bool)
  | execve (image : Image)
  | spawn (child : Nat) (image : Image) (fd : Nat)
  | exit

inductive Event where
  | call (i : Nat) (c : SysCall)
  | closeNext (i : Nat)
  | reap (i : Nat)

def sysCall (s : System) (i : Nat) (p : Process) : SysCall → Option System
  | .memfdCreate ipc => some (sysMemfdCreate s i p ipc).1
  | .ftruncate fd size => some (sysFtruncate s p fd size).1
  | .mmap args => (sysMmap (memfdFromFd s p) (s.mem p) args).map fun r => s.setMem i p r.1
  | .munmap addr len => some (s.setMem i p (sysMunmap (s.mem p) addr len).1)
  | .close fd => some (sysClose s i p fd).1
  | .dup fd => some (sysDup s i p fd)
  | .passFd fd j => some (passFd s p fd j)
  | .setCloexec fd on => some (setCloexec s i p fd on)
  | .execve image => sysExecve s i p image
  | .spawn child image fd =>
    if child < maxProcesses ∧ (s.procs child).isNone then sysSpawn s i p child image fd else none
  | .exit => some (s.setProc i { p with closing := exitFds, exiting := true })

def eventStep (s : System) : Event → Option System
  | .call i c =>
    (s.proc i).bind fun p => if p.exiting ∨ p.closing ≠ [] then none else sysCall s i p c
  | .closeNext i =>
    (s.proc i).bind fun p =>
      match p.closing with
      | [] => none
      | fd :: rest => some (closeFd s i { p with closing := rest } fd)
  | .reap i =>
    (s.proc i).bind fun p =>
      if p.exiting ∧ p.closing = [] then
        some { s with
          pmm := vmmFreeUserPml4 s.pmm p.mem.space
          procs := update s.procs i none }
      else none

end Aegis.Memory
