import Aegis.FdTable
import Aegis.LabelledRun

/-! The life of user processes: the calls of `sys_process.c` and `sys_exec.c` that create, end
and reap them, with every failure path, over the process counter, the pages of VMA tables
(`vma.c`) and the descriptor tables. Kernel memory, registers and the scheduler are left out,
and a call is one step. -/

namespace Aegis.Process

open LabelledRun Function

abbrev ProcId := Nat
abbrev VmaPage := Nat

def maxProcesses : Nat := 64

/-- `vmaTable` is never null while the process is listed. `fdTable` is none once `sched_exit`
has dropped it; a thread that `exit_group` has marked a zombie still has its table, stays on
the run queue and goes on making calls. -/
structure Proc where
  pid : Nat
  ppid : Nat
  tgid : Nat
  zombie : Bool
  vmaTable : VmaPage
  vmaRefcount : Nat
  fdTable : Option TableId

/-- `all` is the task list without kernel tasks, the newest process first. Process numbers
from `nextProc` on and VMA pages from `nextVma` on are unused. -/
structure System where
  proc : ProcId → Proc
  all : List ProcId
  nextProc : ProcId
  nextPid : Nat
  forkCount : Nat
  nextVma : VmaPage
  freedVma : List VmaPage
  fd : FdState

/-- Where `sys_fork` ends: `noMemory` is the page map, the copy of the pages or the kernel
stack, which clean up the same way. -/
inductive ForkEnd
  | ok
  | noPcb
  | noFdTable
  | noMemory
  deriving DecidableEq

inductive CloneEnd
  | ok
  | refused
  | noPcb
  | noFdTable
  | noStack
  deriving DecidableEq

/-- `late` is a refused capability mask or no descriptor table, after `vma_init`. -/
inductive SpawnEnd
  | ok
  | early
  | late
  deriving DecidableEq

inductive ExecEnd
  | ok
  | failed
  | fatal
  deriving DecidableEq

/-- `clone` is the call with CLONE_VM; without it the call is `fork`. `fatalSignal` is a
signal or a bad signal frame that ends the caller. `woken` is a wake-up of the caller, or the
caller blocking, while it is marked a zombie. -/
inductive Op
  | fork (result : ForkEnd)
  | clone (files thread : Bool) (result : CloneEnd)
  | spawn (stdio : Option Nat) (result : SpawnEnd)
  | execve (result : ExecEnd)
  | exit
  | exitGroup
  | fatalSignal
  | waitpid (child : ProcId)
  | descriptor (call : FdCall)
  | woken
  deriving DecidableEq

structure Call where
  caller : ProcId
  op : Op

namespace System

variable (s : System)

def setProc (u : ProcId) (f : Proc → Proc) : System :=
  { s with proc := update s.proc u (f (s.proc u)) }

def setFd (fd : FdState) : System :=
  { s with fd := fd }

def runner (c : ProcId) : Option TableId :=
  if c ∈ s.all then (s.proc c).fdTable else none

def procAllocPid : System :=
  { s with nextPid := (s.nextPid + 1) % 2 ^ 32 }

def vmaAlloc : System :=
  { s with nextVma := s.nextVma + 1 }

def vmaFree (page : VmaPage) (refcount : Nat) : System :=
  if refcount - 1 = 0 then { s with freedVma := page :: s.freedVma } else s

def schedAdd (child : Proc) : System :=
  { s with
    proc := update s.proc s.nextProc child
    all := s.nextProc :: s.all
    nextProc := s.nextProc + 1
    forkCount := s.forkCount + 1 }

/-- The failure paths free the page of the copied table and close nothing, and `vma_clear`
does not give the VMA page back. -/
def sysFork (c : ProcId) (T : TableId) (result : ForkEnd) : System :=
  if maxProcesses ≤ s.forkCount then s
  else match result with
    | .noPcb => s
    | .noFdTable => s
    | .noMemory =>
      s.vmaAlloc.procAllocPid.setFd ((s.fd.fdTableCopy T).freeTable s.fd.nextTable)
    | .ok =>
      (s.vmaAlloc.procAllocPid.setFd (s.fd.fdTableCopy T)).schedAdd
        { pid := s.nextPid
          ppid := (s.proc c).pid
          tgid := s.nextPid
          zombie := false
          vmaTable := s.nextVma
          vmaRefcount := 1
          fdTable := some s.fd.nextTable }

def cloneFiles (T : TableId) (files : Bool) : FdState × TableId :=
  if files then (s.fd.fdTableRef T, T) else (s.fd.fdTableCopy T, s.fd.nextTable)

/-- `vma_share` counts in the parent and copies the count to the child. -/
def vmaShare (c : ProcId) : System :=
  s.setProc c fun parent => { parent with vmaRefcount := parent.vmaRefcount + 1 }

def sysClone (c : ProcId) (T : TableId) (files thread : Bool) (result : CloneEnd) : System :=
  if maxProcesses ≤ s.forkCount then s
  else match result with
    | .refused => s
    | .noPcb => s
    | .noFdTable => s
    | .noStack =>
      ((s.vmaShare c).procAllocPid.setFd
        ((s.cloneFiles T files).1.fdTableUnref (s.cloneFiles T files).2)).vmaFree
        (s.proc c).vmaTable ((s.proc c).vmaRefcount + 1)
    | .ok =>
      ((s.vmaShare c).procAllocPid.setFd (s.cloneFiles T files).1).schedAdd
        { pid := s.nextPid
          ppid := (s.proc c).pid
          tgid := if thread then (s.proc c).tgid else s.nextPid
          zombie := false
          vmaTable := (s.proc c).vmaTable
          vmaRefcount := (s.proc c).vmaRefcount + 1
          fdTable := some (s.cloneFiles T files).2 }

def spawnFiles (T : TableId) (stdio : Option Nat) : FdState :=
  match stdio.bind (s.fd.slotAt T) with
  | none => s.fd.fdTableAlloc
  | some slot => s.fd.fdTableAlloc.shareStdio s.fd.nextTable slot

def sysSpawn (c : ProcId) (T : TableId) (stdio : Option Nat) (result : SpawnEnd) : System :=
  if maxProcesses ≤ s.forkCount then s
  else match result with
    | .early => s
    | .late => s.vmaAlloc.procAllocPid
    | .ok =>
      (s.vmaAlloc.procAllocPid.setFd (s.spawnFiles T stdio)).schedAdd
        { pid := s.nextPid
          ppid := (s.proc c).pid
          tgid := s.nextPid
          zombie := false
          vmaTable := s.nextVma
          vmaRefcount := 1
          fdTable := some s.fd.nextTable }

def schedExit (c : ProcId) (T : TableId) : System :=
  (s.setProc c fun dying => { dying with zombie := true, fdTable := none }).setFd
    (s.fd.fdTableUnref T)

def reparent (c : ProcId) : System :=
  { s with
    proc := fun u =>
      if u ∈ s.all ∧ u ≠ c ∧ (s.proc u).ppid = (s.proc c).pid then
        { s.proc u with ppid := 1 }
      else s.proc u }

def killGroup (c : ProcId) : System :=
  { s with
    proc := fun u =>
      if u ∈ s.all ∧ u ≠ c ∧ (s.proc u).tgid = (s.proc c).tgid then
        { s.proc u with zombie := true }
      else s.proc u }

def sysExit (c : ProcId) (T : TableId) : System :=
  (s.reparent c).schedExit c T

def sysExitGroup (c : ProcId) (T : TableId) : System :=
  ((s.killGroup c).reparent c).schedExit c T

def sysExecve (c : ProcId) (T : TableId) : ExecEnd → System
  | .failed => s
  | .fatal => s.schedExit c T
  | .ok => s.setFd (s.fd.closeOnExec T)

def Reapable (c t : ProcId) : Prop :=
  t ∈ s.all ∧ t ≠ c ∧ (s.proc t).zombie = true ∧ (s.proc t).ppid = (s.proc c).pid
  deriving Decidable

/-- What `sys_waitpid` does with the child it finds: the counter is not touched. -/
def reap (t : ProcId) : System :=
  System.vmaFree { s with all := s.all.erase t } (s.proc t).vmaTable (s.proc t).vmaRefcount

def perform (c : ProcId) (T : TableId) : Op → Option System
  | .fork result => some (s.sysFork c T result)
  | .clone files thread result => some (s.sysClone c T files thread result)
  | .spawn stdio result => some (s.sysSpawn c T stdio result)
  | .execve result => some (s.sysExecve c T result)
  | .exit => some (s.sysExit c T)
  | .exitGroup => some (s.sysExitGroup c T)
  | .fatalSignal => some (s.schedExit c T)
  | .waitpid t => if s.Reapable c t then some (s.reap t) else none
  | .descriptor call => some (s.setFd (s.fd.call T call))
  | .woken => some (s.setProc c fun p => { p with zombie := false })

end System

def procStep (s : System) (call : Call) : Option System :=
  (s.runner call.caller).bind fun T => s.perform call.caller T call.op

def initProc : ProcId := 0

def boot : System where
  proc := fun _ =>
    { pid := 1
      ppid := 0
      tgid := 1
      zombie := false
      vmaTable := 0
      vmaRefcount := 1
      fdTable := some 0 }
  all := [initProc]
  nextProc := 1
  nextPid := 2
  forkCount := 1
  nextVma := 1
  freedVma := []
  fd :=
    { table := fun _ => ⟨fun i => if i < 3 then some ⟨none, false⟩ else none, 1⟩
      tables := [0]
      nextTable := 1
      refs := fun _ => 0
      nextPipe := 0
      freed := [] }

variable {s s' : System} {call : Call} {c u : ProcId} {T : TableId} {op : Op}

theorem runner_eq_some (hf : s.runner c = some T) : c ∈ s.all ∧ (s.proc c).fdTable = some T := by
  rw [System.runner] at hf
  split at hf
  · exact ⟨‹_›, hf⟩
  · cases hf

theorem procStep_eq_some (step : procStep s ⟨c, op⟩ = some s') :
    ∃ T, c ∈ s.all ∧ (s.proc c).fdTable = some T ∧ s.perform c T op = some s' := by
  obtain ⟨T, hf, hp⟩ := Option.bind_eq_some_iff.mp step
  obtain ⟨hl, hh⟩ := runner_eq_some hf
  exact ⟨T, hl, hh, hp⟩

theorem reparent_proc (u : ProcId) :
    ∃ ppid, (s.reparent c).proc u = { s.proc u with ppid := ppid } := by
  rw [System.reparent]
  dsimp only
  split
  · exact ⟨1, rfl⟩
  · exact ⟨(s.proc u).ppid, rfl⟩

theorem killGroup_proc (u : ProcId) :
    ∃ zombie, (s.killGroup c).proc u = { s.proc u with zombie := zombie } ∧
      ((s.proc u).zombie = true → zombie = true) := by
  rw [System.killGroup]
  dsimp only
  split
  · exact ⟨true, rfl, fun _ => rfl⟩
  · exact ⟨(s.proc u).zombie, rfl, id⟩

theorem schedExit_proc (other : u ≠ c) : (s.schedExit c T).proc u = s.proc u :=
  update_of_ne other _ _

theorem schedExit_self : (s.schedExit c T).proc c =
    { s.proc c with zombie := true, fdTable := none } :=
  update_self _ _ _

theorem schedAdd_self {child : Proc} : (s.schedAdd child).proc s.nextProc = child :=
  update_self _ _ _

theorem schedAdd_proc {child : Proc} (ho : u < s.nextProc) : (s.schedAdd child).proc u = s.proc u :=
  update_of_ne (ne_of_lt ho) _ _

theorem vmaFree_fields {page hr : Nat} : (s.vmaFree page hr).proc = s.proc ∧
    (s.vmaFree page hr).all = s.all ∧ (s.vmaFree page hr).nextProc = s.nextProc ∧
    (s.vmaFree page hr).forkCount = s.forkCount ∧ (s.vmaFree page hr).fd = s.fd ∧
    (s.vmaFree page hr).nextVma = s.nextVma := by
  rw [System.vmaFree]
  split <;> exact ⟨rfl, rfl, rfl, rfl, rfl, rfl⟩

theorem reap_fields {t : ProcId} : (s.reap t).proc = s.proc ∧ (s.reap t).all = s.all.erase t ∧
    (s.reap t).nextProc = s.nextProc ∧ (s.reap t).forkCount = s.forkCount ∧
    (s.reap t).fd = s.fd ∧ (s.reap t).nextVma = s.nextVma :=
  vmaFree_fields

end Aegis.Process
