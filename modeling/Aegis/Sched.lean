import Aegis.LinkedRing
import Mathlib.Data.List.Rotate
import Mathlib.Data.List.InsertIdx

/-! The scheduler: task records, the full task list and the run list.
One processor; a system call runs with interrupts off, so each call is one step. Task
records are named by `TaskId`s that are never reused. The full list (`next`) is a ring kept
as a list of ids, the run list (`next_run`/`prev_run`) is kept field by field. A result of
`none` is a halt: a panic, or a processor that never returns. -/

namespace Aegis.Sched

open LinkedRing

abbrev TaskId := Nat

abbrev PipeId := Nat

inductive TaskState where
  | running
  | blocked
  | zombie
  | stopped
  deriving DecidableEq

structure WaitArgs where
  pid : Option Nat
  nohang : Bool
  untraced : Bool
  badStatus : Bool

/-- What a task does when `sched_block` returns inside a loop of its system call. -/
inductive Pending where
  | read (pipe : PipeId) (len : Nat)
  | write (pipe : PipeId) (len : Nat)
  | poll
  | waitpid (args : WaitArgs)

structure Task where
  state : TaskState
  isUser : Bool
  pid : Nat
  tgid : Nat
  ppid : Nat
  pgid : Nat
  sid : Nat
  waitingFor : Nat
  clearChildTid : Nat
  sleepDeadline : Nat
  pending : Option Pending

inductive RunNode where
  | sentinel
  | task (id : TaskId)
  deriving DecidableEq

structure FutexWaiter where
  task : TaskId
  addr : Nat
  deriving DecidableEq

structure Pipe where
  count : Nat
  readRefs : Nat
  writeRefs : Nat
  readerWaiting : Option TaskId
  writerWaiting : Option TaskId

inductive QueueId where
  | readWaiters (pipe : PipeId)
  | writeWaiters (pipe : PipeId)
  | timer
  | other (id : Nat)
  deriving DecidableEq

/-- `reaped` lists the records `sys_waitpid` or a kernel task's exit gave back, and
`staleWakes` the records that were woken after that. -/
structure Kernel where
  task : TaskId → Task
  all : List TaskId
  links : Links RunNode
  cur : Option TaskId
  nextId : TaskId
  futex : List (Option FutexWaiter)
  pipe : PipeId → Pipe
  waitq : QueueId → List TaskId
  reaped : List TaskId
  staleWakes : List TaskId

def idleTask : Task where
  state := .running
  isUser := false
  pid := 0
  tgid := 0
  ppid := 0
  pgid := 0
  sid := 0
  waitingFor := 0
  clearChildTid := 0
  sleepDeadline := 0
  pending := none

def futexMaxWait : Nat := 64

def schedInit : Kernel where
  task := fun _ => idleTask
  all := []
  links := single .sentinel
  cur := none
  nextId := 0
  futex := List.replicate futexMaxWait none
  pipe := fun _ => ⟨0, 1, 1, none, none⟩
  waitq := fun _ => []
  reaped := []
  staleWakes := []

/-- The full list from the successor of `c` round to its predecessor. -/
def others (all : List TaskId) (c : TaskId) : List TaskId :=
  (all.rotate (all.idxOf c + 1)).dropLast

def updateTask (k : Kernel) (t : TaskId) (f : Task → Task) : Kernel :=
  { k with task := Function.update k.task t (f (k.task t)) }

def setState (k : Kernel) (t : TaskId) (state : TaskState) : Kernel :=
  updateTask k t fun task => { task with state := state }

def runListInsert (k : Kernel) (t : TaskId) : Kernel :=
  { k with links := insertTail k.links .sentinel (.task t) }

def runListRemove (k : Kernel) (t : TaskId) : Kernel :=
  { k with links := remove k.links (.task t) }

/-- Where the processor goes from the link `after`: the sentinel is skipped once, and
`none` means that nothing is runnable. -/
def pickAfter (after : Option RunNode) (links : Links RunNode) : Option TaskId :=
  match after with
  | some (.task n) => some n
  | _ =>
    match links.next .sentinel with
    | some (.task n) => some n
    | _ => none

section
variable (k : Kernel)

def runListNext (c : TaskId) : Option TaskId :=
  pickAfter (k.links.next (.task c)) k.links

/-- A task record enters the full list behind the current task, or becomes the first
task and the current one; it enters the run list only if it is runnable. -/
def schedAdd (new : Task) : Kernel :=
  let t := k.nextId
  { k with
    task := Function.update k.task t new
    nextId := t + 1
    all :=
      match k.cur with
      | none => [t]
      | some c => k.all.insertIdx (k.all.idxOf c + 1) t
    cur := some (k.cur.getD t)
    links := if new.state = .running then insertTail k.links .sentinel (.task t) else k.links }

def schedSpawn : Kernel :=
  schedAdd k idleTask

def makeRunnable (t : TaskId) : Kernel :=
  runListInsert (setState k t .running) t

/-- The state is overwritten whatever it was. A write through a pointer to a freed
record is only noted. -/
def schedWake (t : TaskId) : Kernel :=
  if t ∈ k.reaped then { k with staleWakes := t :: k.staleWakes } else makeRunnable k t

def schedResume (t : TaskId) : Kernel :=
  schedWake k t

def wakeAll (ts : List TaskId) : Kernel :=
  ts.foldl schedWake k

def park (t : TaskId) (state : TaskState) : Kernel :=
  runListRemove (setState k t state) t

def switchTo (n : TaskId) : Kernel :=
  { k with cur := some n }

/-- `sched_block` and a task that stops itself: the successor is read before the
removal, and an empty run list is a panic. -/
def parkCurrent (c : TaskId) (state : TaskState) : Option Kernel :=
  let parked := park k c state
  (pickAfter (k.links.next (.task c)) parked.links).map (switchTo parked)

def schedBlock (c : TaskId) : Option Kernel :=
  parkCurrent k c .blocked

def schedStop (t : TaskId) : Option Kernel :=
  if k.cur = some t then parkCurrent k t .stopped else some (park k t .stopped)

def schedYieldToNext (c : TaskId) : Option Kernel :=
  (runListNext k c).map (switchTo k)

end

def Expired (task : Task) (now : Nat) : Prop :=
  task.state = .blocked ∧ task.sleepDeadline ≠ 0 ∧ task.sleepDeadline ≤ now
  deriving Decidable

def wakeSleeper (now : Nat) (k : Kernel) (t : TaskId) : Kernel :=
  if Expired (k.task t) now then
    makeRunnable (updateTask k t fun task => { task with sleepDeadline := 0 }) t
  else k

/-- The scan is a do-while loop: a task alone in the list visits itself. -/
def tickOrder (all : List TaskId) (c : TaskId) : List TaskId :=
  match others all c with
  | [] => [c]
  | t :: rest => t :: rest

def schedTick (k : Kernel) (now : Nat) : Kernel :=
  match k.cur with
  | none => k
  | some c =>
    let k := (tickOrder k.all c).foldl (wakeSleeper now) k
    match runListNext k c with
    | none => k
    | some n => switchTo k n

/-! ### System calls

Futexes, pipes, wait queues, signals, exit and wait keep raw task pointers in their own tables;
`Held` says that some table still names a task. -/

section
def updatePipe (k : Kernel) (p : PipeId) (f : Pipe → Pipe) : Kernel :=
  { k with pipe := Function.update k.pipe p (f (k.pipe p)) }

def futexTake (addr : Nat) :
    List (Option FutexWaiter) → Nat → List (Option FutexWaiter) × List TaskId
  | [], _ => ([], [])
  | none :: pool, count =>
    let rest := futexTake addr pool count
    (none :: rest.1, rest.2)
  | some w :: pool, count =>
    if w.addr = addr ∧ 0 < count then
      let rest := futexTake addr pool (count - 1)
      (none :: rest.1, w.task :: rest.2)
    else
      let rest := futexTake addr pool count
      (some w :: rest.1, rest.2)

def futexWakeAddr (k : Kernel) (addr count : Nat) : Kernel :=
  let taken := futexTake addr k.futex count
  { wakeAll k taken.2 with futex := taken.1 }

def futexRegister (w : FutexWaiter) :
    List (Option FutexWaiter) → Option (List (Option FutexWaiter))
  | [] => none
  | none :: pool => some (some w :: pool)
  | some v :: pool => (futexRegister w pool).map (some v :: ·)

def futexWait (k : Kernel) (c : TaskId) (addr : Nat) : Option Kernel :=
  match futexRegister ⟨c, addr⟩ k.futex with
  | none => some k
  | some pool => schedBlock { k with futex := pool } c

/-- The queue is read again after every batch of 64, and only the woken tasks shorten
it: a queue of 64 or more keeps the processor here. -/
def waitqWakeAll (k : Kernel) (q : QueueId) : Option Kernel :=
  if (k.waitq q).length < 64 then some (wakeAll k (k.waitq q)) else none

def pollWait (k : Kernel) (c : TaskId) (queues : List QueueId) : Option Kernel :=
  let waitq := queues.foldl (fun w q => Function.update w q (c :: w q)) k.waitq
  schedBlock (updateTask { k with waitq := waitq } c fun t => { t with pending := some .poll }) c

def pollLeave (k : Kernel) (c : TaskId) : Kernel :=
  { k with waitq := fun q => (k.waitq q).filter (· ≠ c) }

def signalSendPid (k : Kernel) (c : TaskId) (pid : Nat) : Kernel :=
  if pid = 0 then k else
    match (c :: others k.all c).find? fun t => (k.task t).isUser && (k.task t).pid == pid with
    | none => k
    | some t => if (k.task t).state = .blocked then schedWake k t else k

def signalMember (pgid : Nat) (k : Kernel) (t : TaskId) : Kernel :=
  if (k.task t).isUser ∧ (k.task t).pgid = pgid ∧ (k.task t).pid ≠ 1 then
    if (k.task t).state = .stopped then schedResume k t
    else if (k.task t).state = .blocked then schedWake k t
    else k
  else k

def signalSendPgrp (k : Kernel) (c : TaskId) (pgid : Nat) : Kernel :=
  if pgid = 0 then k else (c :: others k.all c).foldl (signalMember pgid) k

def pipeBufSize : Nat := 4024

def pipeRead (k : Kernel) (c : TaskId) (p : PipeId) (len : Nat) : Option Kernel :=
  let pipe := k.pipe p
  if pipe.count = 0 ∧ pipe.writeRefs = 0 then some k
  else if pipe.count = 0 then
    let k := updatePipe k p fun pipe => { pipe with readerWaiting := some c }
    schedBlock (updateTask k c fun t => { t with pending := some (.read p len) }) c
  else
    let n := min (len % 2 ^ 32) pipe.count
    let k := wakeAll k pipe.writerWaiting.toList
    let k := updatePipe k p fun pipe =>
      { pipe with count := pipe.count - n, writerWaiting := none }
    waitqWakeAll k (.writeWaiters p)

def pipeWrite (k : Kernel) (c : TaskId) (p : PipeId) (len : Nat) : Option Kernel :=
  let pipe := k.pipe p
  if pipe.readRefs = 0 then some (signalSendPid k c (k.task c).pid)
  else if pipe.count = pipeBufSize then
    let k := updatePipe k p fun pipe => { pipe with writerWaiting := some c }
    schedBlock (updateTask k c fun t => { t with pending := some (.write p len) }) c
  else
    let n := min (len % 2 ^ 32) (pipeBufSize - pipe.count)
    let k := wakeAll k pipe.readerWaiting.toList
    let k := updatePipe k p fun pipe =>
      { pipe with count := pipe.count + n, readerWaiting := none }
    waitqWakeAll k (.readWaiters p)

inductive PipeEnd where
  | readEnd (pipe : PipeId)
  | writeEnd (pipe : PipeId)
  deriving DecidableEq

section
variable (k : Kernel)

def pipeClose : PipeEnd → Option Kernel
  | .readEnd p =>
    if (k.pipe p).readRefs = 0 then none
    else
      let refs := (k.pipe p).readRefs - 1
      let k := wakeAll k (k.pipe p).writerWaiting.toList
      let k := updatePipe k p fun pipe => { pipe with readRefs := refs, writerWaiting := none }
      if refs = 0 then waitqWakeAll k (.writeWaiters p) else some k
  | .writeEnd p =>
    if (k.pipe p).writeRefs = 0 then none
    else
      let refs := (k.pipe p).writeRefs - 1
      let k := wakeAll k (k.pipe p).readerWaiting.toList
      let k := updatePipe k p fun pipe => { pipe with writeRefs := refs, readerWaiting := none }
      if refs = 0 then waitqWakeAll k (.readWaiters p) else some k

def pipeDup : PipeEnd → Kernel
  | .readEnd p => updatePipe k p fun pipe => { pipe with readRefs := pipe.readRefs + 1 }
  | .writeEnd p => updatePipe k p fun pipe => { pipe with writeRefs := pipe.writeRefs + 1 }

/-- A close from `sched_exit`: `sched_lock` is already held, so a close that has to wake
somebody spins on it forever. -/
def closeLocked : PipeEnd → Option Kernel
  | .readEnd p =>
    let refs := (k.pipe p).readRefs - 1
    if (k.pipe p).readRefs = 0 ∨ (k.pipe p).writerWaiting ≠ none ∨
        (refs = 0 ∧ k.waitq (.writeWaiters p) ≠ []) then none
    else some (updatePipe k p fun pipe => { pipe with readRefs := refs })
  | .writeEnd p =>
    let refs := (k.pipe p).writeRefs - 1
    if (k.pipe p).writeRefs = 0 ∨ (k.pipe p).readerWaiting ≠ none ∨
        (refs = 0 ∧ k.waitq (.readWaiters p) ≠ []) then none
    else some (updatePipe k p fun pipe => { pipe with writeRefs := refs })

/-- The parent `sched_exit` switches to, when it waits for this child. -/
def awaits (c t : TaskId) : Bool :=
  (k.task t).isUser && (k.task t).state == .running && (k.task t).pid == (k.task c).ppid &&
    ((k.task t).waitingFor == 0 || (k.task t).waitingFor == (k.task c).pid)

def schedExitUser (c : TaskId) (closes : List PipeEnd) : Option Kernel :=
  (closes.foldlM closeLocked k).bind fun k =>
    let k := park k c .zombie
    let k := signalSendPid k c (k.task c).ppid
    match (others k.all c).find? (awaits k c) with
    | some parent => some (switchTo k parent)
    | none => schedYieldToNext k c

def unlink (c : TaskId) : Kernel :=
  { k with
    links := LinkedRing.remove k.links (.task c)
    all := k.all.erase c
    reaped := c :: k.reaped }

/-- A kernel task leaves both lists at once. With nobody runnable the processor goes to
its successor in the full list, whatever that task's state. -/
def schedExitKernel (c : TaskId) : Option Kernel :=
  let left := unlink k c
  let next := (pickAfter (k.links.next (.task c)) left.links).or (others k.all c).head?
  next.map (switchTo left)

def schedExit (c : TaskId) (closes : List PipeEnd) : Option Kernel :=
  if (k.task c).isUser then schedExitUser k c closes else schedExitKernel k c

/-- The hang-up of the session's foreground group; `group` is 0 without a terminal. -/
def hangUp (c : TaskId) (group : Nat) : Kernel :=
  if (k.task c).pid = (k.task c).sid then signalSendPgrp (signalSendPgrp k c group) c group
  else k

end

def adopt (pid : Nat) (k : Kernel) (t : TaskId) : Kernel :=
  if (k.task t).isUser ∧ (k.task t).ppid = pid then
    updateTask k t fun task => { task with ppid := 1 }
  else k

def reparent (k : Kernel) (c : TaskId) : Kernel :=
  (others k.all c).foldl (adopt (k.task c).pid) k

def clearTid (k : Kernel) (t : TaskId) : Kernel :=
  if (k.task t).clearChildTid = 0 then k else futexWakeAddr k (k.task t).clearChildTid 1

def sysExit (k : Kernel) (c : TaskId) (group : Nat) (closes : List PipeEnd) : Option Kernel :=
  if (k.task c).isUser then schedExit (reparent (hangUp (clearTid k c) c group) c) c closes
  else schedExit k c closes

/-- A sibling thread is only marked: its run-list links stay as they are. -/
def killSibling (tgid : Nat) (k : Kernel) (t : TaskId) : Kernel :=
  if (k.task t).isUser ∧ (k.task t).tgid = tgid then clearTid (setState k t .zombie) t else k

def killSiblings (k : Kernel) (c : TaskId) : Kernel :=
  (others k.all c).foldl (killSibling (k.task c).tgid) k

def sysExitGroup (k : Kernel) (c : TaskId) (group : Nat) (closes : List PipeEnd) :
    Option Kernel :=
  if (k.task c).isUser then schedExit (reparent (hangUp (killSiblings k c) c group) c) c closes
  else schedExit k c closes

def reportable (k : Kernel) (c : TaskId) (args : WaitArgs) (t : TaskId) : Bool :=
  (k.task t).isUser && ((k.task t).state == .zombie ||
    ((k.task t).state == .stopped && args.untraced)) &&
    (k.task t).ppid == (k.task c).pid &&
    (args.pid == none || args.pid == some (k.task t).pid)

def stopWaiting (k : Kernel) (c : TaskId) : Kernel :=
  updateTask k c fun task => { task with waitingFor := 0 }

/-- The record leaves the full list and is freed; the run list is not consulted. -/
def reap (k : Kernel) (c t : TaskId) : Kernel :=
  stopWaiting { k with all := k.all.erase t, reaped := t :: k.reaped } c

def sysWaitpid (k : Kernel) (c : TaskId) (args : WaitArgs) : Option Kernel :=
  match (others k.all c).find? (reportable k c args) with
  | some t =>
    if args.badStatus then some k
    else if (k.task t).state = .zombie then some (reap k c t)
    else some (stopWaiting k c)
  | none =>
    if args.nohang then some k
    else schedBlock (updateTask k c fun task =>
      { task with waitingFor := args.pid.getD 0, pending := some (.waitpid args) }) c

/-- Some table names the task: a futex slot, a waiting end of a pipe, a wait queue. -/
def Held (k : Kernel) (t : TaskId) : Prop :=
  (∃ addr, some ⟨t, addr⟩ ∈ k.futex) ∨
    (∃ p, (k.pipe p).readerWaiting = some t ∨ (k.pipe p).writerWaiting = some t) ∨
    ∃ q, t ∈ k.waitq q

inductive KCall where
  | spawn
  | fork (new : Task)
  | tick (now : Nat)
  | resume
  | block
  | sleep (deadline : Nat)
  | stopSelf
  | exit (closes : List PipeEnd)
  | sysExit (group : Nat) (closes : List PipeEnd)
  | exitGroup (group : Nat) (closes : List PipeEnd)
  | waitpid (args : WaitArgs)
  | futexWait (addr : Nat)
  | futexWake (addr count : Nat)
  | read (pipe : PipeId) (len : Nat)
  | write (pipe : PipeId) (len : Nat)
  | close (pipeEnd : PipeEnd)
  | dup (pipeEnd : PipeEnd)
  | poll (queues : List QueueId)
  | wakeQueue (queue : QueueId)
  | signalPid (pid : Nat)
  | signalPgrp (pgid : Nat)

def childTask (new : Task) : Task :=
  { new with
    state := .running
    isUser := true
    waitingFor := 0
    sleepDeadline := 0
    pending := none }

def resumeCall (k : Kernel) (c : TaskId) : Pending → Option Kernel
  | .read p len => pipeRead k c p len
  | .write p len => pipeWrite k c p len
  | .poll => some (pollLeave k c)
  | .waitpid args => sysWaitpid k c args

def userCall (k : Kernel) (c : TaskId) : KCall → Option Kernel
  | .sysExit group closes => sysExit k c group closes
  | .exitGroup group closes => sysExitGroup k c group closes
  | .waitpid args => sysWaitpid k c args
  | .futexWait addr => futexWait k c addr
  | .futexWake addr count => some (futexWakeAddr k addr (count % 2 ^ 32))
  | .read p len => pipeRead k c p len
  | .write p len => pipeWrite k c p len
  | .close e => pipeClose k e
  | .dup e => some (pipeDup k e)
  | .poll queues => pollWait k c queues
  | .sleep deadline =>
    schedBlock (updateTask k c fun task => { task with sleepDeadline := deadline }) c
  | .stopSelf => schedStop k c
  | .signalPid pid => some (signalSendPid k c pid)
  | .signalPgrp pgid => some (signalSendPgrp k c pgid)
  | _ => none

/-- A call by the current task `c`, or an interrupt that finds it running. -/
def currentCall (k : Kernel) (c : TaskId) : KCall → Option Kernel
  | .spawn => some (schedSpawn k)
  | .fork new => some (schedAdd k (childTask new))
  | .tick now => some (schedTick k now)
  | .wakeQueue q => waitqWakeAll k q
  | .block => schedBlock k c
  | .exit closes => schedExit k c closes
  | .resume => none
  | call => if (k.task c).isUser then userCall k c call else none

/-- One step. A task that was switched to inside a system call first goes on with it:
interrupts stay off until it is back in user mode. -/
def kstep (k : Kernel) (call : KCall) : Option Kernel :=
  match k.cur with
  | none =>
    match call with
    | .spawn => some (schedSpawn k)
    | .fork new => some (schedAdd k (childTask new))
    | .tick now => some (schedTick k now)
    | _ => none
  | some c =>
    match (k.task c).pending with
    | none => currentCall k c call
    | some rest =>
      match call with
      | .resume => resumeCall (updateTask k c fun task => { task with pending := none }) c rest
      | _ => none

end

end Aegis.Sched
