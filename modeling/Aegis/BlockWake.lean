import Aegis.WaitQueue

/-! How tasks block and are woken in `pipe_read_fn`, `pipe_write_fn`, `sys_accept`,
`sys_recvfrom` and `sys_poll`. A task goes through a call in steps that nobody can split: a
section under a lock, or one load or store of a shared field. A waker is a task or an
interrupt handler on its way through `sock_wake` and `waitq_wake_all`; any number of them run
at once. `sock_wake` loads the task pointer and wakes the task in one step, because a wake-up
that comes later is a `signal`. Bytes, connections and datagrams are counted, not stored. -/

namespace Aegis.BlockWake

open Function (update)
open LabelledRun
open Sched (TaskId pipeBufSize)
open WaitQueue (snapSize)

abbrev PipeId := Nat

abbrev SourceId := Nat

structure Pipe where
  count : Nat
  readRefs : Nat
  writeRefs : Nat

inductive Kind where
  | listener
  | dgram
  | connecting
  | stream
  | unixListener
  | unixStream
  | terminal
  deriving DecidableEq

/-- What comes in is put at `tail` of a ring and taken from `head` (local sockets have the names
the other way round); `closed` is the end of a stream. -/
structure Source where
  kind : Kind
  head : Nat
  tail : Nat
  closed : Bool

inductive Waitable where
  | readEnd (p : PipeId)
  | writeEnd (p : PipeId)
  | source (q : SourceId)
  | timer
  deriving DecidableEq

structure Pollfd where
  on : Waitable
  pollIn : Bool
  pollOut : Bool
  deriving DecidableEq

/-- A handler at `push` has loaded the tail of an accept queue; then it is a waker. A waker at
`slot` is about to read the task pointer of `sock_wake`, at `clear` about to write NULL to it,
and at `queue` about to copy the wait queue; `waking` wakes the copied tasks and then, after a full
copy, looks at the queue again. -/
inductive Waker where
  | push (q : SourceId) (tail : Nat)
  | slot (w : Waitable)
  | clear (w : Waitable)
  | queue (w : Waitable)
  | waking (w : Waitable) (tasks : List TaskId) (full : Bool)
  deriving DecidableEq

def Waker.on : Waker → Waitable
  | .push q _ => .source q
  | .slot w | .clear w | .queue w | .waking w _ _ => w

/-- The calls that look and publish the waiting task under one lock. -/
inductive LockedCall where
  | read (p : PipeId) (len : Nat)
  | write (p : PipeId) (len : Nat)
  | accept (q : SourceId)
  deriving DecidableEq

def LockedCall.on : LockedCall → Waitable
  | .read p _ => .readEnd p
  | .write p _ => .writeEnd p
  | .accept q => .source q

/-- What a task does next, with what it has loaded. The steps of `take` are those of `sys_accept`
and of `sys_recvfrom` for datagrams. A blocked task is at the place where `sched_block` returns
to. -/
inductive Pc where
  | idle
  | lockedLoop (c : LockedCall)
  | lockedBlock (c : LockedCall)
  | acceptLoop (q : SourceId)
  | acceptHead (q : SourceId)
  | acceptTail (q : SourceId) (head : Nat)
  | acceptBlock (q : SourceId)
  | takeUnset (q : SourceId)
  | takeHead (q : SourceId)
  | takeStore (q : SourceId) (head : Nat)
  | recvLoop (q : SourceId) (timed : Bool) (len : Nat)
  | recvCheck (q : SourceId) (timed : Bool) (len : Nat)
  | recvTail (q : SourceId) (timed : Bool) (len head : Nat)
  | recvFound (q : SourceId) (timed : Bool) (len n : Nat)
  | recvTake (q : SourceId) (timed : Bool) (len n : Nat)
  | recvUnset (q : SourceId) (timed : Bool) (len : Nat) (eof : Bool)
  | recvReset (q : SourceId) (timed : Bool) (len : Nat)
  | recvBlock (q : SourceId) (timed : Bool) (len : Nat)
  | recvWoken (q : SourceId) (timed : Bool) (len : Nat)
  | pollCheck (fds : List Pollfd) (timed : Bool) (rest : List Pollfd) (found : Bool)
  | pollTail (fds : List Pollfd) (timed : Bool) (fd : Pollfd) (rest : List Pollfd) (found : Bool)
    (head : Nat)
  | pollAdd (fds : List Pollfd) (timed : Bool) (rest : List Waitable)
  | pollBlock (fds : List Pollfd) (timed : Bool)
  | pollRemove (fds : List Pollfd) (timed : Bool) (rest : List Waitable)
  deriving DecidableEq

/-- `slot` is the task pointer of a pipe end or socket, `waiters` the tasks of the entries of
its wait queue, and `deadline` whether `sleep_deadline` is set. -/
structure State where
  pipe : PipeId → Pipe
  source : SourceId → Source
  slot : Waitable → Option TaskId
  waiters : Waitable → List TaskId
  pc : TaskId → Pc
  blocked : TaskId → Bool
  deadline : TaskId → Bool
  wakers : List Waker

def start (pipe : PipeId → Pipe) (source : SourceId → Source) : State where
  pipe := pipe
  source := source
  slot := fun _ => none
  waiters := fun _ => []
  pc := fun _ => .idle
  blocked := fun _ => false
  deadline := fun _ => false
  wakers := []

namespace State

variable (s : State)

def goto (t : TaskId) (pc : Pc) : State :=
  { s with pc := update s.pc t pc }

def setPipe (p : PipeId) (x : Pipe) : State :=
  { s with pipe := update s.pipe p x }

def setSource (q : SourceId) (x : Source) : State :=
  { s with source := update s.source q x }

def setSlot (w : Waitable) (v : Option TaskId) : State :=
  { s with slot := update s.slot w v }

def setWaiters (w : Waitable) (l : List TaskId) : State :=
  { s with waiters := update s.waiters w l }

def setDeadline (t : TaskId) (v : Bool) : State :=
  { s with deadline := update s.deadline t v }

def setWakers (l : List Waker) : State :=
  { s with wakers := l }

def schedBlock (t : TaskId) : State :=
  { s with blocked := update s.blocked t true }

def schedWake (t : TaskId) : State :=
  { s with blocked := update s.blocked t false }

def begin (k : Waker) : State :=
  s.setWakers (k :: s.wakers)

/-- Wake the task of the slot and clear the slot, under the lock that guards both. -/
def wakeSlot (w : Waitable) : State :=
  match s.slot w with
  | some t => (s.schedWake t).setSlot w none
  | none => s

def wakeLocked (w : Waitable) : State :=
  (s.wakeSlot w).begin (.queue w)

end State

def tcpRbufSize : Nat := 16384

structure Events where
  input : Bool
  output : Bool
  hup : Bool

def Pipe.readEvents (x : Pipe) : Events :=
  ⟨x.count ≠ 0 ∨ x.writeRefs = 0, false, x.writeRefs = 0⟩

def Pipe.writeEvents (x : Pipe) : Events :=
  ⟨false, x.count < pipeBufSize ∨ x.readRefs = 0, x.readRefs = 0⟩

/-- The receive buffer of a TCP connection looks empty when it is full. -/
def Source.avail (x : Source) : Nat :=
  (x.tail + tcpRbufSize - x.head) % tcpRbufSize

def Source.events (x : Source) : Events :=
  match x.kind with
  | .listener | .unixListener => ⟨x.head ≠ x.tail, false, false⟩
  | .dgram => ⟨x.head ≠ x.tail, true, false⟩
  | .connecting => ⟨false, false, false⟩
  | .stream => ⟨x.avail ≠ 0 ∨ x.closed = true, true, x.closed⟩
  | .unixStream => ⟨x.head ≠ x.tail ∧ x.closed = false, !x.closed, x.closed⟩
  | .terminal => ⟨x.head ≠ x.tail ∨ x.closed = true, true, x.closed⟩

namespace State

def events (s : State) : Waitable → Events
  | .readEnd p => (s.pipe p).readEvents
  | .writeEnd p => (s.pipe p).writeEvents
  | .source q => (s.source q).events
  | .timer => ⟨false, false, false⟩

def ready (s : State) : Waitable → Bool
  | .writeEnd p => (s.events (.writeEnd p)).output
  | w => (s.events w).input

def revents (s : State) (fd : Pollfd) : Bool :=
  (s.events fd.on).input && fd.pollIn || (s.events fd.on).output && fd.pollOut ||
    (s.events fd.on).hup

end State

inductive Lock where
  | pipe (p : PipeId)
  | unix
  deriving DecidableEq

/-- The lock under which the slot is used and the wait queue is woken. -/
def State.lockOf (s : State) : Waitable → Option Lock
  | .readEnd p | .writeEnd p => some (.pipe p)
  | .source q =>
    match (s.source q).kind with
    | .unixListener | .unixStream => some .unix
    | _ => none
  | .timer => none

def State.locked (s : State) (w : Waitable) : Bool :=
  (s.lockOf w).isSome && s.wakers.any fun k => s.lockOf k.on = s.lockOf w

def lockedStep (s : State) (t : TaskId) (c : LockedCall) : Option State :=
  if s.locked c.on then none
  else
    match c with
    | .read p len =>
      let x := s.pipe p
      if x.count = 0 ∧ x.writeRefs = 0 then some (s.goto t .idle)
      else if x.count = 0 then some ((s.setSlot c.on (some t)).goto t (.lockedBlock c))
      else
        let n := min (len % 2 ^ 32) x.count
        some (((s.setPipe p { x with count := x.count - n }).wakeLocked (.writeEnd p)).goto t .idle)
    | .write p len =>
      let x := s.pipe p
      if x.readRefs = 0 then some (s.goto t .idle)
      else if x.count = pipeBufSize then
        some ((s.setSlot c.on (some t)).goto t (.lockedBlock c))
      else
        let n := min (len % 2 ^ 32) (pipeBufSize - x.count)
        some (((s.setPipe p { x with count := x.count + n }).wakeLocked (.readEnd p)).goto t .idle)
    | .accept q =>
      let x := s.source q
      if x.kind ≠ .unixListener then some (s.goto t .idle)
      else if x.head = x.tail then some ((s.setSlot c.on (some t)).goto t (.lockedBlock c))
      else some ((s.setSource q { x with head := (x.head + 1) % 2 ^ 8 }).goto t .idle)

/-- The second `tcp_conn_recv`, which takes at most what the first one found. -/
def Source.consume (x : Source) (len n : Nat) : Source :=
  let want := min (min (len % 2 ^ 32) n) 8192
  { x with head := (x.head + min x.avail want) % tcpRbufSize }

def Kind.unlocked : Kind → Bool
  | .listener | .dgram => true
  | _ => false

/-- Whether `poll` loads head and tail of the ring one after the other. -/
def State.unlocked (s : State) : Waitable → Option Source
  | .source q => if (s.source q).kind.unlocked then some (s.source q) else none
  | _ => none

def queues (fds : List Pollfd) (timed : Bool) : List Waitable :=
  fds.map Pollfd.on ++ if timed then [.timer] else []

def taskStep (s : State) (t : TaskId) : Option State :=
  match s.pc t with
  | .idle => none
  | .lockedLoop c => lockedStep s t c
  | .lockedBlock c => some ((s.schedBlock t).goto t (.lockedLoop c))
  | .acceptLoop q => some ((s.setSlot (.source q) (some t)).goto t (.acceptHead q))
  | .acceptHead q => some (s.goto t (.acceptTail q (s.source q).head))
  | .acceptTail q head =>
    some (s.goto t (if head = (s.source q).tail then .acceptBlock q else .takeUnset q))
  | .takeUnset q => some ((s.setSlot (.source q) none).goto t (.takeHead q))
  | .takeHead q => some (s.goto t (.takeStore q (s.source q).head))
  | .takeStore q head =>
    some ((s.setSource q { s.source q with head := (head + 1) % 8 }).goto t .idle)
  | .acceptBlock q => some ((s.schedBlock t).goto t (.acceptLoop q))
  | .recvLoop q timed len =>
    some ((s.setSlot (.source q) (some t)).goto t (.recvCheck q timed len))
  | .recvCheck q timed len =>
    let x := s.source q
    some (s.goto t (if x.kind = .dgram then .recvTail q timed len x.head
      else if x.avail ≠ 0 then .recvFound q timed len x.avail
      else .recvUnset q timed len x.closed))
  | .recvTail q timed len head =>
    some (s.goto t (if head = (s.source q).tail then .recvUnset q timed len false
      else .takeUnset q))
  | .recvFound q timed len n =>
    some ((s.setSlot (.source q) none).goto t (.recvTake q timed len n))
  | .recvTake q timed len n =>
    let x := s.source q
    if x.avail ≠ 0 then some ((s.setSource q (x.consume len n)).goto t .idle)
    else some (s.goto t (.recvUnset q timed len x.closed))
  | .recvUnset q timed len eof =>
    some ((s.setSlot (.source q) none).goto t (if eof then .idle else .recvReset q timed len))
  | .recvReset q timed len =>
    some (((s.setSlot (.source q) (some t)).setDeadline t timed).goto t (.recvBlock q timed len))
  | .recvBlock q timed len => some ((s.schedBlock t).goto t (.recvWoken q timed len))
  | .recvWoken q timed len => some ((s.setDeadline t false).goto t (.recvLoop q timed len))
  | .pollCheck fds timed [] found =>
    some (s.goto t (if found then .idle else .pollAdd fds timed (queues fds timed)))
  | .pollCheck fds timed (fd :: rest) found =>
    if s.locked fd.on then none
    else
      match s.unlocked fd.on with
      | some x => some (s.goto t (.pollTail fds timed fd rest found x.head))
      | none => some (s.goto t (.pollCheck fds timed rest (found || s.revents fd)))
  | .pollTail fds timed fd rest found head =>
    let input := fd.pollIn && (s.unlocked fd.on).any fun x => head ≠ x.tail
    some (s.goto t (.pollCheck fds timed rest
      (found || input || (s.events fd.on).output && fd.pollOut)))
  | .pollAdd fds timed [] => some (s.goto t (.pollBlock fds timed))
  | .pollAdd fds timed (w :: rest) =>
    some ((s.setWaiters w (t :: s.waiters w)).goto t (.pollAdd fds timed rest))
  | .pollBlock fds timed =>
    some ((s.schedBlock t).goto t (.pollRemove fds timed (queues fds timed)))
  | .pollRemove fds timed [] => some (s.goto t (.pollCheck fds timed fds false))
  | .pollRemove fds timed (w :: rest) =>
    some ((s.setWaiters w ((s.waiters w).erase t)).goto t (.pollRemove fds timed rest))

def giveUp (s : State) (t : TaskId) : Option State :=
  match s.pc t with
  | .lockedLoop (.accept q) =>
    if s.locked (.source q) ∨ s.ready (.source q) then none else some (s.goto t .idle)
  | .acceptBlock q => some ((s.setSlot (.source q) none).goto t .idle)
  | .recvReset _ _ _ => some (s.goto t .idle)
  | .pollCheck _ _ [] false => some (s.goto t .idle)
  | _ => none

inductive Call where
  | read (p : PipeId) (len : Nat)
  | write (p : PipeId) (len : Nat)
  | accept (q : SourceId)
  | recvfrom (q : SourceId) (timed : Bool) (len : Nat)
  | poll (fds : List Pollfd) (timed : Bool)

section
variable (s : State)

def State.entry : Call → Option Pc
  | .read p len => some (.lockedLoop (.read p len))
  | .write p len => some (.lockedLoop (.write p len))
  | .accept q =>
    match (s.source q).kind with
    | .listener => some (.acceptLoop q)
    | .unixListener => some (.lockedLoop (.accept q))
    | _ => none
  | .recvfrom q timed len =>
    match (s.source q).kind with
    | .dgram | .connecting | .stream => some (.recvLoop q timed len)
    | _ => none
  | .poll fds timed => if 64 < fds.length then none else some (.pollCheck fds timed fds false)

def arrive (q : SourceId) (n : Nat) : Option State :=
  let x := s.source q
  match x.kind with
  | .listener => some (s.begin (.push q x.tail))
  | .dgram =>
    if (x.tail + 1) % 8 ≠ x.head then
      some ((s.setSource q { x with tail := (x.tail + 1) % 8 }).begin (.slot (.source q)))
    else some s
  | .connecting =>
    some ((s.setSource q { x with kind := .stream }).begin (.slot (.source q)))
  | .stream =>
    if 0 < n ∧ n ≤ tcpRbufSize - x.avail then
      some ((s.setSource q { x with tail := x.tail + n }).begin (.slot (.source q)))
    else some s
  | .unixListener =>
    if s.locked (.source q) then none
    else some ((s.setSource q { x with tail := (x.tail + 1) % 2 ^ 8 }).wakeLocked (.source q))
  | .unixStream =>
    if s.locked (.source q) then none
    else some ((s.setSource q { x with tail := x.tail + n }).wakeLocked (.source q))
  | .terminal => some ((s.setSource q { x with tail := x.tail + n }).wakeLocked (.source q))

def hangup (q : SourceId) : Option State :=
  let closed := s.setSource q { s.source q with closed := true }
  match (s.source q).kind with
  | .stream => some (closed.begin (.slot (.source q)))
  | .unixStream =>
    if s.locked (.source q) then none else some (closed.wakeLocked (.source q))
  | .terminal => some (closed.wakeLocked (.source q))
  | _ => none

def drain (q : SourceId) (n : Nat) : Option State :=
  let x := s.source q
  let rest := s.setSource q { x with head := x.head + n }
  match x.kind with
  | .stream =>
    if 0 < n ∧ n ≤ x.avail then
      some (s.setSource q { x with head := (x.head + n) % tcpRbufSize })
    else none
  | .unixStream => if s.locked (.source q) ∨ x.tail < x.head + n then none else some rest
  | .terminal => if x.tail < x.head + n then none else some rest
  | _ => none

def pipeDupRead (p : PipeId) : Option State :=
  if s.locked (.readEnd p) ∨ (s.pipe p).readRefs = 0 then none
  else some (s.setPipe p { s.pipe p with readRefs := (s.pipe p).readRefs + 1 })

def pipeDupWrite (p : PipeId) : Option State :=
  if s.locked (.writeEnd p) ∨ (s.pipe p).writeRefs = 0 then none
  else some (s.setPipe p { s.pipe p with writeRefs := (s.pipe p).writeRefs + 1 })

def pipeReadClose (p : PipeId) : Option State :=
  if s.locked (.readEnd p) ∨ (s.pipe p).readRefs = 0 then none
  else
    let closed := s.setPipe p { s.pipe p with readRefs := (s.pipe p).readRefs - 1 }
    some (if (s.pipe p).readRefs = 1 then closed.wakeLocked (.writeEnd p)
      else closed.wakeSlot (.writeEnd p))

def pipeWriteClose (p : PipeId) : Option State :=
  if s.locked (.writeEnd p) ∨ (s.pipe p).writeRefs = 0 then none
  else
    let closed := s.setPipe p { s.pipe p with writeRefs := (s.pipe p).writeRefs - 1 }
    some (if (s.pipe p).writeRefs = 1 then closed.wakeLocked (.readEnd p)
      else closed.wakeSlot (.readEnd p))

def advance (k : Waker) : Option State :=
  if k ∈ s.wakers then
    let rest := s.setWakers (s.wakers.erase k)
    match k with
    | .push q tail =>
      let x := s.source q
      let next := (tail + 1) % 8
      let pushed := if next = x.head then rest else rest.setSource q { x with tail := next }
      some (pushed.begin (.slot (.source q)))
    | .slot w =>
      match s.slot w with
      | some t => some ((rest.schedWake t).begin (.clear w))
      | none => some (rest.begin (.queue w))
    | .clear w => some ((rest.setSlot w none).begin (.queue w))
    | .queue w =>
      let snap := (s.waiters w).take snapSize
      some (rest.begin (.waking w snap (snap.length = snapSize)))
    | .waking w (t :: tasks) full => some ((rest.schedWake t).begin (.waking w tasks full))
    | .waking w [] full => some (if full then rest.begin (.queue w) else rest)
  else none

end

/-- `tick` is the timer interrupt waking its wait queue, `expire` the scheduler finding that
`sleep_deadline` has passed, and `signal` any other wake-up of a blocked task. -/
inductive Label where
  | call (t : TaskId) (c : Call)
  | step (t : TaskId)
  | giveUp (t : TaskId)
  | arrive (q : SourceId) (n : Nat)
  | hangup (q : SourceId)
  | drain (q : SourceId) (n : Nat)
  | dupRead (p : PipeId)
  | dupWrite (p : PipeId)
  | closeRead (p : PipeId)
  | closeWrite (p : PipeId)
  | advance (k : Waker)
  | tick
  | expire (t : TaskId)
  | signal (t : TaskId)

def wakeStep (s : State) : Label → Option State
  | .call t c =>
    if s.pc t = .idle ∧ s.blocked t = false then (s.entry c).map fun pc => s.goto t pc else none
  | .step t => if s.blocked t then none else taskStep s t
  | .giveUp t => if s.blocked t then none else giveUp s t
  | .arrive q n => arrive s q n
  | .hangup q => hangup s q
  | .drain q n => drain s q n
  | .dupRead p => pipeDupRead s p
  | .dupWrite p => pipeDupWrite s p
  | .closeRead p => pipeReadClose s p
  | .closeWrite p => pipeWriteClose s p
  | .advance k => advance s k
  | .tick => some (s.begin (.queue .timer))
  | .expire t =>
    if s.blocked t ∧ s.deadline t then some ((s.setDeadline t false).schedWake t) else none
  | .signal t => some (s.schedWake t)

/-! ### Lost wake-ups -/

def State.awaited (s : State) (t : TaskId) : Bool :=
  match s.pc t with
  | .lockedLoop c => s.ready c.on
  | .acceptLoop q => s.ready (.source q)
  | .recvWoken q _ _ => s.ready (.source q)
  | .pollRemove fds _ _ => fds.any s.revents
  | _ => false

def State.WillWake (s : State) (t : TaskId) : Waker → Prop
  | .push q _ => s.slot (.source q) = some t ∨ t ∈ (s.waiters (.source q)).take snapSize
  | .slot w => s.slot w = some t ∨ t ∈ (s.waiters w).take snapSize
  | .clear w | .queue w => t ∈ (s.waiters w).take snapSize
  | .waking w tasks full => t ∈ tasks ∨ full = true ∧ t ∈ (s.waiters w).take snapSize

def State.WakeDue (s : State) (t : TaskId) : Prop :=
  ∃ k ∈ s.wakers, s.WillWake t k

def State.TimeoutDue (s : State) (t : TaskId) : Prop :=
  s.deadline t = true ∨ t ∈ (s.waiters .timer).take snapSize

/-- No task stays blocked, without a wake-up or timeout to come, while what it waits for is
there. -/
def NoLostWakeup (s : State) : Prop :=
  ∀ t, s.blocked t = true → s.awaited t = true → s.WakeDue t ∨ s.TimeoutDue t

end Aegis.BlockWake
