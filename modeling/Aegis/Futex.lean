import Aegis.CallMoves
import Aegis.LabelledRun
import Aegis.SignalState

/-! `sys_futex` over one pool of 64 waiters for the whole system (`futex.c`). A waiter is
registered under the lock and blocks after it; the pool knows its address but not its address
space. A thread that exits wakes a waiter at its `clear_child_tid`. `log` records what the calls
did: the threads a wake-up counted, as they were before it, and every FUTEX_WAIT that returned 0
with the wake-up that ended it. -/

namespace Aegis.Futex

open LabelledRun Function List
open Sched (TaskId FutexWaiter futexTake futexRegister)
open SignalState (Word userPtrValid errno)

abbrev SpaceId := Nat

/-- Where a thread is: `entering` is between the registration and `sched_block`, `elsewhere` is
blocked in another call, and `dead` keeps the address at which it was killed in FUTEX_WAIT. -/
inductive Place where
  | running
  | entering (addr : Nat)
  | waiting (addr : Nat)
  | elsewhere
  | dead (left : Option Nat)
  deriving DecidableEq

def Place.waits : Place → Bool
  | .waiting _ => true
  | _ => false

def Place.enters : Place → Bool
  | .entering _ => true
  | _ => false

def Place.blocked (p : Place) : Bool := p.waits || p = .elsewhere

/-- TASK_ZOMBIE, which the `sched_block` of a thread that enters overwrites. -/
def Place.killed : Place → Place
  | .entering addr => .entering addr
  | .waiting addr => .dead (some addr)
  | .dead left => .dead left
  | _ => .dead none

/-- The cause of a return is the caller and the address of a wake-up, or none. -/
inductive Event where
  | woke (caller : TaskId) (addr count : Nat) (result : Word) (woken : List (TaskId × Place))
  | returned (thread : TaskId) (addr : Nat) (cause : Option (TaskId × Nat))
  deriving DecidableEq

structure State where
  pool : List (Option FutexWaiter)
  place : TaskId → Place
  log : List Event

def futexMaxWait : Nat := 64

def start : State where
  pool := List.replicate futexMaxWait none
  place := fun _ => .running
  log := []

/-- A thread that does not run runs again, and its FUTEX_WAIT returns 0 whatever woke it. -/
def schedWake (cause : Option (TaskId × Nat)) (s : State) (t : TaskId) : State :=
  match s.place t with
  | .waiting addr | .dead (some addr) =>
    { s with
      place := update s.place t .running
      log := .returned t addr cause :: s.log }
  | .elsewhere | .dead none => { s with place := update s.place t .running }
  | .running => s
  | .entering _ => s

def futexWakeAddr (s : State) (c : TaskId) (addr count : Nat) : State × Word :=
  let woken := (futexTake addr s.pool count).2
  let after := woken.foldl (schedWake (some (c, addr)))
    { s with pool := (futexTake addr s.pool count).1 }
  let result := BitVec.ofNat 64 woken.length
  ({ after with
      log := .woke c addr count result (woken.map fun u => (u, s.place u)) :: after.log }, result)

def clearChildTid (s : State) (c : TaskId) (tid : Nat) : State :=
  if tid = 0 then s else (futexWakeAddr s c tid 1).1

def command (op : Word) : BitVec 32 :=
  op.setWidth 32 &&& ~~~128

def futexWait : BitVec 32 := 0
def futexWake : BitVec 32 := 1

/-- `uval` is the word at the address; no result means that `sched_block` comes next. -/
def sysFutex (s : State) (t : TaskId) (addr op val : Word) (uval : BitVec 32) :
    State × Option Word :=
  if !userPtrValid addr 4 then (s, some (errno 14))
  else if addr &&& 3 ≠ 0 then (s, some (errno 22))
  else if command op = futexWait then
    if uval ≠ val.setWidth 32 then (s, some (errno 11))
    else match futexRegister ⟨t, addr.toNat⟩ s.pool with
      | none => (s, some (errno 12))
      | some pool =>
        ({ s with
            pool := pool
            place := update s.place t (.entering addr.toNat) }, none)
  else if command op = futexWake then
    let after := futexWakeAddr s t addr.toNat (val.setWidth 32).toNat
    (after.1, some after.2)
  else (s, some (errno 38))

/-- `signal` is a signal to the thread, and `sleep` and `awake` another call that blocks. `exit`
is `sys_exit`, and also the end of `sys_exit_group`, which leaves the caller's own
`clear_child_tid` (then 0 here) alone; `kill` is what its loop does to one other thread. -/
inductive Label where
  | futex (thread : TaskId) (addr op val : Word) (uval : BitVec 32)
  | block (thread : TaskId)
  | signal (thread : TaskId)
  | sleep (thread : TaskId)
  | awake (thread : TaskId)
  | exit (thread : TaskId) (tid : Nat)
  | kill (caller thread : TaskId) (tid : Nat)

def futexStep (s : State) : Label → Option State
  | .futex t addr op val uval =>
    if s.place t = .running then some (sysFutex s t addr op val uval).1 else none
  | .block t =>
    match s.place t with
    | .entering addr => some { s with place := update s.place t (.waiting addr) }
    | _ => none
  | .signal t => some (if (s.place t).blocked then schedWake none s t else s)
  | .sleep t =>
    if s.place t = .running then some { s with place := update s.place t .elsewhere }
    else none
  | .awake t =>
    if s.place t = .elsewhere then some { s with place := update s.place t .running }
    else none
  | .exit t tid =>
    if s.place t = .running then
      some { clearChildTid s t tid with
        place := update (clearChildTid s t tid).place t (.dead none) }
    else none
  | .kill c t tid =>
    if s.place c = .running ∧ c ≠ t then
      some (clearChildTid { s with place := update s.place t (s.place t).killed } c tid)
    else none

def entries (pool : List (Option FutexWaiter)) : List FutexWaiter :=
  pool.filterMap id

/-- The entries a FUTEX_WAKE finds: the first ones with its address. -/
def firstEntries (pool : List (Option FutexWaiter)) (addr count : Nat) : List FutexWaiter :=
  ((entries pool).filter fun w => w.addr = addr).take count

section Spaces

variable (space : TaskId → SpaceId)

/-- A wake-up counts blocked waiters of its own address space on its address, each once and
at most as many as asked for; a FUTEX_WAIT ends by a wake-up of its own address space on its
address. -/
def Proper : Event → Prop
  | .woke c addr count result woken =>
    result = BitVec.ofNat 64 woken.length ∧ woken.length ≤ count ∧
      (woken.map Prod.fst).Nodup ∧ ∀ w ∈ woken, w.2 = .waiting addr ∧ space w.1 = space c
  | .returned t addr cause => ∃ c, cause = some (c, addr) ∧ space c = space t

/-- No thread is between its registration and `sched_block`. -/
def Settled (s : State) : Prop := ∀ w ∈ entries s.pool, (s.place w.task).enters = false
  deriving Decidable

variable (owner : Nat → SpaceId)

/-- The address space `owner addr` alone uses the address for futexes, wake-ups come while no
thread is about to block, and no signal and no `exit_group` reaches a thread that waits. -/
def Orderly (s : State) : Label → Prop
  | .futex t addr op _ _ =>
    owner addr.toNat = space t ∧ (command op = futexWake → Settled s)
  | .signal t => (s.place t).waits = false
  | .exit t tid => tid ≠ 0 → owner tid = space t ∧ Settled s
  | .kill c t tid =>
    (s.place t).waits = false ∧ (tid ≠ 0 → owner tid = space c ∧ Settled s)
  | _ => True

instance (s : State) (label : Label) : Decidable (Orderly space owner s label) := by
  rcases label <;> (dsimp only [Orderly]; infer_instance)

structure Inv (s : State) : Prop where
  inside : ∀ w ∈ entries s.pool,
    s.place w.task = .entering w.addr ∨ s.place w.task = .waiting w.addr
  own : ∀ w ∈ entries s.pool, owner w.addr = space w.task
  nodup : ((entries s.pool).map FutexWaiter.task).Nodup
  proper : ∀ e ∈ s.log, Proper space e

end Spaces

variable {space : TaskId → SpaceId} {owner : Nat → SpaceId} {s s' : State}
  {t u c : TaskId} {addr count : Nat}
  {pool pool' : List (Option FutexWaiter)} {label : Label} {w : FutexWaiter}

theorem firstEntries_taken (ht : w.addr = addr ∧ 0 < count) :
    firstEntries (some w :: pool) addr count = w :: firstEntries pool addr (count - 1) := by
  obtain ⟨less, rfl⟩ := Nat.exists_eq_succ_of_ne_zero ht.2.ne'
  simp [firstEntries, entries, ht.1]

theorem firstEntries_kept (kept : ¬ (w.addr = addr ∧ 0 < count)) :
    firstEntries (some w :: pool) addr count = firstEntries pool addr count := by
  by_cases eq : w.addr = addr
  · obtain rfl : count = 0 := Nat.eq_zero_of_not_pos fun some => kept ⟨eq, some⟩
    rfl
  · simp [firstEntries, entries, eq]

theorem futexTake_tasks :
    (futexTake addr pool count).2 = (firstEntries pool addr count).map FutexWaiter.task := by
  induction pool generalizing count with
  | nil => simp [futexTake, firstEntries, entries]
  | cons slot pool ih =>
    cases slot with
    | none => exact ih
    | some w =>
      rw [futexTake]
      by_cases ht : w.addr = addr ∧ 0 < count
      · rw [if_pos ht, firstEntries_taken ht, map_cons, ← ih]
      · rw [if_neg ht, firstEntries_kept ht, ← ih]

theorem futexTake_perm : (entries pool).Perm
    (firstEntries pool addr count ++ entries (futexTake addr pool count).1) := by
  induction pool generalizing count with
  | nil => simp [futexTake, firstEntries, entries]
  | cons slot pool ih =>
    cases slot with
    | none => exact ih
    | some w =>
      rw [futexTake]
      by_cases ht : w.addr = addr ∧ 0 < count
      · rw [if_pos ht, firstEntries_taken ht]
        exact ih.cons w
      · rw [if_neg ht, firstEntries_kept ht]
        exact (ih.cons w).trans perm_middle.symm

theorem futexRegister_perm (ha : futexRegister w pool = some pool') :
    (entries pool').Perm (w :: entries pool) := by
  induction pool generalizing pool' with
  | nil => cases ha
  | cons slot pool ih =>
    cases slot with
    | none =>
      cases ha
      exact .refl _
    | some v =>
      obtain ⟨rest, hi, rfl⟩ := Option.map_eq_some_iff.mp ha
      exact ((ih hi).cons v).trans (.swap _ _ _)

theorem foldl_schedWake {ts : List TaskId} (nodup : ts.Nodup)
    (blocked : ∀ u ∈ ts, s.place u = .waiting addr) (cause : Option (TaskId × Nat)) :
    (ts.foldl (schedWake cause) s).pool = s.pool ∧
    (∀ u, u ∉ ts → (ts.foldl (schedWake cause) s).place u = s.place u) ∧
    ∀ e ∈ (ts.foldl (schedWake cause) s).log, e ∈ s.log ∨ ∃ u ∈ ts, e = .returned u addr cause := by
  induction ts generalizing s with
  | nil => exact ⟨rfl, fun _ _ => rfl, fun _ old => .inl old⟩
  | cons t ts ih =>
    obtain ⟨notIn, distinct⟩ := nodup_cons.mp nodup
    have woken : schedWake cause s t = { s with
          place := update s.place t .running
          log := .returned t addr cause :: s.log } := by
      rw [schedWake, blocked t mem_cons_self]
    have still : ∀ u ∈ ts, (schedWake cause s t).place u = .waiting addr := by
      intro u mem
      have other : u ≠ t := fun same => notIn (same ▸ mem)
      rw [woken]
      simpa [other] using blocked u (mem_cons_of_mem t mem)
    obtain ⟨pool, place, log⟩ := ih distinct still
    rw [foldl_cons]
    refine ⟨pool.trans (by rw [woken]), fun u outside => ?_, fun e logged => ?_⟩
    · have other : u ≠ t := fun same => outside (same ▸ .head _)
      rw [place u fun later => outside (mem_cons_of_mem t later), woken]
      simp [other]
    · rcases log e logged with old | ⟨u, mem, rfl⟩
      · rw [woken] at old
        rcases mem_cons.mp old with rfl | before
        · exact .inr ⟨t, .head _, rfl⟩
        · exact .inl before
      · exact .inr ⟨u, .tail _ mem, rfl⟩

theorem inv_start : Inv space owner start where
  inside w mem := by simp [start, entries, futexMaxWait] at mem
  own w mem := by simp [start, entries, futexMaxWait] at mem
  nodup := by simp [start, entries, futexMaxWait]
  proper _ logged := by cases logged

theorem settled_kill (settled : Settled s) :
    Settled { s with place := update s.place t (s.place t).killed } := by
  intro w mem
  have before := settled w mem
  by_cases eq : w.task = t
  · simp only [eq, update_self] at before ⊢
    cases h : s.place t <;> simp_all [Place.killed, Place.enters]
  · simpa [eq] using before

section
variable (inv : Inv space owner s)
include inv

theorem Inv.move {p : Place}
    (hi : ∀ w ∈ entries s.pool, w.task = t → p = .entering w.addr ∨ p = .waiting w.addr) :
    Inv space owner { s with place := update s.place t p } := by
  refine ⟨fun w mem => ?_, inv.own, inv.nodup, inv.proper⟩
  by_cases eq : w.task = t
  · simpa [eq] using hi w mem eq
  · simpa [eq] using inv.inside w mem

theorem Inv.no_entry (ho : s.place t = .running ∨ s.place t = .elsewhere) :
    ∀ w ∈ entries s.pool, w.task ≠ t := by
  intro w mem eq
  have hi := inv.inside w mem
  rw [eq] at hi
  rcases ho with hr | he
  · simp [hr] at hi
  · simp [he] at hi

theorem Inv.leave {p : Place} (ho : s.place t = .running ∨ s.place t = .elsewhere) :
    Inv space owner { s with place := update s.place t p } :=
  inv.move fun w mem eq => absurd eq (inv.no_entry ho w mem)

theorem Inv.register (hr : s.place t = .running) (ho : owner addr = space t)
    (ha : futexRegister ⟨t, addr⟩ s.pool = some pool) :
    Inv space owner { s with
      pool := pool
      place := update s.place t (.entering addr) } := by
  have perm := futexRegister_perm ha
  have hf := inv.no_entry (.inl hr)
  refine ⟨fun w mem => ?_, fun w mem => ?_, ?_, inv.proper⟩
  · rcases mem_cons.mp (perm.mem_iff.mp mem) with rfl | old
    · exact .inl (update_self _ _ _)
    · have other := hf w old
      simpa [other] using inv.inside w old
  · rcases mem_cons.mp (perm.mem_iff.mp mem) with rfl | old
    · exact ho
    · exact inv.own w old
  · refine (perm.map FutexWaiter.task).nodup_iff.mpr (inv.nodup.cons fun mem => ?_)
    obtain ⟨w, old, eq⟩ := mem_map.mp mem
    exact hf w old eq

theorem Inv.wake (ho : owner addr = space t) (settled : Settled s) :
    Inv space owner (futexWakeAddr s t addr count).1 ∧
      ∀ u, s.place u = .running → (futexWakeAddr s t addr count).1.place u = .running := by
  have tasks := @futexTake_tasks addr count s.pool
  have perm := @futexTake_perm addr count s.pool
  have split : ((firstEntries s.pool addr count).map FutexWaiter.task ++
      (entries (futexTake addr s.pool count).1).map FutexWaiter.task).Nodup := by
    rw [← map_append]
    exact (perm.map _).nodup_iff.mp inv.nodup
  have blocked : ∀ u ∈ (futexTake addr s.pool count).2,
      s.place u = .waiting addr ∧ space u = space t := by
    intro u woken
    rw [tasks] at woken
    obtain ⟨w, first, rfl⟩ := mem_map.mp woken
    have here : w.addr = addr := by
      simpa using (mem_filter.mp (mem_of_mem_take first)).2
    have mem := perm.mem_iff.mpr (mem_append_left _ first)
    have inside := inv.inside w mem
    rw [here] at inside
    refine ⟨inside.resolve_left fun enters => ?_, ?_⟩
    · have := settled w mem
      simp [enters, Place.enters] at this
    · rw [← ho, ← here, inv.own w mem]
  have distinct : (futexTake addr s.pool count).2.Nodup := tasks ▸ (nodup_append.mp split).1
  obtain ⟨left, place, log⟩ := @foldl_schedWake { s with pool := (futexTake addr s.pool count).1 }
    addr _ distinct (fun u woken => (blocked u woken).1) (some (t, addr))
  have kept : (futexWakeAddr s t addr count).1.pool = (futexTake addr s.pool count).1 := left
  refine ⟨⟨fun w mem => ?_, fun w mem => ?_, ?_, fun e logged => ?_⟩, fun u running => ?_⟩
  · rw [kept] at mem
    have untouched : w.task ∉ (futexTake addr s.pool count).2 := fun woken =>
      (nodup_append.mp split).2.2 _ (tasks ▸ woken) _ (mem_map_of_mem mem) rfl
    have same : (futexWakeAddr s t addr count).1.place w.task = s.place w.task := place _ untouched
    simpa only [same] using inv.inside w (perm.mem_iff.mpr (mem_append_right _ mem))
  · rw [kept] at mem
    exact inv.own w (perm.mem_iff.mpr (mem_append_right _ mem))
  · rw [kept]
    exact (nodup_append.mp split).2.1
  · rcases mem_cons.mp logged with rfl | before
    · refine ⟨by rw [length_map], ?_, ?_, fun w woken => ?_⟩
      · rw [length_map, tasks, length_map, firstEntries]
        exact length_take_le _ _
      · rw [map_map, show (Prod.fst ∘ fun u => (u, s.place u)) = id from rfl, map_id]
        exact distinct
      · obtain ⟨u, woken', rfl⟩ := mem_map.mp woken
        exact blocked u woken'
    · rcases log e before with old | ⟨u, woken, rfl⟩
      · exact inv.proper e old
      · exact ⟨t, rfl, (blocked u woken).2.symm⟩
  · have out : u ∉ (futexTake addr s.pool count).2 := fun woken => by
      simp [(blocked u woken).1] at running
    exact (place u out).trans running

theorem Inv.clearChildTid {tid : Nat} (ok : tid ≠ 0 → owner tid = space t ∧ Settled s) :
    Inv space owner (clearChildTid s t tid) ∧
      ∀ u, s.place u = .running → (Futex.clearChildTid s t tid).place u = .running := by
  unfold Futex.clearChildTid
  split
  · exact ⟨inv, fun _ => id⟩
  · next some => exact inv.wake (ok some).1 (ok some).2

theorem Inv.kill (free : (s.place t).waits = false) :
    Inv space owner { s with place := update s.place t (s.place t).killed } := by
  refine inv.move fun w mem eq => ?_
  have inside := inv.inside w mem
  rw [eq] at inside
  rcases inside with enters | waits
  · exact .inl (by rw [enters]; rfl)
  · simp [waits, Place.waits] at free

theorem Inv.sysFutex {addr op val : Word} {uval : BitVec 32}
    (ok : Orderly space owner s (.futex t addr op val uval)) (hr : s.place t = .running) :
    Inv space owner (sysFutex s t addr op val uval).1 := by
  unfold Futex.sysFutex
  split
  · exact inv
  split
  · exact inv
  split
  · split
    · exact inv
    split
    · exact inv
    · exact inv.register hr ok.1 ‹_›
  split
  · exact (inv.wake ok.1 (ok.2 ‹_›)).1
  · exact inv

theorem inv_step (ok : Orderly space owner s label) (step : futexStep s label = some s') :
    Inv space owner s' := by
  cases label with
  | futex t addr op val uval =>
    obtain ⟨running, ⟨⟩⟩ := Option.ite_none_right_eq_some.mp step
    exact inv.sysFutex ok running
  | block t =>
    rw [futexStep] at step
    split at step
    · rename_i addr entering
      cases step
      refine inv.move fun w mem eq => .inr ?_
      have hi := inv.inside w mem
      rw [eq, entering] at hi
      simpa using hi
    · cases step
  | signal t =>
    cases step
    split
    · next blocked =>
      have he : s.place t = .elsewhere := by
        rw [Orderly] at ok
        simpa [Place.blocked, ok] using blocked
      rw [schedWake, he]
      exact inv.leave (.inr he)
    · exact inv
  | sleep t =>
    obtain ⟨running, ⟨⟩⟩ := Option.ite_none_right_eq_some.mp step
    exact inv.leave (.inl running)
  | awake t =>
    obtain ⟨sleeps, ⟨⟩⟩ := Option.ite_none_right_eq_some.mp step
    exact inv.leave (.inr sleeps)
  | exit t tid =>
    obtain ⟨running, ⟨⟩⟩ := Option.ite_none_right_eq_some.mp step
    obtain ⟨woken, still⟩ := inv.clearChildTid ok
    exact woken.leave (.inl (still t running))
  | kill c t tid =>
    obtain ⟨-, ⟨⟩⟩ := Option.ite_none_right_eq_some.mp step
    refine ((inv.kill ok.1).clearChildTid fun some => ?_).1
    exact ⟨(ok.2 some).1, settled_kill (ok.2 some).2⟩

end

/-- Threads 1 and 0 share an address space; thread 4 joins thread 3, both of another one. -/
def oneWait : List Label :=
  [.futex 1 0x1000 0 7 7, .block 1, .futex 0 0x1000 1 1 0, .futex 4 0x5000 0 3 3, .block 4,
    .exit 3 0x5000]

def twoSpaces : TaskId → SpaceId := fun t => if t < 2 then 0 else 1

/-- Thread 2, of another address space, wakes thread 1; thread 1 waits again and a signal ends
the wait; thread 0 waits, and thread 1 wakes it before it has blocked; thread 3 waits, and an
`exit_group` of thread 2 kills it. -/
def disorder : List Label :=
  [.futex 1 0x1000 0 7 7, .block 1, .futex 2 0x1000 1 1 0, .futex 1 0x2000 0 7 7, .block 1,
    .signal 1, .futex 0 0x3000 0 7 7, .futex 1 0x3000 1 1 0, .block 0, .futex 3 0x4000 0 7 7,
    .block 3, .kill 2 3 0, .exit 2 0]

end Aegis.Futex
