import Aegis.CallMoves
import Aegis.LabelledRun

/-! Runs of the scheduler. `sys_exit_group` marks the sibling threads dead without taking
them off the run list, so the run-queue invariant survives it only when no sibling is
linked at the moment it is marked. -/

namespace Aegis.Sched

open LinkedRing LabelledRun List

variable {k k' : Kernel} {c t u : TaskId}

theorem runQueue_stable : Stable RunQueue where
  queue := id
  frame good same held := good.of_same same fun t hr => .inl (held t hr)
  wake good target := good.schedWake (target.elim (good.held _) fun hl => .inl hl.1)
  register good same held := good.of_same same fun t hr =>
    (held t hr).imp_right (good.current t)
  park good _ waits hl _ := (good.park (by rintro rfl; simp at waits)).switchTo hl
  switch good hl _ := good.switchTo hl
  add good _ := good.schedAdd _
  reap good hl notCurrent zombie := good.reap hl notCurrent (by simp [zombie])

theorem schedInit_runQueue : RunQueue schedInit where
  runs := ⟨[], single_ring _, by simp [schedInit]⟩
  nodup := nodup_nil
  current := nofun
  empty := fun _ => rfl
  fresh := by simp [schedInit]
  gone := by simp [schedInit]
  held := by
    rintro t (⟨addr, slot⟩ | ⟨p, hw | hw⟩ | ⟨q, hq⟩)
    · exact nomatch eq_of_mem_replicate slot
    · exact nomatch hw
    · exact nomatch hw
    · exact nomatch hq

def Sibling (k : Kernel) (tgid : Nat) (t : TaskId) : Prop :=
  (k.task t).isUser ∧ (k.task t).tgid = tgid
  deriving Decidable

def siblings (k : Kernel) (c : TaskId) : List TaskId :=
  (others k.all c).filter fun t => Sibling k (k.task c).tgid t

def WaitsOnTid (k : Kernel) (s t : TaskId) : Prop :=
  (k.task s).clearChildTid ≠ 0 ∧ some ⟨t, (k.task s).clearChildTid⟩ ∈ k.futex
  deriving Decidable

/-- No sibling is runnable when its turn comes: none is at the start, and none waits on
the futex of a sibling marked before it. -/
structure SiblingsParked (k : Kernel) (c : TaskId) : Prop where
  idle : ∀ t ∈ siblings k c, (k.task t).state ≠ .running
  silent : (siblings k c).Pairwise fun s t => ¬ WaitsOnTid k s t

instance (k : Kernel) (c : TaskId) : Decidable (SiblingsParked k c) :=
  decidable_of_iff ((∀ t ∈ siblings k c, (k.task t).state ≠ .running) ∧
    (siblings k c).Pairwise fun s t => ¬ WaitsOnTid k s t)
    ⟨fun both => ⟨both.1, both.2⟩, fun parked => ⟨parked.idle, parked.silent⟩⟩

def OnlyState (a b : Task) : Prop :=
  ∃ state, b = { a with state := state }

theorem OnlyState.refl (a : Task) : OnlyState a a := ⟨a.state, rfl⟩

theorem OnlyState.trans {a b d : Task} (h1 : OnlyState a b) (h2 : OnlyState b d) :
    OnlyState a d := by
  obtain ⟨_, rfl⟩ := h1
  obtain ⟨last, rfl⟩ := h2
  exact ⟨last, rfl⟩

theorem setState_onlyState (state : TaskState) :
    OnlyState (k.task u) ((setState k t state).task u) := by
  by_cases eq : u = t
  · subst eq
    exact ⟨state, by simp [setState, updateTask]⟩
  · exact ⟨(k.task u).state, by simp [setState, updateTask, eq]⟩

theorem schedWake_onlyState : OnlyState (k.task u) ((schedWake k t).task u) := by
  unfold schedWake
  split
  · exact .refl _
  · exact setState_onlyState .running

theorem schedWake_task_of_ne (other : u ≠ t) : (schedWake k t).task u = k.task u := by
  unfold schedWake
  split
  · rfl
  · simp [makeRunnable, runListInsert, setState, updateTask, other]

variable {ts : List TaskId}

theorem wakeAll_onlyState : OnlyState (k.task u) ((wakeAll k ts).task u) := by
  induction ts generalizing k with
  | nil => exact .refl _
  | cons t ts ih => exact schedWake_onlyState.trans ih

theorem wakeAll_task_of_not_mem (ha : u ∉ ts) : (wakeAll k ts).task u = k.task u := by
  induction ts generalizing k with
  | nil => rfl
  | cons t ts ih =>
    obtain ⟨other, rest⟩ := ne_and_not_mem_of_not_mem_cons ha
    exact (ih rest).trans (schedWake_task_of_ne other)

theorem clearTid_onlyState : OnlyState (k.task u) ((clearTid k t).task u) := by
  unfold clearTid
  split
  · exact .refl _
  · exact wakeAll_onlyState

theorem clearTid_task (hs : ¬ WaitsOnTid k t u) : (clearTid k t).task u = k.task u := by
  unfold clearTid
  split
  · rfl
  · next tid =>
    exact wakeAll_task_of_not_mem fun hw => hs ⟨tid, futexTake_woken hw⟩

theorem clearTid_futex {w : FutexWaiter} (slot : some w ∈ (clearTid k t).futex) :
    some w ∈ k.futex := by
  unfold clearTid at slot
  split at slot
  · exact slot
  · exact futexTake_left slot

theorem OnlyState.sibling {tgid : Nat} (only : OnlyState (k.task t) (k'.task t)) :
    Sibling k' tgid t ↔ Sibling k tgid t := by
  obtain ⟨state, eq⟩ := only
  simp [Sibling, eq]

theorem OnlyState.clearChildTid {a b : Task} (only : OnlyState a b) :
    b.clearChildTid = a.clearChildTid := by
  obtain ⟨state, rfl⟩ := only
  rfl

/-- The induction runs over the threads still to be visited: one death leaves each of them
with the state it had, because none waits on the futex that this death wakes. -/
theorem Calm.killFold {P : Kernel → Prop} (calm : Calm P) {tgid : Nat} {hd : TaskId → Prop}
    (good : P k)
    (dies : ∀ {k t}, P k → hd t → (k.task t).state ≠ .running → P (setState k t .zombie))
    (hi : ∀ t ∈ ts, Sibling k tgid t → hd t)
    (idle : ∀ t ∈ ts, Sibling k tgid t → (k.task t).state ≠ .running)
    (hs : ts.Pairwise fun s t =>
      Sibling k tgid s → Sibling k tgid t → ¬ WaitsOnTid k s t) :
    P (ts.foldl (killSibling tgid) k) := by
  induction ts generalizing k with
  | nil => exact good
  | cons t ts ih =>
    obtain ⟨h1, rest⟩ := pairwise_cons.mp hs
    have here : t ∈ t :: ts := .head _
    have ht : ∀ {u}, u ∈ ts → u ∈ t :: ts := mem_cons_of_mem t
    rw [foldl_cons]
    by_cases sibling : Sibling k tgid t
    · have hk : killSibling tgid k t = Sched.clearTid (setState k t .zombie) t := by
        rw [killSibling]
        exact if_pos sibling
      have only : ∀ u, OnlyState (k.task u) ((killSibling tgid k t).task u) := fun u => by
        rw [hk]
        exact (setState_onlyState .zombie).trans clearTid_onlyState
      refine ih ?_ (fun u mem => ?_) (fun u mem alive => ?_) (rest.imp fun hs => ?_)
      · rw [hk]
        exact calm.clearTid t (dies good (hi t here sibling) (idle t here sibling))
      · rw [(only u).sibling]
        exact hi u (ht mem)
      · have ha := (only u).sibling.mp alive
        have hq : ¬ WaitsOnTid (setState k t .zombie) t u := by
          rw [WaitsOnTid, (setState_onlyState .zombie).clearChildTid]
          exact h1 u mem sibling ha
        rw [hk, clearTid_task hq, setState_state]
        split
        · simp
        · exact idle u (ht mem) ha
      · rw [(only _).sibling, (only _).sibling, WaitsOnTid, (only _).clearChildTid]
        intro left right hw
        rw [hk] at hw
        have slot := clearTid_futex (k := setState k t .zombie) hw.2
        exact hs left right ⟨hw.1, slot⟩
    · have hp : killSibling tgid k t = k := by
        rw [killSibling]
        exact if_neg sibling
      rw [hp]
      exact ih good (fun u mem => hi u (ht mem)) (fun u mem => idle u (ht mem)) rest

theorem Calm.killSiblings {P : Kernel → Prop} (calm : Calm P) (good : P k) (hp : SiblingsParked k c)
    (dies : ∀ {k' t}, P k' → t ∈ siblings k c → (k'.task t).state ≠ .running →
      P (setState k' t .zombie)) : P (killSiblings k c) := by
  have mem : ∀ t ∈ others k.all c, Sibling k (k.task c).tgid t → t ∈ siblings k c :=
    fun t hl sibling => mem_filter.mpr ⟨hl, by simpa using sibling⟩
  have hs := pairwise_filter.mp hp.silent
  simp only [decide_eq_true_eq] at hs
  exact calm.killFold good dies mem (fun t hl sibling => hp.idle t (mem t hl sibling)) hs

theorem RunQueue.schedExit {b : List PipeEnd} (good : RunQueue k) (hc : k.cur = some c)
    (exits : schedExit k c b = some k') : RunQueue k' := by
  unfold Sched.schedExit at exits
  split at exits
  · obtain ⟨m, n, queue, hl, -, rfl⟩ := runQueue_stable.schedExitUser good hc
      (fun good _ => good.park (by simp)) exits
    exact queue.switchTo hl
  · exact good.schedExitKernel hc exits

theorem RunQueue.leave {group : Nat} {b : List PipeEnd} (good : RunQueue k) (hc : k.cur = some c)
    (exits : Sched.schedExit (reparent (hangUp k c group) c) c b = some k') : RunQueue k' := by
  have hung := runQueue_stable.current.hangUp group ⟨good, hc⟩ hc
  have ha := runQueue_stable.current.reparent c hung
  exact ha.1.schedExit ha.2 exits

theorem RunQueue.exitStep {call : KCall} (good : RunQueue k) (hc : k.cur = some c)
    (hp : ∀ group l, call = .exitGroup group l → SiblingsParked k c)
    (exits : ExitStep k c call k') : RunQueue k' := by
  cases exits with
  | exit exits => exact good.schedExit hc exits
  | sysExit exits =>
    unfold sysExit at exits
    split at exits
    · have hr := runQueue_stable.current.clearTid c ⟨good, hc⟩
      exact hr.1.leave hr.2 exits
    · exact good.schedExit hc exits
  | @exitGroup group l _ exits =>
    unfold sysExitGroup at exits
    split at exits
    · have hk := runQueue_stable.current.killSiblings ⟨good, hc⟩ (hp group l rfl)
        fun both _ idle => ⟨both.1.setState_of_idle (by simp) idle, both.2⟩
      exact hk.1.leave hk.2 exits
    · exact good.schedExit hc exits

/-- The calls of the kernel, and the scheduler's own functions on any task. -/
inductive SchedCall where
  | kernel (call : KCall)
  | add (new : Task)
  | wake (t : TaskId)
  | stop (t : TaskId)
  | resume (t : TaskId)

def schedStep (k : Kernel) : SchedCall → Option Kernel
  | .kernel call => kstep k call
  | .add new => some (schedAdd k new)
  | .wake t => some (schedWake k t)
  | .stop t => schedStop k t
  | .resume t => some (schedResume k t)

def SchedCall.targets : SchedCall → List TaskId
  | .wake t | .stop t | .resume t => [t]
  | _ => []

def KCall.endsGroup : KCall → Bool
  | .exitGroup _ _ => true
  | _ => false

def SchedCall.endsGroup : SchedCall → Bool
  | .kernel call => call.endsGroup
  | _ => false

/-- The scheduler's functions get tasks of the full list, and `sys_exit_group` finds the
siblings parked. -/
def Orderly (k : Kernel) (call : SchedCall) : Prop :=
  (∀ t ∈ call.targets, t ∈ k.all) ∧
    (call.endsGroup = true → ∀ c ∈ k.cur, SiblingsParked k c)
  deriving Decidable

theorem RunQueue.schedStep {call : SchedCall} (good : RunQueue k) (ho : Orderly k call)
    (ht : schedStep k call = some k') : RunQueue k' := by
  cases call with
  | kernel call =>
    rcases runQueue_stable.kstep good ht with kept | ⟨c, hc, exits⟩
    · exact kept
    refine good.exitStep hc ?_ exits
    rintro group hl rfl
    exact ho.2 rfl c hc
  | add new =>
    cases ht
    exact good.schedAdd new
  | wake t | resume t =>
    cases ht
    exact good.schedWake (.inl (ho.1 t (.head _)))
  | stop t =>
    simp only [Sched.schedStep, schedStop] at ht
    split at ht
    · next hc => exact runQueue_stable.parkCurrent good hc (.inr rfl) ht
    · cases ht
      exact good.park (by simp)

theorem run_list_exact {labels : List SchedCall}
    (run : RunWhere schedStep Orderly schedInit labels k) :
    (∃ nodes, RunList k nodes) ∧
      ∀ c n, runListNext k c = some n → n ∈ k.all ∧ (k.task n).state = .running := by
  have good : RunQueue k := run.invariant schedInit_runQueue
    fun _ _ _ good orderly taken => good.schedStep orderly taken
  exact ⟨good.runs, fun _ _ next => good.runListNext next⟩

def processTask (pid ppid : Nat) : Task :=
  { idleTask with isUser := true, pid := pid, tgid := pid, ppid := ppid, pgid := pid, sid := pid }

def threadTask (pid tgid : Nat) : Task :=
  { processTask pid tgid with tgid := tgid, pgid := tgid, sid := tgid }

/-- Process 2 starts a thread, which blocks; then the process ends with the thread parked. -/
def parkedThreadRun : List SchedCall :=
  [.kernel .spawn, .add (processTask 2 0), .kernel (.tick 0),
    .kernel (.fork (threadTask 3 2)), .kernel (.tick 0), .kernel .block, .kernel (.tick 0),
    .kernel (.exitGroup 0 [])]

theorem run_list_exact_parked_thread : ∃ k, RunWhere schedStep Orderly schedInit parkedThreadRun k ∧
      (k.task 2).state = .zombie ∧ (∃ nodes, RunList k nodes) ∧
      ∀ c n, runListNext k c = some n → n ∈ k.all ∧ (k.task n).state = .running :=
  exists_runWhere_of (fun k => (k.task 2).state = .zombie) fun _ run zombie =>
    ⟨zombie, run_list_exact run⟩

/-- Process 2 starts a thread and ends at once: the thread is still runnable, so it stays
linked in the run list as a zombie. -/
def runningThreadRun : List SchedCall :=
  [.kernel .spawn, .add (processTask 2 0), .kernel (.tick 0),
    .kernel (.fork (threadTask 3 2)), .kernel (.exitGroup 0 [])]

theorem exit_group_leaves_zombie_linked :
    ∃ k, Run schedStep schedInit runningThreadRun k ∧ 2 ∈ k.all ∧ (k.task 2).state = .zombie ∧
      (k.links.next (.task 2)).isSome ∧ ¬ ∃ nodes, RunList k nodes := by
  refine ⟨reached schedStep schedInit runningThreadRun,
    run_of_exec exec_eq_reached, by decide, by decide, by decide, ?_⟩
  rintro ⟨nodes, runs⟩
  have linked : RunNode.task 2 ∈ nodes := by
    by_contra out
    have empty := (runs.ring.outside (.task 2) (by simp [out])).1
    revert empty
    decide
  have running := ((runs.mem_iff 2).mp linked).2
  revert running
  decide

end Aegis.Sched
