import Aegis.RunQueueRun

/-! Dead tasks. `sched_wake` overwrites the state of whatever record it is given, so a
dead task stays dead only if no futex slot, pipe or wait queue still names it. Nothing
clears those tables when a task dies; `CleanDeath` asks that they were clear already. -/

namespace Aegis.Sched

open LinkedRing LabelledRun List

variable {k k' origin : Kernel} {c t u n : TaskId}

def Dead (k : Kernel) (t : TaskId) : Prop :=
  (k.task t).state = .zombie

structure Buried (k : Kernel) : Prop where
  queue : RunQueue k
  named : ∀ t, Held k t → t ∈ k.all ∧ ¬ Dead k t
  known : ∀ t, Dead k t → t ∈ k.all ∨ t ∈ k.reaped
  clean : k.staleWakes = []

def StillDead (origin k : Kernel) : Prop :=
  ∀ t, Dead origin t → Dead k t

def CurrentAlive (k : Kernel) : Prop :=
  ∀ c, k.cur = some c → ¬ Dead k c

theorem Buried.target_alive (good : Buried k) (target : Held k t ∨ t ∈ k.all ∧
      ((k.task t).state = .blocked ∨ (k.task t).state = .stopped)) :
    t ∈ k.all ∧ ¬ Dead k t := by
  rcases target with held | ⟨hl, hw⟩
  · exact good.named t held
  refine ⟨hl, fun dead => ?_⟩
  rcases hw with hb | hs
  · simp [Dead, hb] at dead
  · simp [Dead, hs] at dead

variable {state : TaskState} {doomed : List TaskId} {call : KCall}

theorem setState_dead :
    Dead (setState k t state) u ↔ (u = t ∧ state = .zombie) ∨ (u ≠ t ∧ Dead k u) := by
  rw [Dead, setState_state]
  by_cases eq : u = t
  · simp [eq]
  · simp [eq, Dead]

theorem Dead.setState_zombie (dead : Dead k u) : Dead (setState k t .zombie) u := by
  by_cases eq : u = t
  · exact setState_dead.mpr (.inl ⟨eq, rfl⟩)
  · exact setState_dead.mpr (.inr ⟨eq, dead⟩)

theorem Buried.schedWake (good : Buried k) (hl : t ∈ k.all) (ha : ¬ Dead k t) :
    Buried (schedWake k t) ∧ ∀ u, Dead (schedWake k t) u ↔ Dead k u := by
  have live : t ∉ k.reaped := fun hf => good.queue.gone t hf hl
  have hw : Sched.schedWake k t = makeRunnable k t := if_neg live
  have eq : ∀ u, Dead (Sched.schedWake k t) u ↔ Dead k u := by
    intro u
    rw [hw]
    refine setState_dead.trans ?_
    by_cases isT : u = t
    · simp [isT, ha]
    · simp [isT]
  refine ⟨⟨good.queue.schedWake (.inl hl), fun u held => ?_, fun u dead => ?_, ?_⟩, eq⟩
  · rw [schedWake_all, eq]
    exact good.named u (schedWake_held.mp held)
  · rw [hw]
    exact good.known u ((eq u).mp dead)
  · rw [hw]
    exact good.clean

theorem SameLists.dead (eq : SameLists k k') : Dead k' t ↔ Dead k t := by
  rw [Dead, eq.state, Dead]

theorem Buried.of_same (good : Buried k) (eq : SameLists k k')
    (held : ∀ t, Held k' t → Held k t ∨ t ∈ k.all ∧ ¬ Dead k t) : Buried k' := by
  refine ⟨good.queue.of_same eq fun t hn => (held t hn).imp_right And.left,
    fun t hn => ?_, fun t dead => ?_, ?_⟩
  · rw [eq.all, eq.dead]
    exact (held t hn).elim (good.named t) id
  · rw [eq.all, eq.reaped]
    exact good.known t (eq.dead.mp dead)
  · rw [eq.staleWakes]
    exact good.clean

theorem buried_calm : Calm fun k => Buried k ∧ StillDead origin k where
  queue good := good.1.queue
  frame good eq held :=
    ⟨good.1.of_same eq fun t hn => .inl (held t hn), fun t dead => eq.dead.mpr (good.2 t dead)⟩
  wake good target := by
    obtain ⟨hl, ha⟩ := good.1.target_alive target
    obtain ⟨hw, eq⟩ := good.1.schedWake hl ha
    exact ⟨hw, fun u dead => (eq u).mpr (good.2 u dead)⟩

theorem Buried.changeState {links : Links RunNode} (good : Buried k) (hl : t ∈ k.all)
    (hu : state = .zombie → ¬ Held k t)
    (queue : RunQueue { setState k t state with links := links }) :
    Buried { setState k t state with links := links } := by
  refine ⟨queue, fun u held => ⟨(good.named u held).1, fun dead => ?_⟩, fun u dead => ?_, good.clean⟩
  · rcases setState_dead.mp dead with ⟨rfl, zombie⟩ | ⟨-, old⟩
    · exact hu zombie held
    · exact (good.named u held).2 old
  · rcases setState_dead.mp dead with ⟨rfl, -⟩ | ⟨-, old⟩
    · exact .inl hl
    · exact good.known u old

theorem Buried.park (good : Buried k) (hl : t ∈ k.all) (idle : state ≠ .running)
    (hu : state = .zombie → ¬ Held k t) : Buried (park k t state) :=
  good.changeState hl hu (good.queue.park idle)

theorem Buried.kill (good : Buried k) (hl : t ∈ k.all) (hu : ¬ Held k t)
    (idle : (k.task t).state ≠ .running) : Buried (setState k t .zombie) := by
  have hk : Buried { setState k t .zombie with links := k.links } :=
    good.changeState hl (fun _ => hu) (good.queue.setState_of_idle (by simp) idle)
  exact hk

theorem Buried.switchTo (good : Buried k) (hl : n ∈ k.all) : Buried (switchTo k n) :=
  ⟨good.queue.switchTo hl, good.named, good.known, good.clean⟩

theorem schedAdd_dead {new : Task} (hr : new.state = .running) :
    Dead (schedAdd k new) u ↔ u ≠ k.nextId ∧ Dead k u := by
  by_cases eq : u = k.nextId
  · simp [Dead, schedAdd, eq, hr]
  · simp [Dead, schedAdd, eq]

theorem Buried.schedAdd {new : Task} (good : Buried k) (hr : new.state = .running) :
    Buried (schedAdd k new) := by
  have mem : ∀ u, u ∈ k.all → u ∈ (Sched.schedAdd k new).all := fun u hl =>
    (schedAdd_all good.queue new).mem_iff.mpr (.tail _ hl)
  refine ⟨good.queue.schedAdd new, fun u held => ?_, fun u dead => ?_, good.clean⟩
  · obtain ⟨hl, ha⟩ := good.named u held
    exact ⟨mem u hl, fun dead => ha ((schedAdd_dead hr).mp dead).2⟩
  · exact (good.known u ((schedAdd_dead hr).mp dead).2).imp_left (mem u)

theorem Buried.reap (good : Buried k) (hl : t ∈ k.all) (hn : k.cur ≠ some t)
    (dead : Dead k t) : Buried (reap k c t) := by
  have eq : SameLists { k with all := k.all.erase t, reaped := t :: k.reaped }
      (Sched.reap k c t) := stopWaiting_same
  have queue : RunQueue (Sched.reap k c t) := good.queue.reap hl hn (by rw [dead]; simp)
  refine ⟨queue, fun u held => ?_, fun u gone => ?_, ?_⟩
  · obtain ⟨hi, ha⟩ := good.named u held
    rw [eq.all, eq.dead]
    refine ⟨good.queue.nodup.mem_erase_iff.mpr ⟨?_, hi⟩, ha⟩
    rintro rfl
    exact ha dead
  · rw [eq.all, eq.reaped]
    by_cases isT : u = t
    · exact .inr (by simp [isT])
    · refine (good.known u (eq.dead.mp gone)).imp (fun old => ?_) (mem_cons_of_mem t)
      exact good.queue.nodup.mem_erase_iff.mpr ⟨isT, old⟩
  · rw [eq.staleWakes]
    exact good.clean

structure Resting (origin k : Kernel) : Prop where
  buried : Buried k
  still : StillDead origin k
  current : CurrentAlive k

theorem Buried.resting_switch (good : Buried k) (hs : StillDead origin k) (hl : n ∈ k.all)
    (hr : (k.task n).state = .running) : Resting origin (Sched.switchTo k n) where
  buried := good.switchTo hl
  still := hs
  current := by
    rintro c ⟨⟩ dead
    have zombie : (k.task n).state = .zombie := dead
    simp [hr] at zombie

theorem resting_stable : Stable (Resting origin) where
  queue good := good.buried.queue
  frame good same held := by
    obtain ⟨buried, still⟩ := buried_calm.frame ⟨good.buried, good.still⟩ same held
    refine ⟨buried, still, fun c current => ?_⟩
    rw [same.dead]
    exact good.current c (same.cur ▸ current)
  wake good target := by
    obtain ⟨listed, alive⟩ := good.buried.target_alive target
    obtain ⟨woken, same⟩ := good.buried.schedWake listed alive
    refine ⟨woken, fun u dead => (same u).mpr (good.still u dead), fun c current => ?_⟩
    rw [same]
    exact good.current c (schedWake_cur ▸ current)
  register {k k'} good same held := by
    refine ⟨good.buried.of_same same fun t named => (held t named).imp_right fun current =>
      ⟨good.buried.queue.current t current, good.current t current⟩,
      fun t dead => same.dead.mpr (good.still t dead), fun c current => ?_⟩
    rw [same.dead]
    exact good.current c (same.cur ▸ current)
  park {k c n state} good current waits listed running := by
    have alive : state ≠ .zombie := by rintro rfl; simp at waits
    have idle : state ≠ .running := by rintro rfl; simp at waits
    have parked := good.buried.park (good.buried.queue.current c current) idle fun zombie =>
      absurd zombie alive
    refine parked.resting_switch (fun t dead => ?_) listed running
    refine setState_dead.mpr (.inr ⟨?_, good.still t dead⟩)
    rintro rfl
    exact good.current t current (good.still t dead)
  switch good listed running := good.buried.resting_switch good.still listed running
  add {k new} good running := by
    refine ⟨good.buried.schedAdd running, fun t dead => ?_, fun c current dead => ?_⟩
    · refine (schedAdd_dead running).mpr ⟨?_, good.still t dead⟩
      rintro rfl
      obtain ⟨unlisted, live⟩ := good.buried.queue.nextId_new
      exact (good.buried.known _ (good.still _ dead)).elim unlisted live
    · obtain ⟨old, wasDead⟩ := (schedAdd_dead running).mp dead
      cases isCurrent : k.cur with
      | none => exact old (by simpa [schedAdd, isCurrent, eq_comm] using current)
      | some d =>
        obtain rfl : d = c := by simpa [schedAdd, isCurrent] using current
        exact good.current d isCurrent wasDead
  reap {k c t} good listed notCurrent dead := by
    have same : SameLists { k with all := k.all.erase t, reaped := t :: k.reaped }
      (Sched.reap k c t) := stopWaiting_same
    refine ⟨good.buried.reap listed notCurrent dead, fun u gone => same.dead.mpr (good.still u gone),
      fun d isCurrent => ?_⟩
    rw [same.dead]
    exact good.current d isCurrent

def KCall.endsTask : KCall → Bool
  | .exit _ | .sysExit _ _ | .exitGroup _ _ => true
  | _ => false

structure QuietExit (k : Kernel) (c : TaskId) : Prop where
  unnamed : ¬ Held k c
  relieved : (k.task c).isUser = false → ∃ t ∈ k.all, t ≠ c ∧ (k.task t).state = .running

/-- A task that dies is named by no table, and a thread killed by `sys_exit_group` is not
runnable either. -/
structure CleanDeath (k : Kernel) (call : KCall) : Prop where
  exits : call.endsTask = true → ∀ c ∈ k.cur, QuietExit k c
  kills : call.endsGroup = true → ∀ c ∈ k.cur, ∀ t ∈ siblings k c,
    (k.task t).state ≠ .running ∧ ¬ Held k t

theorem siblings_listed (hm : t ∈ siblings k c) : t ∈ k.all :=
  mem_of_mem_others (mem_of_mem_filter hm)

theorem RunList.exists_first {nodes : List RunNode} (runs : RunList k nodes)
    (listed : t ∈ k.all) (running : (k.task t).state = .running) :
    ∃ n, k.links.next .sentinel = some (.task n) := by
  have member := (runs.mem_iff t).mpr ⟨listed, running⟩
  cases nodes with
  | nil => cases member
  | cons first rest =>
    have link : k.links.next .sentinel = some first := runs.ring.seg.1
    cases first with
    | sentinel => exact absurd runs.ring.nodup (by simp)
    | task n => exact ⟨n, link⟩

theorem schedExitKernel_picks (queue : RunQueue k)
    (relieved : ∃ t ∈ k.all, t ≠ c ∧ (k.task t).state = .running)
    (exits : schedExitKernel k c = some k') :
    ∃ n, (k.task n).state = .running ∧ k' = switchTo (unlink k c) n := by
  obtain ⟨hf, left⟩ := queue.unlink_runs c
  obtain ⟨n, next, rfl⟩ := Option.map_eq_some_iff.mp exits
  refine ⟨n, ?_, rfl⟩
  rcases Option.or_eq_some_iff.mp next with hp | ⟨hn, -⟩
  · rcases of_pickAfter hp with link | link
    · exact (queue.pick link).2
    · exact (left.pick link).2
  · obtain ⟨t, hl, other, hr⟩ := relieved
    obtain ⟨m, link⟩ := left.exists_first (queue.nodup.mem_erase_iff.mpr ⟨other, hl⟩) hr
    simp only [pickAfter, link] at hn
    split at hn <;> cases hn

theorem Buried.unlink (good : Buried k) (hu : ¬ Held k c)
    (queue : RunQueue (Sched.switchTo (Sched.unlink k c) n)) :
    Buried (Sched.switchTo (Sched.unlink k c) n) := by
  refine ⟨queue, fun u held => ?_, fun u dead => ?_, good.clean⟩
  · obtain ⟨hl, ha⟩ := good.named u held
    refine ⟨good.queue.nodup.mem_erase_iff.mpr ⟨?_, hl⟩, ha⟩
    rintro rfl
    exact hu held
  · by_cases isC : u = c
    · exact .inr (by simp [isC, Sched.switchTo, Sched.unlink])
    · exact (good.known u dead).imp (fun old => good.queue.nodup.mem_erase_iff.mpr ⟨isC, old⟩)
        (mem_cons_of_mem c)

/-- The user task `c` is on its way out, and no table names the tasks that die with it. -/
def Leaving (origin : Kernel) (c : TaskId) (doomed : List TaskId) (k : Kernel) : Prop :=
  (((Buried k ∧ StillDead origin k) ∧ k.cur = some c) ∧ (k.task c).isUser = true) ∧
    ∀ t ∈ doomed, t ∈ k.all ∧ ¬ Held k t

theorem leaving_calm : Calm (Leaving origin c doomed) := buried_calm.current.user.unnamed doomed

theorem setState_isUser : ((setState k t state).task u).isUser = (k.task u).isUser := by
  by_cases eq : u = t
  · subst eq
    simp [setState, updateTask]
  · simp [setState, updateTask, eq]

section
variable (good : Leaving origin c doomed k)
include good

theorem Leaving.kill (hm : t ∈ doomed) (idle : (k.task t).state ≠ .running) :
    Leaving origin c doomed (setState k t .zombie) := by
  obtain ⟨⟨⟨⟨hb, hs⟩, hc⟩, user⟩, hu⟩ := good
  obtain ⟨hl, free⟩ := hu t hm
  exact ⟨⟨⟨⟨hb.kill hl free idle, fun u dead => (hs u dead).setState_zombie⟩, hc⟩,
    setState_isUser.trans user⟩, hu⟩

theorem Leaving.park (hm : c ∈ doomed) : Leaving origin c doomed (park k c .zombie) := by
  obtain ⟨⟨⟨⟨hb, hs⟩, hc⟩, user⟩, hu⟩ := good
  obtain ⟨hl, free⟩ := hu c hm
  exact ⟨⟨⟨⟨hb.park hl (by simp) fun _ => free,
    fun u dead => (hs u dead).setState_zombie⟩, hc⟩, setState_isUser.trans user⟩, hu⟩

theorem Leaving.schedExit {b : List PipeEnd} (hm : c ∈ doomed)
    (exits : schedExit k c b = some k') : Resting origin k' := by
  rw [Sched.schedExit, if_pos good.1.2] at exits
  obtain ⟨m, n, left, hs, hr, rfl⟩ := leaving_calm.schedExitUser good good.1.1.2
    (fun hl _ => hl.park hm) exits
  exact left.1.1.1.1.resting_switch left.1.1.1.2 hs hr

theorem Leaving.leave {group : Nat} {b : List PipeEnd} (hm : c ∈ doomed)
    (exits : Sched.schedExit (reparent (hangUp k c group) c) c b = some k') :
    Resting origin k' := by
  have hung := leaving_calm.hangUp group good good.1.1.2
  have ha := leaving_calm.reparent c hung
  exact ha.schedExit hm exits

end

theorem Resting.schedExitKernel (good : Resting origin k) (hc : k.cur = some c)
    (hq : QuietExit k c) (kernel : (k.task c).isUser = false)
    (exits : schedExitKernel k c = some k') : Resting origin k' := by
  have queue := good.buried.queue.schedExitKernel hc exits
  obtain ⟨n, hr, rfl⟩ := schedExitKernel_picks good.buried.queue (hq.relieved kernel) exits
  refine ⟨good.buried.unlink hq.unnamed queue, good.still, ?_⟩
  rintro d ⟨⟩ dead
  have zombie : (k.task n).state = .zombie := dead
  simp [hr] at zombie

theorem Resting.exitStep (good : Resting origin k) (hc : k.cur = some c)
    (hq : QuietExit k c) (hk : call.endsGroup = true → ∀ t ∈ siblings k c,
      (k.task t).state ≠ .running ∧ ¬ Held k t) (exits : ExitStep k c call k') :
    Resting origin k' := by
  have hs := good.buried.queue.current c hc
  have hl : (k.task c).isUser = true → Leaving origin c [c] k := fun user =>
    ⟨⟨⟨⟨good.buried, good.still⟩, hc⟩, user⟩, by simpa using ⟨hs, hq.unnamed⟩⟩
  have ha : ∀ l, Sched.schedExit k c l = some k' → Resting origin k' := by
    intro l exits
    cases kind : (k.task c).isUser with
    | true => exact (hl kind).schedExit (.head _) exits
    | false =>
      rw [Sched.schedExit, if_neg (by simp [kind])] at exits
      exact good.schedExitKernel hc hq kind exits
  cases exits with
  | exit exits => exact ha _ exits
  | sysExit exits =>
    unfold sysExit at exits
    split at exits
    · next user =>
      exact (leaving_calm.clearTid c (hl user)).leave (.head _) exits
    · exact ha _ exits
  | exitGroup exits =>
    unfold sysExitGroup at exits
    split at exits
    · next user =>
      have hp : SiblingsParked k c :=
        ⟨fun t hm => (hk rfl t hm).1, pairwise_of_forall_mem_list
          fun s _ t hm hw => (hk rfl t hm).2 (.inl ⟨_, hw.2⟩)⟩
      have doomed : Leaving origin c (c :: siblings k c) k := by
        refine ⟨(hl user).1, fun t hm => ?_⟩
        rcases mem_cons.mp hm with rfl | sibling
        · exact ⟨hs, hq.unnamed⟩
        · exact ⟨siblings_listed sibling, (hk rfl t sibling).2⟩
      have hd := leaving_calm.killSiblings doomed hp fun hl hm idle => hl.kill (.tail _ hm) idle
      exact hd.leave (.head _) exits
    · exact ha _ exits

theorem Resting.kstep (good : Resting origin k) (hl : CleanDeath k call)
    (ht : kstep k call = some k') : Resting origin k' := by
  rcases resting_stable.kstep good ht with kept | ⟨c, hc, exits⟩
  · exact kept
  have ends : call.endsTask = true := by
    cases exits with
    | exit _ | sysExit _ | exitGroup _ => rfl
  exact good.exitStep hc (hl.exits ends c hc) (fun group => hl.kills group c hc) exits

theorem schedInit_resting : Resting schedInit schedInit where
  buried := {
    queue := schedInit_runQueue
    named := fun t held => ((schedInit_runQueue.held t held).elim nofun nofun)
    known := nofun
    clean := rfl }
  still := fun _ => id
  current := nofun

theorem zombies_stay_dead {labels later : List KCall}
    (run : RunWhere kstep CleanDeath schedInit labels k)
    (goesOn : RunWhere kstep CleanDeath k later k') :
    (∀ t, (k.task t).state = .zombie → (k'.task t).state = .zombie) ∧ k'.staleWakes = [] := by
  have keeps : ∀ origin k call k', Resting origin k → CleanDeath k call →
      kstep k call = some k' → Resting origin k' := fun _ _ _ _ good clean taken =>
    good.kstep clean taken
  have before := run.invariant schedInit_resting (keeps schedInit)
  have start : Resting k k := ⟨before.buried, fun _ => id, before.current⟩
  have after := goesOn.invariant start (keeps k)
  exact ⟨after.still, after.buried.clean⟩

theorem cleanDeath_of_goes_on (hg : call.endsTask = false) : CleanDeath k call := by
  refine ⟨fun ends => ?_, fun group => ?_⟩
  · simp [hg] at ends
  · cases call <;> simp_all [KCall.endsTask, KCall.endsGroup]

theorem runWhere_cleanDeath {labels : List KCall}
    (he : (exec (guarded kstep fun _ call => call.endsTask = false) k labels).isSome) :
    RunWhere kstep CleanDeath k labels
      (reached (guarded kstep fun _ call => call.endsTask = false) k labels) :=
  (runWhere_of_exec (exec_eq_reached he)).mono fun _ _ => cleanDeath_of_goes_on

/-- Init starts process 2, which starts a thread; the thread waits on a futex. -/
def futexWaiterRun : List KCall :=
  [.spawn, .fork (processTask 1 0), .tick 0, .fork (processTask 2 1), .tick 0,
    .fork (threadTask 3 2), .tick 0, .futexWait 0x1000, .tick 0, .tick 0]

def wokenInTimeRun : List KCall :=
  futexWaiterRun ++ [.futexWake 0x1000 1, .tick 0, .block, .tick 0, .tick 0]

def reapAny : KCall :=
  .waitpid ⟨none, false, false, false⟩

def wokenInTime : Kernel :=
  reached (guarded kstep fun _ call => call.endsTask = false) schedInit wokenInTimeRun

theorem wokenInTime_unnamed (t : TaskId) : ¬ Held wokenInTime t := by
  have pool : wokenInTime.futex = schedInit.futex := by decide
  have pipes : wokenInTime.pipe = schedInit.pipe := rfl
  have queues : wokenInTime.waitq = schedInit.waitq := rfl
  rw [held_congr pool pipes queues]
  intro held
  exact nomatch (schedInit_resting.buried.named t held).1

theorem wokenInTime_cleanDeath : CleanDeath wokenInTime (.exitGroup 0 []) := by
  have hc : wokenInTime.cur = some 2 := by decide
  refine ⟨fun _ c hi => ⟨wokenInTime_unnamed c, ?_⟩, fun _ c hi t member =>
    ⟨?_, wokenInTime_unnamed t⟩⟩
  · cases hc.symm.trans hi
    decide
  cases hc.symm.trans hi
  have hp : ∀ t ∈ siblings wokenInTime 2, (wokenInTime.task t).state ≠ .running := by decide
  exact hp t member

def endedInTime : Kernel :=
  reached kstep wokenInTime [.exitGroup 0 []]

theorem zombies_stay_dead_woken_in_time :
    ∃ k', RunWhere kstep CleanDeath schedInit (wokenInTimeRun ++ [.exitGroup 0 []]) endedInTime ∧
      RunWhere kstep CleanDeath endedInTime [reapAny, reapAny, .futexWake 0x1000 1] k' ∧
      3 ∈ k'.reaped ∧
      (∀ t, (endedInTime.task t).state = .zombie → (k'.task t).state = .zombie) ∧
      k'.staleWakes = [] := by
  have run : RunWhere kstep CleanDeath schedInit wokenInTimeRun wokenInTime :=
    runWhere_cleanDeath (by decide)
  have ends := exec_eq_reached (show (exec kstep wokenInTime [.exitGroup 0 []]).isSome by decide)
  have died : RunWhere kstep CleanDeath schedInit (wokenInTimeRun ++ [.exitGroup 0 []])
      endedInTime := run.snoc wokenInTime_cleanDeath (by simpa [exec, endedInTime] using ends)
  have goesOn := runWhere_cleanDeath (show (exec (guarded kstep fun _ call =>
    call.endsTask = false) endedInTime [reapAny, reapAny, .futexWake 0x1000 1]).isSome by decide)
  exact ⟨_, died, goesOn, by decide, zombies_stay_dead died goesOn⟩

/-- The process ends while its thread waits: the dead thread stays in the futex pool. -/
def endedWithWaiter : Kernel :=
  reached kstep schedInit (futexWaiterRun ++ [.exitGroup 0 []])

theorem killed_waiter_runs_again :
    Run kstep schedInit (futexWaiterRun ++ [.exitGroup 0 []]) endedWithWaiter ∧
      (endedWithWaiter.task 3).state = .zombie ∧
      (∃ k', Run kstep endedWithWaiter [.futexWake 0x1000 1] k' ∧ (k'.task 3).state = .running) ∧
      ∃ k', Run kstep endedWithWaiter [reapAny, reapAny, .futexWake 0x1000 1] k' ∧
        k'.staleWakes = [3] :=
  ⟨run_of_exec exec_eq_reached, by decide, exists_run, exists_run⟩

end Aegis.Sched
