import Aegis.TaskDeath

/-! Ticks of the clock: whom they run, and whom they wake. The run list is passed round in ring
order. The sleepers are looked for from the successor of the current task round to its
predecessor, so a current task that sleeps itself would be missed. The current task runs as long
as no kernel task exits: the idle task, the only one there is, never does. -/

namespace Aegis.Sched

open LinkedRing LabelledRun List

variable {k k' : Kernel} {c t u d now : Nat} {nodes order : List RunNode} {ts : List TaskId}
  {nows : List Nat}

/-! ### One round of the run list -/

def turns (k : Kernel) : List Nat → List TaskId
  | [] => []
  | now :: nows => (schedTick k now).cur.toList ++ turns (schedTick k now) nows

theorem next_of_rotated {x y : RunNode} {L : Links RunNode} {s : RunNode}
    (ring : Ring L s nodes) (ht : IsRotated (order ++ [x]) nodes)
    (h1 : (order ++ [x]).head? = some y) :
    L.next x = some y ∨ L.next x = some s ∧ L.next s = some y := by
  have hw (eq : nodes = order ++ [x]) : L.next x = some s ∧ L.next s = some y := by
    obtain ⟨front, back⟩ := seg_append.mp (eq ▸ ring.seg)
    exact ⟨back.1, by rw [front.next_first, ← head?_eq_some_head, h1]⟩
  obtain ⟨a, b, parts, rfl⟩ : ∃ a b, order ++ [x] = a ++ b ∧ nodes = b ++ a := by
    obtain ⟨n, lt, rfl⟩ := isRotated_iff_mod.mp ht
    exact ⟨_, _, (take_append_drop n _).symm, rotate_eq_drop_append_take lt⟩
  cases a with
  | nil => exact .inr (hw (by simp [parts]))
  | cons z a =>
    obtain rfl | ⟨b, w, rfl⟩ := eq_nil_or_concat' b
    · exact .inr (hw (by simp [parts]))
    obtain ⟨rfl, last⟩ := append_inj' (parts.trans (append_assoc (z :: a) b [w]).symm) rfl
    cases last
    cases h1
    rw [append_assoc] at ring
    exact .inl (seg_append.mp ring.seg).2.1

theorem RunList.turn (runs : RunList k nodes) (ht : IsRotated (order ++ [.task c]) nodes) :
    ∃ n rest, order ++ [.task c] = .task n :: rest ∧ runListNext k c = some n := by
  obtain ⟨y, rest, h1⟩ := exists_cons_of_ne_nil (append_ne_nil_of_right_ne_nil order
    (cons_ne_nil (RunNode.task c) []))
  have mem : y ∈ nodes := ht.perm.subset (by simp [h1])
  cases y with
  | sentinel => exact absurd mem (nodup_cons.mp runs.ring.nodup).1
  | task n =>
    refine ⟨n, rest, h1, ?_⟩
    rcases next_of_rotated runs.ring ht (by rw [h1]; rfl) with link | ⟨link, hr⟩
    · simp [runListNext, pickAfter, link]
    · simp [runListNext, pickAfter, link, hr]

theorem schedTick_idle (hc : k.cur = some c) (hl : c ∈ k.all)
    (ha : ∀ u ∈ k.all, ¬ Expired (k.task u) now) {n : TaskId}
    (next : runListNext k c = some n) : schedTick k now = switchTo k n := by
  have scan : (tickOrder k.all c).foldl (wakeSleeper now) k = k := by
    refine foldl_keeps (P := (· = k)) ?_ ?_ rfl fun u => mem_of_mem_tickOrder hl
    · rintro _ u rfl hi
      exact if_neg (ha u hi)
    intro q u
    unfold wakeSleeper
    split <;> rfl
  simp only [schedTick, hc, scan, next]

theorem turns_eq (runs : RunList k nodes) (hc : k.cur = some c)
    (ht : IsRotated (order ++ [.task c]) nodes)
    (has : ∀ now ∈ nows, ∀ u ∈ k.all, ¬ Expired (k.task u) now)
    (hr : nows.length ≤ nodes.length) :
    (turns k nows).map RunNode.task = (order ++ [RunNode.task c]).take nows.length := by
  induction nows generalizing k c order with
  | nil => rfl
  | cons now nows ih =>
    obtain ⟨n, rest, h1, next⟩ := runs.turn ht
    obtain ⟨now_, hd⟩ := forall_mem_cons.mp has
    have hl : c ∈ k.all := ((runs.mem_iff c).mp (ht.perm.subset (by simp))).1
    have ha : IsRotated (rest ++ [.task n]) nodes := (isRotated_concat _ _).trans (h1 ▸ ht)
    have length := ha.perm.length_eq
    simp only [length_append, length_cons, length_nil] at length hr
    have loop := ih (k := switchTo k n) ⟨runs.ring, runs.mem_iff⟩ rfl ha hd (by omega)
    rw [take_append_of_le_length (by omega)] at loop
    rw [turns, schedTick_idle hc hl now_ next, h1, length_cons, take_succ_cons, ← loop]
    rfl

theorem ticks_round (runs : RunList k nodes) (hc : k.cur = some c) (mem : .task c ∈ nodes)
    (length : nows.length = nodes.length)
    (ha : ∀ now ∈ nows, ∀ u ∈ k.all, ¬ Expired (k.task u) now) :
    ∃ rest, (turns k nows).map RunNode.task = rest ++ [.task c] ∧
      IsRotated (rest ++ [.task c]) nodes := by
  obtain ⟨pre, after, rfl⟩ := append_of_mem mem
  have ht : IsRotated (after ++ pre ++ [.task c]) (pre ++ .task c :: after) := by
    have hw : pre ++ .task c :: after = pre ++ [.task c] ++ after := by simp
    rw [hw, append_assoc]
    exact isRotated_append
  have hr := turns_eq runs hc ht ha length.le
  rw [length, ← ht.perm.length_eq, take_length] at hr
  exact ⟨_, hr, ht⟩

/-! ### Sleepers -/

def Sleeps (k : Kernel) (t : TaskId) (d : Nat) : Prop :=
  t ∈ k.all ∧ (k.task t).state = .blocked ∧ (k.task t).sleepDeadline = d
  deriving Decidable

/-- Runnable and linked, and no later tick wakes the task again. -/
def Woken (k : Kernel) (t : TaskId) : Prop :=
  (k.task t).state = .running ∧ (k.task t).sleepDeadline = 0 ∧ (k.links.next (.task t)).isSome
  deriving Decidable

theorem mem_tickOrder (good : RunQueue k) (hc : k.cur = some c) (hl : t ∈ k.all) (other : t ≠ c) :
    t ∈ tickOrder k.all c := by
  obtain ⟨pre, after, split, out⟩ := eq_append_cons_of_mem (good.current c hc)
  have mem : t ∈ others k.all c := by
    rw [split] at hl ⊢
    rw [others_split out]
    simp_all [or_comm]
  unfold tickOrder
  split
  · next none => simp [none] at mem
  · next some => rwa [← some]

def awake (task : Task) : Task := { task with state := .running, sleepDeadline := 0 }

theorem wakeSleeper_task : (wakeSleeper now k u).task t =
    if t = u ∧ Expired (k.task t) now then awake (k.task t) else k.task t := by
  unfold wakeSleeper
  by_cases eq : t = u
  · subst eq
    split <;> simp_all [makeRunnable, runListInsert, setState, updateTask, awake]
  · split <;> simp [makeRunnable, runListInsert, setState, updateTask, eq]

theorem scan_task : (ts.foldl (wakeSleeper now) k).task t =
    if t ∈ ts ∧ Expired (k.task t) now then awake (k.task t) else k.task t := by
  induction ts generalizing k with
  | nil => simp
  | cons u ts ih =>
    have once (task : Task) : ¬ Expired (awake task) now := nofun
    rw [foldl_cons, ih, wakeSleeper_task]
    by_cases he : Expired (k.task t) now
    · by_cases eq : t = u
      · subst eq
        simp [he, once]
      · simp [eq, he]
    · simp [he]

theorem schedTick_task (hc : k.cur = some c) : (schedTick k now).task t =
    if t ∈ tickOrder k.all c ∧ Expired (k.task t) now then awake (k.task t) else k.task t := by
  rw [← scan_task]
  simp only [schedTick, hc]
  split <;> rfl

theorem RunQueue.linked (good : RunQueue k) (hl : t ∈ k.all)
    (hr : (k.task t).state = .running) : (k.links.next (.task t)).isSome := by
  obtain ⟨nodes, runs⟩ := good.runs
  obtain ⟨_, -, link⟩ := runs.ring.seg.next_mem (.tail _ ((runs.mem_iff t).mpr ⟨hl, hr⟩))
  simp [link]

theorem schedTick_all : (schedTick k now).all = k.all := by
  unfold schedTick
  split
  · rfl
  have scan (ts : List TaskId) : (ts.foldl (wakeSleeper now) k).all = k.all := by
    induction ts using reverseRecOn with
    | nil => rfl
    | append_singleton ts u ih =>
      rw [foldl_append, ← ih, foldl_cons, foldl_nil, wakeSleeper]
      split <;> rfl
  dsimp only
  split <;> exact scan _

theorem schedTick_early (hs : Sleeps k t d) (he : now < d) : Sleeps (schedTick k now) t d := by
  have eq : (schedTick k now).task t = k.task t := by
    cases hc : k.cur with
    | none => simp [schedTick, hc]
    | some c =>
      rw [schedTick_task hc, if_neg]
      rintro ⟨-, -, -, due⟩
      rw [hs.2.2] at due
      omega
  rw [Sleeps, schedTick_all, eq]
  exact hs

/-! ### The current task runs -/

def CurrentRuns (k : Kernel) : Prop := RunQueue k ∧ ∀ c, k.cur = some c → (k.task c).state = .running

theorem CurrentRuns.of_same {k' : Kernel} (good : CurrentRuns k) (queue : RunQueue k')
    (same : SameLists k k') : CurrentRuns k' :=
  ⟨queue, fun c hc => (same.state c).trans (good.2 c (same.cur ▸ hc))⟩

theorem CurrentRuns.schedWake (good : CurrentRuns k) (queue : RunQueue (schedWake k t)) :
    CurrentRuns (schedWake k t) := by
  refine ⟨queue, fun c hc => ?_⟩
  have runs := good.2 c (schedWake_cur ▸ hc)
  unfold Sched.schedWake
  split
  · exact runs
  · simp [makeRunnable, runListInsert, runs]

theorem currentRuns_stable : Stable CurrentRuns where
  queue good := good.1
  frame good same held := good.of_same (runQueue_stable.frame good.1 same held) same
  wake good target := good.schedWake (runQueue_stable.wake good.1 target)
  register good same held := good.of_same (runQueue_stable.register good.1 same held) same
  park good hc waits listed runs :=
    ⟨runQueue_stable.park good.1 hc waits listed runs, by rintro _ ⟨⟩; exact runs⟩
  switch good listed runs := ⟨good.1.switchTo listed, by rintro _ ⟨⟩; exact runs⟩
  add {k new} good runs := by
    refine ⟨good.1.schedAdd new, fun c hc => ?_⟩
    by_cases eq : c = k.nextId
    · simpa [schedAdd, eq] using runs
    · cases hk : k.cur with
      | none => simp [schedAdd, hk, Ne.symm eq] at hc
      | some d =>
        obtain rfl : d = c := by simpa [schedAdd, hk] using hc
        simpa [schedAdd, eq] using good.2 d hk
  reap good listed other zombie := by
    refine ⟨runQueue_stable.reap good.1 listed other zombie, fun c hc => ?_⟩
    exact (stopWaiting_same.state c).trans (good.2 c hc)

theorem schedTick_due (good : CurrentRuns k) (hs : Sleeps k t d) (ht : d ≠ 0) (due : d ≤ now) :
    Woken (schedTick k now) t := by
  obtain ⟨hl, hb, hd⟩ := hs
  cases hc : k.cur with
  | none => simp [good.1.empty hc] at hl
  | some c =>
    have other : t ≠ c := by
      rintro rfl
      cases hb.symm.trans (good.2 t hc)
    have task : (schedTick k now).task t = awake (k.task t) := by
      rw [schedTick_task hc, if_pos ⟨mem_tickOrder good.1 hc hl other, hb, by rwa [hd], by rwa [hd]⟩]
    have hr : ((schedTick k now).task t).state = .running := by rw [task]; rfl
    have hf : t ∈ (schedTick k now).all := by rwa [schedTick_all]
    exact ⟨hr, by rw [task]; rfl, (runQueue_stable.schedTick good.1).linked hf hr⟩

/-- Only processes exit, and a task is runnable when it is added. -/
def Lasting (k : Kernel) (call : SchedCall) : Prop :=
  Orderly k call ∧
    match call with
    | .kernel (.exit _) | .kernel (.sysExit _ _) | .kernel (.exitGroup _ _) =>
      ∀ c ∈ k.cur, (k.task c).isUser = true
    | .add new => new.state = .running
    | _ => True

instance (k : Kernel) (call : SchedCall) : Decidable (Lasting k call) := by
  rcases call with ⟨⟨⟩⟩ | _ <;> (dsimp only [Lasting]; infer_instance)

theorem CurrentRuns.exitStep {call : KCall} (queue : RunQueue k) (hc : k.cur = some c)
    (user : (k.task c).isUser = true)
    (parked : ∀ group l, call = .exitGroup group l → SiblingsParked k c)
    (exits : ExitStep k c call k') : CurrentRuns k' := by
  have calm := (runQueue_stable.current (c := c)).user (c := c)
  have last {m : Kernel} {l : List PipeEnd}
      (good : (RunQueue m ∧ m.cur = some c) ∧ (m.task c).isUser = true)
      (exits : schedExit m c l = some k') : CurrentRuns k' := by
    rw [schedExit, if_pos good.2] at exits
    obtain ⟨m, n, queue, listed, runs, rfl⟩ := runQueue_stable.schedExitUser good.1.1 good.1.2
      (fun good _ => good.park (by simp)) exits
    exact ⟨queue.switchTo listed, by rintro _ ⟨⟩; exact runs⟩
  have leave {m : Kernel} {group : Nat} {l : List PipeEnd}
      (good : (RunQueue m ∧ m.cur = some c) ∧ (m.task c).isUser = true)
      (exits : schedExit (reparent (hangUp m c group) c) c l = some k') : CurrentRuns k' :=
    last (calm.reparent c (calm.hangUp group good good.1.2)) exits
  cases exits with
  | exit exits => exact last ⟨⟨queue, hc⟩, user⟩ exits
  | sysExit exits =>
    rw [sysExit, if_pos user] at exits
    exact leave (calm.clearTid c ⟨⟨queue, hc⟩, user⟩) exits
  | exitGroup exits =>
    rw [sysExitGroup, if_pos user] at exits
    refine leave (calm.killSiblings ⟨⟨queue, hc⟩, user⟩ (parked _ _ rfl) fun good _ idle => ?_) exits
    exact ⟨⟨good.1.1.setState_of_idle (by simp) idle, good.1.2⟩, setState_isUser.trans good.2⟩

theorem CurrentRuns.schedStep {call : SchedCall} (good : CurrentRuns k) (lasts : Lasting k call)
    (ht : schedStep k call = some k') : CurrentRuns k' := by
  cases call with
  | kernel call =>
    rcases currentRuns_stable.kstep good ht with kept | ⟨c, hc, exits⟩
    · exact kept
    have user : (k.task c).isUser = true := by cases exits <;> exact lasts.2 c hc
    refine exitStep good.1 hc user ?_ exits
    rintro group l rfl
    exact lasts.1.2 rfl c hc
  | add new =>
    cases ht
    exact currentRuns_stable.add good lasts.2
  | wake t | resume t =>
    cases ht
    exact good.schedWake (good.1.schedWake (.inl (lasts.1.1 t (.head _))))
  | stop t =>
    simp only [Sched.schedStep, schedStop] at ht
    split at ht
    · next hc => exact currentRuns_stable.parkCurrent good hc (.inr rfl) ht
    · next other =>
      cases ht
      refine ⟨good.1.park (by simp), fun c hc => ?_⟩
      have ne : c ≠ t := fun eq => other (eq ▸ hc)
      simpa [park, runListRemove, ne] using good.2 c hc

/-- No tick comes at the deadline or after it, and no other call wakes the task. -/
def Undisturbed (t : TaskId) (d : Nat) (k : Kernel) (call : SchedCall) : Prop :=
  Lasting k call ∧
    match call with
    | .kernel (.tick now) => now < d
    | call => ∀ k', schedStep k call = some k' → Sleeps k' t d

theorem kstep_tick (ht : kstep k (.tick now) = some k') : k' = schedTick k now := by
  unfold kstep at ht
  split at ht
  · cases ht
    rfl
  split at ht
  · cases ht
    rfl
  · cases ht

theorem Sleeps.schedStep {call : SchedCall} (hs : Sleeps k t d) (calm : Undisturbed t d k call)
    (ht : schedStep k call = some k') : Sleeps k' t d := by
  obtain ⟨-, calm⟩ := calm
  split at calm
  · obtain rfl := kstep_tick ht
    exact schedTick_early hs calm
  · exact calm k' ht

/-- A round of ticks runs every task of the run list once, in ring order. A sleeper stays asleep
over the ticks before its deadline, and the first one that is due wakes it for good. -/
theorem ticks_fair_and_timely {start : Kernel} {labels calls : List SchedCall}
    (run : RunWhere schedStep Lasting schedInit labels start) (sleeps : Sleeps start t d)
    (timed : d ≠ 0) (waits : RunWhere schedStep (Undisturbed t d) start calls k) :
    (∀ {q : Kernel} {nodes : List RunNode} {c : TaskId} {nows : List Nat}, RunList q nodes →
      q.cur = some c → .task c ∈ nodes → nows.length = nodes.length →
      (∀ now ∈ nows, ∀ u ∈ q.all, ¬ Expired (q.task u) now) →
      ∃ rest, (turns q nows).map RunNode.task = rest ++ [.task c] ∧
        IsRotated (rest ++ [.task c]) nodes) ∧
    Sleeps k t d ∧ ∀ now, d ≤ now → Woken (schedTick k now) t := by
  have good : CurrentRuns start := run.invariant ⟨schedInit_runQueue, nofun⟩
    fun _ _ _ => CurrentRuns.schedStep
  have still : Sleeps k t d := waits.invariant sleeps fun _ _ _ => Sleeps.schedStep
  have runs : CurrentRuns k := waits.invariant good fun _ _ _ good calm => good.schedStep calm.1
  exact ⟨ticks_round, still, fun now => schedTick_due runs still timed⟩

/-- The processes 1 and 2 sleep until 5 and 6, and the idle task 0 runs. -/
def sleepersRun : List SchedCall :=
  [.kernel .spawn, .add (processTask 1 0), .add (processTask 2 0), .kernel (.tick 0),
    .kernel (.sleep 5), .kernel (.sleep 6)]

theorem ticks_fair_and_timely_sleepers : ∃ k, RunWhere schedStep Lasting schedInit sleepersRun k ∧
    Sleeps k 1 5 ∧ Woken (schedTick k 7) 1 :=
  exists_runWhere_of (fun k => Sleeps k 1 5) fun _ run sleeps =>
    ⟨sleeps, (ticks_fair_and_timely run sleeps (by decide) .nil).2.2 7 (by decide)⟩

end Aegis.Sched
