import Aegis.Sched

/-! The run-queue invariant: the link fields of the run list hold exactly the runnable
tasks of the full list. Each scheduler function keeps it; writing a task's state without
touching the links (`setState_of_idle`) keeps it only for a task that is not linked. -/

namespace Aegis.Sched

open LinkedRing List RunNode

variable {k k' : Kernel} {c t u n : TaskId} {all before after : List TaskId}

theorem others_split (out : c ∉ before) : others (before ++ c :: after) c = after ++ before := by
  have index : (before ++ c :: after).idxOf c + 1 = (before ++ [c]).length := by
    rw [idxOf_append_of_notMem out]
    simp
  rw [others, index, append_cons, rotate_append_length_eq, ← append_assoc, dropLast_concat]

theorem mem_of_mem_others (hm : t ∈ others all c) : t ∈ all :=
  mem_rotate.mp (mem_of_mem_dropLast hm)

theorem mem_of_mem_tickOrder (hl : c ∈ all) (hm : t ∈ tickOrder all c) : t ∈ all := by
  unfold tickOrder at hm
  split at hm
  · exact mem_singleton.mp hm ▸ hl
  · next rest => exact mem_of_mem_others (rest ▸ hm)

theorem ne_of_mem_others (nodup : all.Nodup) (hl : c ∈ all) (hm : t ∈ others all c) : t ≠ c := by
  obtain ⟨before, after, rfl, out⟩ := eq_append_cons_of_mem hl
  rw [others_split out] at hm
  rintro rfl
  have hf := (nodup_middle.mp nodup).notMem
  rcases mem_append.mp hm with right | left
  · exact hf (mem_append_right _ right)
  · exact out left

@[simp] theorem setState_state (state : TaskState) :
    ((setState k t state).task u).state = if u = t then state else (k.task u).state := by
  by_cases eq : u = t
  · subst eq
    simp [setState, updateTask]
  · simp [setState, updateTask, eq]

theorem of_pickAfter {after : Option RunNode} {links : Links RunNode}
    (hp : pickAfter after links = some n) :
    after = some (.task n) ∨ links.next .sentinel = some (.task n) := by
  unfold pickAfter at hp
  split at hp
  · cases hp
    exact .inl rfl
  split at hp
  · next link =>
    cases hp
    exact .inr link
  · cases hp

structure RunList (k : Kernel) (nodes : List RunNode) : Prop where
  ring : Ring k.links .sentinel nodes
  mem_iff : ∀ t, RunNode.task t ∈ nodes ↔ t ∈ k.all ∧ (k.task t).state = .running

structure RunQueue (k : Kernel) : Prop where
  runs : ∃ nodes, RunList k nodes
  nodup : k.all.Nodup
  current : ∀ c, k.cur = some c → c ∈ k.all
  empty : k.cur = none → k.all = []
  fresh : ∀ t, t ∈ k.all ∨ t ∈ k.reaped → t < k.nextId
  gone : ∀ t ∈ k.reaped, t ∉ k.all
  held : ∀ t, Held k t → t ∈ k.all ∨ t ∈ k.reaped

theorem RunList.pick {nodes : List RunNode} (runs : RunList k nodes) {x : RunNode}
    (link : k.links.next x = some (.task n)) : n ∈ k.all ∧ (k.task n).state = .running := by
  have hm := runs.ring.mem_of_next link
  refine (runs.mem_iff n).mp ?_
  simpa using hm

theorem RunQueue.pick (good : RunQueue k) {x : RunNode}
    (link : k.links.next x = some (.task n)) : n ∈ k.all ∧ (k.task n).state = .running := by
  obtain ⟨nodes, runs⟩ := good.runs
  exact runs.pick link

theorem RunQueue.runListNext (good : RunQueue k) (next : Sched.runListNext k c = some n) :
    n ∈ k.all ∧ (k.task n).state = .running := by
  rcases of_pickAfter next with link | link
  · exact good.pick link
  · exact good.pick link

structure SameLists (k k' : Kernel) : Prop where
  all : k'.all = k.all
  links : k'.links = k.links
  cur : k'.cur = k.cur
  nextId : k'.nextId = k.nextId
  reaped : k'.reaped = k.reaped
  staleWakes : k'.staleWakes = k.staleWakes
  state : ∀ t, (k'.task t).state = (k.task t).state
  isUser : ∀ t, (k'.task t).isUser = (k.task t).isUser

theorem updateTask_same {f : Task → Task}
    (same : ∀ task, (f task).state = task.state ∧ (f task).isUser = task.isUser) :
    SameLists k (updateTask k t f) := by
  have kept (u : TaskId) : ((updateTask k t f).task u).state = (k.task u).state ∧
      ((updateTask k t f).task u).isUser = (k.task u).isUser := by
    by_cases eq : u = t
    · subst eq
      simp [updateTask, same]
    · simp [updateTask, eq]
  exact ⟨rfl, rfl, rfl, rfl, rfl, rfl, fun u => (kept u).1, fun u => (kept u).2⟩

section
variable (good : RunQueue k)
include good

theorem RunQueue.of_same (eq : SameLists k k') (held : ∀ t, Held k' t → Held k t ∨ t ∈ k.all) :
    RunQueue k' := by
  obtain ⟨nodes, runs⟩ := good.runs
  refine ⟨⟨nodes, ?_, ?_⟩, ?_, ?_, ?_, ?_, ?_, ?_⟩
  · rw [eq.links]
    exact runs.ring
  · intro t
    rw [eq.all, eq.state, runs.mem_iff]
  · rw [eq.all]
    exact good.nodup
  · rw [eq.cur, eq.all]
    exact good.current
  · rw [eq.cur, eq.all]
    exact good.empty
  · rw [eq.all, eq.reaped, eq.nextId]
    exact good.fresh
  · rw [eq.all, eq.reaped]
    exact good.gone
  rw [eq.all, eq.reaped]
  intro t hr
  exact (held t hr).elim (good.held t) .inl

theorem RunQueue.makeRunnable (hl : t ∈ k.all) : RunQueue (makeRunnable k t) := by
  obtain ⟨nodes, runs⟩ := good.runs
  obtain ⟨more, ring, mem⟩ := runs.ring.exists_insertTail (show task t ≠ .sentinel by simp)
  refine ⟨⟨more, ring, fun u => ?_⟩, good.nodup, good.current, good.empty, good.fresh,
    good.gone, good.held⟩
  rw [mem, runs.mem_iff]
  by_cases eq : u = t
  · subst eq
    simp [Sched.makeRunnable, runListInsert, hl, setState, updateTask]
  · simp [Sched.makeRunnable, runListInsert, eq, setState, updateTask]

theorem RunQueue.schedWake (hk : t ∈ k.all ∨ t ∈ k.reaped) : RunQueue (schedWake k t) := by
  unfold Sched.schedWake
  split
  · exact ⟨good.runs.imp fun _ runs => ⟨runs.ring, runs.mem_iff⟩, good.nodup, good.current,
      good.empty, good.fresh, good.gone, good.held⟩
  · next live => exact good.makeRunnable (hk.resolve_right live)

theorem RunQueue.park {state : TaskState} (idle : state ≠ .running) :
    RunQueue (park k t state) := by
  obtain ⟨nodes, runs⟩ := good.runs
  obtain ⟨hf, ring, mem⟩ := runs.ring.exists_remove (show task t ≠ .sentinel by simp)
  refine ⟨⟨hf, ring, fun u => ?_⟩, good.nodup, good.current, good.empty, good.fresh,
    good.gone, good.held⟩
  rw [mem, runs.mem_iff]
  by_cases eq : u = t
  · subst eq
    simp [Sched.park, runListRemove, idle]
  · simp [Sched.park, runListRemove, eq, setState, updateTask]

/-- A state written directly leaves the links alone, so the task must not be linked. -/
theorem RunQueue.setState_of_idle {state : TaskState} (idle : state ≠ .running)
    (before : (k.task t).state ≠ .running) :
    RunQueue (setState k t state) := by
  obtain ⟨nodes, runs⟩ := good.runs
  refine ⟨⟨nodes, runs.ring, fun u => ?_⟩, good.nodup, good.current, good.empty, good.fresh,
    good.gone, good.held⟩
  rw [runs.mem_iff]
  by_cases eq : u = t
  · subst eq
    simp [idle, before]
  · simp [eq, setState, updateTask]

theorem RunQueue.switchTo (hl : n ∈ k.all) : RunQueue (switchTo k n) := by
  refine ⟨good.runs.imp fun _ runs => ⟨runs.ring, runs.mem_iff⟩, good.nodup, ?_, nofun,
    good.fresh, good.gone, good.held⟩
  rintro c ⟨⟩
  exact hl

theorem schedAdd_all (new : Task) : (schedAdd k new).all.Perm (k.nextId :: k.all) := by
  cases hc : k.cur with
  | none => simp [schedAdd, hc, good.empty hc]
  | some c =>
    have index : k.all.idxOf c + 1 ≤ k.all.length := idxOf_lt_length_of_mem (good.current c hc)
    simpa [schedAdd, hc] using perm_insertIdx k.nextId k.all index

theorem RunQueue.nextId_new : k.nextId ∉ k.all ∧ k.nextId ∉ k.reaped :=
  ⟨fun hl => (good.fresh _ (.inl hl)).false, fun freed => (good.fresh _ (.inr freed)).false⟩

theorem RunQueue.schedAdd (new : Task) : RunQueue (schedAdd k new) := by
  have perm := schedAdd_all good new
  obtain ⟨unlisted, live⟩ := good.nextId_new
  have mem : ∀ u, u ∈ (Sched.schedAdd k new).all ↔ u = k.nextId ∨ u ∈ k.all := fun u => by
    rw [perm.mem_iff, mem_cons]
  refine ⟨?_, perm.nodup_iff.mpr (nodup_cons.mpr ⟨unlisted, good.nodup⟩), ?_, nofun, ?_, ?_, ?_⟩
  · obtain ⟨nodes, runs⟩ := good.runs
    have state : ∀ u, ((Sched.schedAdd k new).task u).state =
        if u = k.nextId then new.state else (k.task u).state := fun u => by
      by_cases same : u = k.nextId
      · subst same
        simp [Sched.schedAdd]
      · simp [Sched.schedAdd, same]
    by_cases running : new.state = .running
    · obtain ⟨more, ring, inserted⟩ :=
        runs.ring.exists_insertTail (show task k.nextId ≠ .sentinel by simp)
      refine ⟨more, ?_, fun u => ?_⟩
      · simpa [Sched.schedAdd, running] using ring
      rw [inserted, runs.mem_iff, mem, state]
      by_cases same : u = k.nextId
      · simp [same, running]
      · simp [same]
    · refine ⟨nodes, ?_, fun u => ?_⟩
      · simpa [Sched.schedAdd, running] using runs.ring
      rw [runs.mem_iff, mem, state]
      by_cases same : u = k.nextId
      · simp [same, running, unlisted]
      · simp [same]
  · rintro c isCurrent
    rw [mem]
    cases current : k.cur with
    | none => exact .inl (by simpa [Sched.schedAdd, current, eq_comm] using isCurrent)
    | some d =>
      obtain rfl : d = c := by simpa [Sched.schedAdd, current] using isCurrent
      exact .inr (good.current d current)
  · intro u known
    rw [mem] at known
    show u < k.nextId + 1
    rcases known with (rfl | listed) | freed
    · exact Nat.lt_succ_self _
    · exact Nat.lt_succ_of_lt (good.fresh u (.inl listed))
    · exact Nat.lt_succ_of_lt (good.fresh u (.inr freed))
  · intro u freed listed
    rcases (mem u).mp listed with rfl | old
    · exact live freed
    · exact good.gone u freed old
  · intro u registered
    rw [mem]
    exact (good.held u registered).imp .inr id

theorem RunQueue.erase {f : List RunNode} {links : Links RunNode} (hl : t ∈ k.all)
    (hn : k.cur ≠ some t) (ring : Ring links .sentinel f)
    (mem : ∀ u, task u ∈ f ↔ u ∈ k.all ∧ (k.task u).state = .running ∧ u ≠ t) :
    RunQueue { k with links := links, all := k.all.erase t, reaped := t :: k.reaped } := by
  have left : ∀ u, u ∈ k.all.erase t ↔ u ≠ t ∧ u ∈ k.all := fun u => good.nodup.mem_erase_iff
  refine ⟨⟨f, ring, fun u => ?_⟩, good.nodup.erase t, ?_, ?_, ?_, ?_, ?_⟩
  · rw [mem, left]
    tauto
  · intro c hi
    refine (left c).mpr ⟨?_, good.current c hi⟩
    rintro rfl
    exact hn hi
  · intro noCurrent
    simp [good.empty noCurrent] at hl
  · intro u hk
    rcases hk with hs | hf
    · exact good.fresh u (.inl ((left u).mp hs).2)
    rcases mem_cons.mp hf with rfl | old
    · exact good.fresh u (.inl hl)
    · exact good.fresh u (.inr old)
  · intro u hf hs
    rcases mem_cons.mp hf with rfl | old
    · exact ((left u).mp hs).1 rfl
    · exact good.gone u old ((left u).mp hs).2
  · intro u hr
    by_cases eq : u = t
    · exact .inr (by simp [eq])
    · exact (good.held u hr).imp (fun old => (left u).mpr ⟨eq, old⟩) (mem_cons_of_mem t)

end

theorem stopWaiting_same : SameLists k (stopWaiting k c) :=
  updateTask_same fun _ => ⟨rfl, rfl⟩

theorem RunQueue.reap (good : RunQueue k) (hl : t ∈ k.all) (hn : k.cur ≠ some t)
    (idle : (k.task t).state ≠ .running) : RunQueue (reap k c t) := by
  obtain ⟨nodes, runs⟩ := good.runs
  refine RunQueue.of_same (good.erase hl hn runs.ring fun u => ?_) stopWaiting_same fun _ => .inl
  rw [runs.mem_iff]
  constructor
  · rintro ⟨hi, hr⟩
    exact ⟨hi, hr, fun eq => idle (eq ▸ hr)⟩
  · rintro ⟨hi, hr, -⟩
    exact ⟨hi, hr⟩

theorem RunQueue.unlink_runs (good : RunQueue k) (c : TaskId) :
    ∃ fewer, RunList (unlink k c) fewer := by
  obtain ⟨nodes, runs⟩ := good.runs
  obtain ⟨fewer, ring, removed⟩ := runs.ring.exists_remove (show task c ≠ .sentinel by simp)
  refine ⟨fewer, ring, fun u => ?_⟩
  have left : u ∈ (unlink k c).all ↔ u ≠ c ∧ u ∈ k.all := good.nodup.mem_erase_iff
  rw [removed, runs.mem_iff, left, ne_eq, task.injEq, and_comm, and_assoc]
  rfl

theorem RunQueue.schedExitKernel (good : RunQueue k) (current : k.cur = some c)
    (exits : schedExitKernel k c = some k') : RunQueue k' := by
  obtain ⟨fewer, left⟩ := good.unlink_runs c
  have stays : ∀ m, m ∈ (unlink k c).all ↔ m ≠ c ∧ m ∈ k.all := fun m =>
    good.nodup.mem_erase_iff
  obtain ⟨m, next, rfl⟩ := Option.map_eq_some_iff.mp exits
  have target : m ≠ c ∧ m ∈ k.all := by
    rcases Option.or_eq_some_iff.mp next with picked | ⟨-, first⟩
    · rcases of_pickAfter picked with link | link
      · obtain ⟨nodes, runs⟩ := good.runs
        exact ⟨by simpa using runs.ring.next_ne_self (by simp) link, (good.pick link).1⟩
      · exact (stays m).mp (left.pick link).1
    · have member := mem_of_head? first
      exact ⟨ne_of_mem_others good.nodup (good.current c current) member, mem_of_mem_others member⟩
  refine (good.switchTo target.2).erase (good.current c current) ?_ left.ring fun u => ?_
  · simpa [Sched.switchTo] using target.1
  rw [left.mem_iff, stays]
  show _ ↔ u ∈ k.all ∧ (k.task u).state = .running ∧ u ≠ c
  tauto

end Aegis.Sched
