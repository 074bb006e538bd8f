import Aegis.RunQueue

/-! Kernel calls as sequences of moves: a wake, a park, a switch, a registration, a change
that touches neither list. A predicate on kernels that the moves keep is kept by the calls:
`Calm` has the moves that leave the current task alone, `Stable` all of them except a
task's death, which each use of these lemmas treats on its own. -/

namespace Aegis.Sched

open LinkedRing Function List Option

variable {k k' : Kernel} {c t u n : TaskId}

structure Calm (P : Kernel → Prop) : Prop where
  queue : ∀ {k}, P k → RunQueue k
  frame : ∀ {k k'}, P k → SameLists k k' → (∀ t, Held k' t → Held k t) → P k'
  wake : ∀ {k t}, P k → Held k t ∨ t ∈ k.all ∧
    ((k.task t).state = .blocked ∨ (k.task t).state = .stopped) → P (schedWake k t)

structure Stable (P : Kernel → Prop) : Prop extends Calm P where
  register : ∀ {k k'}, P k → SameLists k k' →
    (∀ t, Held k' t → Held k t ∨ k.cur = some t) → P k'
  park : ∀ {k c n state}, P k → k.cur = some c → state = .blocked ∨ state = .stopped → n ∈ k.all →
    ((park k c state).task n).state = .running → P (switchTo (park k c state) n)
  switch : ∀ {k n}, P k → n ∈ k.all → (k.task n).state = .running → P (switchTo k n)
  add : ∀ {k new}, P k → new.state = .running → P (schedAdd k new)
  reap : ∀ {k c t}, P k → t ∈ k.all → k.cur ≠ some t → (k.task t).state = .zombie →
    P (reap k c t)

@[simp] theorem schedWake_futex : (schedWake k t).futex = k.futex := by
  unfold schedWake
  split <;> rfl

@[simp] theorem schedWake_pipe : (schedWake k t).pipe = k.pipe := by
  unfold schedWake
  split <;> rfl

@[simp] theorem schedWake_waitq : (schedWake k t).waitq = k.waitq := by
  unfold schedWake
  split <;> rfl

@[simp] theorem schedWake_all : (schedWake k t).all = k.all := by
  unfold schedWake
  split <;> rfl

@[simp] theorem schedWake_isUser : ((schedWake k t).task u).isUser = (k.task u).isUser := by
  unfold schedWake
  split
  · rfl
  by_cases eq : u = t
  · subst eq
    simp [makeRunnable, runListInsert, setState, updateTask]
  · simp [makeRunnable, runListInsert, setState, updateTask, eq]

@[simp] theorem schedWake_cur : (schedWake k t).cur = k.cur := by
  unfold schedWake
  split <;> rfl

theorem held_congr (hf : k'.futex = k.futex) (pipe : k'.pipe = k.pipe)
    (hw : k'.waitq = k.waitq) : Held k' t ↔ Held k t := by
  rw [Held, hf, pipe, hw, Held]

@[simp] theorem schedWake_held : Held (schedWake k t) u ↔ Held k u :=
  held_congr schedWake_futex schedWake_pipe schedWake_waitq

theorem held_reader (p : PipeId) (hw : (k.pipe p).readerWaiting = some t) : Held k t :=
  .inr (.inl ⟨p, .inl hw⟩)

theorem held_writer (p : PipeId) (hw : (k.pipe p).writerWaiting = some t) : Held k t :=
  .inr (.inl ⟨p, .inr hw⟩)

theorem updateTask_held {f : Task → Task} : Held (updateTask k t f) u ↔ Held k u := Iff.rfl

theorem Held.of_updatePipe {p : PipeId} {f : Pipe → Pipe} (held : Held (updatePipe k p f) t)
    (reader : (f (k.pipe p)).readerWaiting = some t → Held k t)
    (writer : (f (k.pipe p)).writerWaiting = some t → Held k t) : Held k t := by
  rcases held with slot | ⟨q, hw⟩ | hq
  · exact .inl slot
  · by_cases eq : q = p
    · subst eq
      simp only [updatePipe, update_self] at hw
      exact hw.elim reader writer
    · simp only [updatePipe, update_of_ne eq] at hw
      exact .inr (.inl ⟨q, hw⟩)
  · exact .inr (.inr hq)

variable {pool : List (Option FutexWaiter)}

theorem futexTake_woken {addr count : Nat} (hw : t ∈ (futexTake addr pool count).2) :
    some ⟨t, addr⟩ ∈ pool := by
  induction pool generalizing count with
  | nil => simp [futexTake] at hw
  | cons slot pool ih =>
    cases slot with
    | none => exact .tail _ (ih hw)
    | some w =>
      rw [futexTake] at hw
      split at hw
      · next ht =>
        rcases mem_cons.mp hw with rfl | hl
        · simp [← ht.1]
        · exact .tail _ (ih hl)
      · exact .tail _ (ih hw)

theorem futexTake_left {addr count : Nat} {w : FutexWaiter}
    (left : some w ∈ (futexTake addr pool count).1) : some w ∈ pool := by
  induction pool generalizing count with
  | nil => simp [futexTake] at left
  | cons slot pool ih =>
    cases slot with
    | none =>
      have hl : some w ∈ (futexTake addr pool count).1 := by simpa [futexTake] using left
      exact .tail _ (ih hl)
    | some v =>
      rw [futexTake] at left
      split at left
      · have hl : some w ∈ (futexTake addr pool (count - 1)).1 := by simpa using left
        exact .tail _ (ih hl)
      rcases mem_cons.mp left with eq | hl
      · simp [eq]
      · exact .tail _ (ih hl)

theorem wakeAll_held {ts : List TaskId} : Held (wakeAll k ts) u ↔ Held k u := by
  induction ts generalizing k with
  | nil => rfl
  | cons t ts ih => exact ih.trans schedWake_held

theorem SameLists.trans {k'' : Kernel} (h1 : SameLists k k') (h2 : SameLists k' k'') :
    SameLists k k'' where
  all := h2.all.trans h1.all
  links := h2.links.trans h1.links
  cur := h2.cur.trans h1.cur
  nextId := h2.nextId.trans h1.nextId
  reaped := h2.reaped.trans h1.reaped
  staleWakes := h2.staleWakes.trans h1.staleWakes
  state t := (h2.state t).trans (h1.state t)
  isUser t := (h2.isUser t).trans (h1.isUser t)

theorem tables_same {futex : List (Option FutexWaiter)} {pipe : PipeId → Pipe}
    {waitq : QueueId → List TaskId} :
    SameLists k { k with futex := futex, pipe := pipe, waitq := waitq } :=
  ⟨rfl, rfl, rfl, rfl, rfl, rfl, fun _ => rfl, fun _ => rfl⟩

theorem updatePipe_same {p : PipeId} {f : Pipe → Pipe} : SameLists k (updatePipe k p f) :=
  tables_same

theorem futexRegister_mem {w v : FutexWaiter} {pool' : List (Option FutexWaiter)}
    (ha : futexRegister w pool = some pool') (slot : some v ∈ pool') :
    v = w ∨ some v ∈ pool := by
  induction pool generalizing pool' with
  | nil => cases ha
  | cons h1 pool ih =>
    cases h1 with
    | none =>
      cases ha
      simpa using slot
    | some x =>
      obtain ⟨rest, hi, rfl⟩ := map_eq_some_iff.mp ha
      rcases mem_cons.mp slot with eq | hl
      · simp [eq]
      · exact (ih hi hl).imp_right (mem_cons_of_mem _)

theorem pollQueues_mem {queues : List QueueId} {w : QueueId → List TaskId} {q : QueueId}
    (hq : t ∈ queues.foldl (fun w q => update w q (c :: w q)) w q) :
    t = c ∨ t ∈ w q := by
  induction queues generalizing w with
  | nil => exact .inr hq
  | cons h1 queues ih =>
    refine (ih hq).elim .inl fun hi => ?_
    by_cases eq : q = h1
    · subst eq
      simpa using hi
    · exact .inr (by simpa [eq] using hi)

section Calm
variable {P : Kernel → Prop}

theorem foldl_keeps {f : Kernel → TaskId → Kernel} {ts : List TaskId}
    (hk : ∀ k t, P k → t ∈ k.all → P (f k t)) (eq : ∀ k t, (f k t).all = k.all)
    (good : P k) (hl : ∀ t ∈ ts, t ∈ k.all) : P (ts.foldl f k) := by
  induction ts generalizing k with
  | nil => exact good
  | cons t ts ih =>
    refine ih (hk k t good (hl t (.head _))) fun u mem => ?_
    rw [eq]
    exact hl u (.tail _ mem)

variable (calm : Calm P)
include calm

theorem Calm.current : Calm fun k => P k ∧ k.cur = some c where
  queue good := calm.queue good.1
  frame good same held := ⟨calm.frame good.1 same held, same.cur.trans good.2⟩
  wake good target := ⟨calm.wake good.1 target, schedWake_cur.trans good.2⟩

theorem Calm.user : Calm fun k => P k ∧ (k.task c).isUser = true where
  queue good := calm.queue good.1
  frame good same held := ⟨calm.frame good.1 same held, (same.isUser c).trans good.2⟩
  wake good target := ⟨calm.wake good.1 target, schedWake_isUser.trans good.2⟩

theorem Calm.unnamed (ts : List TaskId) : Calm fun k => P k ∧ ∀ t ∈ ts, t ∈ k.all ∧ ¬ Held k t where
  queue good := calm.queue good.1
  frame good same held := ⟨calm.frame good.1 same held, fun t mem =>
    ⟨same.all ▸ (good.2 t mem).1, fun hn => (good.2 t mem).2 (held t hn)⟩⟩
  wake good target := ⟨calm.wake good.1 target, fun t mem => by
    rw [schedWake_all, schedWake_held]
    exact good.2 t mem⟩

theorem Calm.wakeAll {ts : List TaskId} (good : P k) (held : ∀ t ∈ ts, Held k t) :
    P (wakeAll k ts) := by
  induction ts generalizing k with
  | nil => exact good
  | cons t ts ih =>
    refine ih (calm.wake good (.inl (held t (.head _)))) fun u mem => ?_
    exact schedWake_held.mpr (held u (.tail _ mem))

theorem Calm.makeRunnable (good : P k) (hl : t ∈ k.all)
    (hb : (k.task t).state = .blocked) : P (makeRunnable k t) := by
  have live : t ∉ k.reaped := fun hf => (calm.queue good).gone t hf hl
  have hw := calm.wake good (.inr ⟨hl, .inl hb⟩)
  rwa [schedWake, if_neg live] at hw

theorem Calm.futexWakeAddr {addr count : Nat} (good : P k) : P (futexWakeAddr k addr count) := by
  have woken : P (Sched.wakeAll k (futexTake addr k.futex count).2) :=
    calm.wakeAll good fun t taken => .inl ⟨addr, futexTake_woken taken⟩
  refine calm.frame woken tables_same fun t registered => ?_
  rcases registered with ⟨at_, slot⟩ | elsewhere
  · exact wakeAll_held.mpr (.inl ⟨at_, futexTake_left slot⟩)
  · exact .inr elsewhere

theorem Calm.clearTid (t : TaskId) (good : P k) : P (clearTid k t) := by
  unfold Sched.clearTid
  split
  · exact good
  · exact calm.futexWakeAddr good

theorem Calm.waitqWakeAll {q : QueueId} (good : P k) (hw : waitqWakeAll k q = some k') : P k' := by
  unfold Sched.waitqWakeAll at hw
  split at hw
  · cases hw
    exact calm.wakeAll good fun t mem => .inr (.inr ⟨q, mem⟩)
  · cases hw

theorem Calm.signalSendPid (pid : Nat) (good : P k) (hu : k.cur = some c) :
    P (signalSendPid k c pid) := by
  unfold Sched.signalSendPid
  split
  · exact good
  split
  · exact good
  next t hf =>
  split
  · next hb =>
    refine calm.wake good (.inr ⟨?_, .inl hb⟩)
    rcases mem_cons.mp (mem_of_find?_eq_some hf) with rfl | other
    · exact (calm.queue good).current t hu
    · exact mem_of_mem_others other
  · exact good

theorem Calm.signalSendPgrp (pgid : Nat) (good : P k) (hu : k.cur = some c) :
    P (signalSendPgrp k c pgid) := by
  unfold Sched.signalSendPgrp
  split
  · exact good
  refine foldl_keeps (fun k t good hl => ?_) (fun k t => ?_) good fun t mem => ?_
  · unfold signalMember
    split_ifs with inGroup stopped blocked
    · exact calm.wake good (.inr ⟨hl, .inr stopped⟩)
    · exact calm.wake good (.inr ⟨hl, .inl blocked⟩)
    · exact good
    · exact good
  · unfold signalMember
    split_ifs <;> simp [schedResume]
  · rcases mem_cons.mp mem with rfl | other
    · exact (calm.queue good).current t hu
    · exact mem_of_mem_others other

theorem Calm.hangUp (group : Nat) (good : P k) (hu : k.cur = some c) :
    P (hangUp k c group) := by
  unfold Sched.hangUp
  split
  · have once := calm.current.signalSendPgrp group ⟨good, hu⟩ hu
    exact calm.signalSendPgrp group once.1 once.2
  · exact good

theorem Calm.reparent (c : TaskId) (good : P k) : P (reparent k c) := by
  refine foldl_keeps (fun k t good _ => ?_) (fun k t => ?_) good fun t => mem_of_mem_others
  · unfold adopt
    split
    · exact calm.frame good (updateTask_same fun _ => ⟨rfl, rfl⟩) fun _ => id
    · exact good
  · unfold adopt
    split <;> rfl

theorem Calm.pipeWake {w : Option TaskId} {p : PipeId} {f : Pipe → Pipe} (good : P k)
    (held : ∀ t, w = some t → Held k t)
    (reader : ∀ pipe t, (f pipe).readerWaiting = some t → pipe.readerWaiting = some t)
    (writer : ∀ pipe t, (f pipe).writerWaiting = some t → pipe.writerWaiting = some t) :
    P (updatePipe (Sched.wakeAll k w.toList) p f) := by
  have hk : P (Sched.wakeAll k w.toList) :=
    calm.wakeAll good fun t mem => held t (mem_toList.mp mem)
  refine calm.frame hk updatePipe_same fun t held => held.of_updatePipe ?_ ?_
  · exact fun hw => held_reader p (reader _ t hw)
  · exact fun hw => held_writer p (writer _ t hw)

variable {e : PipeEnd}

theorem Calm.pipeClose (good : P k) (hc : pipeClose k e = some k') : P k' := by
  cases e with
  | readEnd p =>
    simp only [Sched.pipeClose] at hc
    have hw := calm.pipeWake good (fun _ => held_writer p)
      (f := fun pipe => { pipe with readRefs := (k.pipe p).readRefs - 1, writerWaiting := none })
      (p := p) (fun _ _ => id) nofun
    split_ifs at hc
    · exact calm.waitqWakeAll hw hc
    · cases hc
      exact hw
  | writeEnd p =>
    simp only [Sched.pipeClose] at hc
    have hw := calm.pipeWake good (fun _ => held_reader p)
      (f := fun pipe => { pipe with writeRefs := (k.pipe p).writeRefs - 1, readerWaiting := none })
      (p := p) nofun (fun _ _ => id)
    split_ifs at hc
    · exact calm.waitqWakeAll hw hc
    · cases hc
      exact hw

theorem Calm.pipeDup (good : P k) : P (pipeDup k e) := by
  cases e with
  | readEnd p | writeEnd p =>
    simp only [Sched.pipeDup]
    exact calm.frame good updatePipe_same fun t held =>
      held.of_updatePipe (held_reader p) (held_writer p)

theorem Calm.closeLocked (good : P k) (closes : closeLocked k e = some k') : P k' := by
  cases e with
  | readEnd p | writeEnd p =>
    simp only [Sched.closeLocked] at closes
    split at closes
    · cases closes
    cases closes
    exact calm.frame good tables_same fun t held =>
      held.of_updatePipe (held_reader p) (held_writer p)

theorem Calm.closesLocked {b : List PipeEnd} (good : P k)
    (hc : b.foldlM Sched.closeLocked k = some k') : P k' := by
  induction b generalizing k with
  | nil =>
    cases hc
    exact good
  | cons e b ih =>
    obtain ⟨mid, h1, rest⟩ := bind_eq_some_iff.mp hc
    exact ih (calm.closeLocked good h1) rest

theorem Calm.schedExitUser {b : List PipeEnd} (good : P k) (hu : k.cur = some c)
    (dies : ∀ {k}, P k → k.cur = some c → P (Sched.park k c .zombie))
    (exits : schedExitUser k c b = some k') :
    ∃ m n, P m ∧ n ∈ m.all ∧ (m.task n).state = .running ∧ k' = switchTo m n := by
  obtain ⟨hs, hc, rest⟩ := bind_eq_some_iff.mp exits
  have ha := calm.current.closesLocked ⟨good, hu⟩ hc
  have dead := dies ha.1 ha.2
  have sent := calm.current.signalSendPid ((Sched.park hs c .zombie).task c).ppid ⟨dead, ha.2⟩ ha.2
  dsimp only at rest
  split at rest
  · next parent hf =>
    cases rest
    refine ⟨_, parent, sent.1, mem_of_mem_others (mem_of_find?_eq_some hf), ?_, rfl⟩
    have hw := find?_some hf
    simp only [awaits, Bool.and_eq_true, beq_iff_eq] at hw
    exact hw.1.1.2
  · obtain ⟨n, next, rfl⟩ := map_eq_some_iff.mp rest
    obtain ⟨hl, hr⟩ := (calm.queue sent.1).runListNext next
    exact ⟨_, n, sent.1, hl, hr, rfl⟩

end Calm

section Stable
variable {P : Kernel → Prop} (hs : Stable P)
include hs

section
variable (good : P k)
include good

theorem Stable.parkCurrent {state : TaskState} (hu : k.cur = some c)
    (hw : state = .blocked ∨ state = .stopped) (parks : parkCurrent k c state = some k') :
    P k' := by
  obtain ⟨n, hc, rfl⟩ := map_eq_some_iff.mp parks
  have target : n ∈ k.all ∧ ((Sched.park k c state).task n).state = .running := by
    rcases of_pickAfter hc with link | link
    · obtain ⟨nodes, runs⟩ := (hs.queue good).runs
      have other : n ≠ c := by simpa using runs.ring.next_ne_self (by simp) link
      obtain ⟨hl, hr⟩ := runs.pick link
      exact ⟨hl, by simpa [Sched.park, runListRemove, other] using hr⟩
    · exact ((hs.queue good).park (by rintro rfl; simp at hw)).pick link
  exact hs.park good hu hw target.1 target.2

theorem Stable.schedBlock (hu : k.cur = some c) (blocks : schedBlock k c = some k') : P k' :=
  hs.parkCurrent good hu (.inl rfl) blocks

theorem Stable.registerBlock {r : Kernel} (hu : k.cur = some c)
    (blocks : Sched.schedBlock r c = some k') (eq : SameLists k r)
    (held : ∀ t, Held r t → Held k t ∨ t = c) : P k' := by
  refine hs.schedBlock (hs.register good eq fun t hr => ?_) (eq.cur.trans hu) blocks
  rw [hu, Option.some.injEq, eq_comm]
  exact held t hr

theorem Stable.schedTick {now : Nat} : P (schedTick k now) := by
  unfold Sched.schedTick
  split
  · exact good
  next c hu =>
  have hl : ∀ t ∈ tickOrder k.all c, t ∈ k.all := fun t =>
    mem_of_mem_tickOrder ((hs.queue good).current c hu)
  have hw : P ((tickOrder k.all c).foldl (wakeSleeper now) k) := by
    refine foldl_keeps (fun k t good hl => ?_) (fun k t => ?_) good hl
    · unfold wakeSleeper
      split
      · next he =>
        refine hs.makeRunnable (hs.frame good (updateTask_same fun _ => ⟨rfl, rfl⟩) fun _ => id) hl ?_
        simpa [updateTask] using he.1
      · exact good
    · unfold wakeSleeper
      split <;> rfl
  dsimp only
  split
  · exact hw
  next n next =>
  obtain ⟨hi, hr⟩ := (hs.queue hw).runListNext next
  exact hs.switch hw hi hr

section
variable (hu : k.cur = some c)
include hu

theorem Stable.futexWait {addr : Nat} (waits : futexWait k c addr = some k') : P k' := by
  unfold Sched.futexWait at waits
  split at waits
  · cases waits
    exact good
  next pool added =>
  refine hs.registerBlock good hu waits tables_same fun t registered => ?_
  rcases registered with ⟨at_, slot⟩ | elsewhere
  · rcases futexRegister_mem added slot with same | old
    · exact .inr (congrArg FutexWaiter.task same)
    · exact .inl (.inl ⟨at_, old⟩)
  · exact .inl (.inr elsewhere)

theorem Stable.pollWait {queues : List QueueId} (waits : pollWait k c queues = some k') : P k' := by
  unfold Sched.pollWait at waits
  refine hs.registerBlock good hu waits ?_ fun t registered => ?_
  · refine SameLists.trans ?_ (updateTask_same fun _ => ⟨rfl, rfl⟩)
    exact tables_same
  rcases registered with slot | waiting | ⟨q, queued⟩
  · exact .inl (.inl slot)
  · exact .inl (.inr (.inl waiting))
  · exact (pollQueues_mem queued).symm.imp_left fun old => .inr (.inr ⟨q, old⟩)

theorem Stable.sysWaitpid {args : WaitArgs} (hw : sysWaitpid k c args = some k') : P k' := by
  have queue := hs.queue good
  unfold Sched.sysWaitpid at hw
  split at hw
  · next t hf =>
    have mem := mem_of_find?_eq_some hf
    have other := ne_of_mem_others queue.nodup (queue.current c hu) mem
    split_ifs at hw with bad zombie
    · cases hw
      exact good
    · cases hw
      refine hs.reap good (mem_of_mem_others mem) ?_ zombie
      simpa [hu] using other.symm
    · cases hw
      exact hs.frame good stopWaiting_same fun _ => id
  · split_ifs at hw
    · cases hw
      exact good
    · exact hs.registerBlock good hu hw (updateTask_same fun _ => ⟨rfl, rfl⟩) fun _ => .inl

theorem Stable.pipeRead {p : PipeId} {len : Nat} (hr : pipeRead k c p len = some k') : P k' := by
  simp only [Sched.pipeRead] at hr
  split_ifs at hr
  · cases hr
    exact good
  · refine hs.registerBlock good hu hr
      (updatePipe_same.trans (updateTask_same fun _ => ⟨rfl, rfl⟩)) fun t registered => ?_
    by_cases eq : t = c
    · exact .inr eq
    · refine .inl ((updateTask_held.mp registered).of_updatePipe (fun hw => ?_) (held_writer p))
      exact absurd (some.inj hw).symm eq
  · refine hs.waitqWakeAll ?_ hr
    exact hs.pipeWake good (fun _ => held_writer p) (fun _ _ => id) nofun

theorem Stable.pipeWrite {p : PipeId} {len : Nat} (hw : pipeWrite k c p len = some k') : P k' := by
  simp only [Sched.pipeWrite] at hw
  split_ifs at hw
  · cases hw
    exact hs.signalSendPid _ good hu
  · refine hs.registerBlock good hu hw
      (updatePipe_same.trans (updateTask_same fun _ => ⟨rfl, rfl⟩)) fun t registered => ?_
    by_cases eq : t = c
    · exact .inr eq
    · refine .inl ((updateTask_held.mp registered).of_updatePipe (held_reader p) fun ht => ?_)
      exact absurd (some.inj ht).symm eq
  · refine hs.waitqWakeAll ?_ hw
    exact hs.pipeWake good (fun _ => held_reader p) nofun fun _ _ => id

end

theorem Stable.pollLeave : P (pollLeave k c) := by
  refine hs.frame good tables_same fun t registered => ?_
  rcases registered with slot | waiting | ⟨q, queued⟩
  · exact .inl slot
  · exact .inr (.inl waiting)
  · exact .inr (.inr ⟨q, mem_of_mem_filter queued⟩)

theorem Stable.resumeCall {rest : Pending} (hu : k.cur = some c)
    (hg : resumeCall k c rest = some k') : P k' := by
  cases rest with
  | read p len => exact hs.pipeRead good hu hg
  | write p len => exact hs.pipeWrite good hu hg
  | poll =>
    cases hg
    exact hs.pollLeave good
  | waitpid args => exact hs.sysWaitpid good hu hg

end

end Stable

inductive ExitStep (k : Kernel) (c : TaskId) : KCall → Kernel → Prop
  | exit {closes : List PipeEnd} {k' : Kernel} :
      schedExit k c closes = some k' → ExitStep k c (.exit closes) k'
  | sysExit {group : Nat} {closes : List PipeEnd} {k' : Kernel} :
      sysExit k c group closes = some k' → ExitStep k c (.sysExit group closes) k'
  | exitGroup {group : Nat} {closes : List PipeEnd} {k' : Kernel} :
      sysExitGroup k c group closes = some k' → ExitStep k c (.exitGroup group closes) k'

section Step
variable {P : Kernel → Prop} {call : KCall} (hs : Stable P)
include hs

theorem Stable.userCall (good : P k) (hu : k.cur = some c)
    (ht : userCall k c call = some k') : P k' ∨ ExitStep k c call k' := by
  cases call with
  | sysExit group hc => exact .inr (.sysExit ht)
  | exitGroup group hc => exact .inr (.exitGroup ht)
  | waitpid args => exact .inl (hs.sysWaitpid good hu ht)
  | futexWait addr => exact .inl (hs.futexWait good hu ht)
  | futexWake addr count =>
    cases ht
    exact .inl (hs.futexWakeAddr good)
  | read p len => exact .inl (hs.pipeRead good hu ht)
  | write p len => exact .inl (hs.pipeWrite good hu ht)
  | close e => exact .inl (hs.pipeClose good ht)
  | dup e =>
    cases ht
    exact .inl (hs.pipeDup good)
  | poll queues => exact .inl (hs.pollWait good hu ht)
  | sleep hd =>
    exact .inl (hs.registerBlock good hu ht (updateTask_same fun _ => ⟨rfl, rfl⟩)
      fun _ => .inl)
  | stopSelf =>
    simp only [Sched.userCall, schedStop, hu, if_pos] at ht
    exact .inl (hs.parkCurrent good hu (.inr rfl) ht)
  | signalPid pid =>
    cases ht
    exact .inl (hs.signalSendPid pid good hu)
  | signalPgrp pgid =>
    cases ht
    exact .inl (hs.signalSendPgrp pgid good hu)
  | spawn | fork _ | tick _ | resume | block | exit _ | wakeQueue _ => cases ht

theorem Stable.currentCall (good : P k) (hu : k.cur = some c)
    (ht : currentCall k c call = some k') : P k' ∨ ExitStep k c call k' := by
  unfold Sched.currentCall at ht
  split at ht
  · cases ht
    exact .inl (hs.add good rfl)
  · cases ht
    exact .inl (hs.add good rfl)
  · cases ht
    exact .inl (hs.schedTick good)
  · exact .inl (hs.waitqWakeAll good ht)
  · exact .inl (hs.schedBlock good hu ht)
  · exact .inr (.exit ht)
  · cases ht
  split at ht
  · exact hs.userCall good hu ht
  · cases ht

theorem Stable.kstep (good : P k) (ht : kstep k call = some k') :
    P k' ∨ ∃ c, k.cur = some c ∧ ExitStep k c call k' := by
  unfold Sched.kstep at ht
  split at ht
  · split at ht
    · cases ht
      exact .inl (hs.add good rfl)
    · cases ht
      exact .inl (hs.add good rfl)
    · cases ht
      exact .inl (hs.schedTick good)
    · cases ht
  · next c hu =>
    split at ht
    · exact (hs.currentCall good hu ht).imp_right fun exits => ⟨c, hu, exits⟩
    split at ht
    · refine .inl (hs.resumeCall ?_ ?_ ht)
      · exact hs.frame good (updateTask_same fun _ => ⟨rfl, rfl⟩) fun _ => id
      · exact hu
    · cases ht

end Step

end Aegis.Sched
