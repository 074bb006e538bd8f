import Aegis.WakeFrame

/-! When a blocked task is sure to be woken. The wake-up of a task that has looked but not yet
called `sched_block` is lost, because `sched_block` does not look again; one task pointer for
each pipe end and socket holds one waiter. In runs that stay clear of both, and of full wait
queues, every blocked task is registered, and a waker is on its way when its condition holds. -/

namespace Aegis.BlockWake

open LabelledRun List Option State Waker
open Sched (TaskId)
open WaitQueue (snapSize)

def State.slotFree (s : State) (t : TaskId) (w : Waitable) : Bool :=
  (s.slot w).all fun u => u = t || !s.blocked u

/-- The registration is in place, and no waker is about to clear it. -/
def State.Registered (s : State) (t : TaskId) (w : Waitable) : Prop :=
  s.slot w = some t ∧ .clear w ∉ s.wakers
  deriving Decidable

/-- The step of a task stays clear of the races. It does not write over the registration of
another blocked task, and its store of a head does not fill an empty queue. It blocks while its own
registration is in place. Wait queues stay short. -/
def StepTimely (s : State) (t : TaskId) : Pc → Prop
  | .lockedLoop c => s.ready c.on = false → s.slotFree t c.on = true
  | .lockedBlock c => s.Registered t c.on
  | .acceptLoop q => s.slotFree t (.source q) = true
  | .acceptBlock q => s.Registered t (.source q)
  | .takeUnset q => s.slotFree t (.source q) = true
  | .takeStore q head => (head + 1) % 8 = (s.source q).tail ∨ s.ready (.source q) = true
  | .recvLoop q _ _ => s.slotFree t (.source q) = true
  | .recvFound q _ _ _ => s.slotFree t (.source q) = true
  | .recvUnset q _ _ _ => s.slotFree t (.source q) = true
  | .recvReset q _ _ => s.slotFree t (.source q) = true
  | .recvBlock q timed _ => timed = false → s.Registered t (.source q)
  | .pollAdd _ _ (w :: _) => (s.waiters w).length + 1 < snapSize
  | _ => True

instance (s : State) (t : TaskId) (pc : Pc) : Decidable (StepTimely s t pc) := by
  unfold StepTimely
  split <;> infer_instance

/-- Returning at once from `sys_accept` clears the slot. -/
def giveUpTimely (s : State) (t : TaskId) : Pc → Bool
  | .acceptBlock q => s.slotFree t (.source q)
  | _ => true

def clearTimely (s : State) : Waker → Bool
  | .clear w => (s.slot w).all fun u => !s.blocked u
  | _ => true

def Label.actor : Label → Option TaskId
  | .call t _ | .step t | .giveUp t => some t
  | _ => none

/-- Besides, of `n` tasks that make calls: a waker takes no step while one of them is, without
a timeout, between its look at the same pipe end or socket and `sched_block` of `sys_poll` or the
second registration of `sys_recvfrom`; and a late write of NULL by `sock_wake` does not hit the
registration of a blocked task. -/
def Timely (n : Nat) (s : State) (label : Label) : Prop :=
  (∀ t ∈ label.actor, t < n) ∧
  match label with
  | .step t => StepTimely s t (s.pc t)
  | .giveUp t => giveUpTimely s t (s.pc t) = true
  | .advance k =>
    (∀ t < n, k.on ∉ (s.pc t).polls ∧ k.on ∉ (s.pc t).receives) ∧ clearTimely s k = true
  | _ => True

instance (n : Nat) (s : State) (label : Label) : Decidable (Timely n s label) := by
  rcases label <;> (dsimp only [Timely]; infer_instance)

variable {s s' : State} {t u : TaskId} {w : Waitable}

theorem slotFree_apply (free : s.slotFree t w = true) (held : s.slot w = some u) (other : u ≠ t) :
    s.blocked u = false := by
  simpa [slotFree, held, other] using free

/-! ### The steps, seen by another task -/

variable {q : SourceId} {c : LockedCall} {p : PipeId} {label : Label} {n : Nat}

theorem push_frame {tail : Nat}
    (away : .source q ∉ (s.pc u).polls ∧ .source q ∉ (s.pc u).receives) (hl : .push q tail ∈ s.wakers)
    (step : advance s (.push q tail) = some s') : Frame s s' u := by
  rw [advance, if_pos hl] at step
  cases step
  have hc : Frame s (s.setWakers ([.slot (.source q)] ++ s.wakers.erase (.push q tail))) u :=
    frame_advance away nofun nofun fun _ _ _ => id
  split
  · exact hc
  refine hc.trans (frame_change (setSource_change (.inl rfl)) fun v here => ?_)
  obtain rfl : .source q = v := some.inj here
  exact ⟨.inr mem_cons_self, .inl mem_cons_self⟩

section
variable (away : w ∉ (s.pc u).polls ∧ w ∉ (s.pc u).receives)
include away

theorem slot_frame (hl : .slot w ∈ s.wakers) (step : advance s (.slot w) = some s') :
    Frame s s' u := by
  rw [advance, if_pos hl] at step
  cases held : s.slot w with
  | some t =>
    simp only [held, Option.some.injEq] at step
    subst step
    have hw : Frame s (s.schedWake t) u := frame_schedWake
    refine hw.trans (@frame_advance (s.schedWake t) u (.slot w) (.clear w) away ?_ (by simp)
      fun _ _ _ => id)
    rintro v eq
    obtain rfl : w = v := slot.inj eq
    by_cases own : u = t
    · exact .inr ⟨by simp [schedWake_blocked, own], rfl⟩
    · exact .inl (by simpa [schedWake, held] using Ne.symm own)
  | none =>
    simp only [held, Option.some.injEq] at step
    subst step
    refine @frame_advance s u (.slot w) (.queue w) away ?_ (by simp) fun _ _ _ => id
    rintro v eq
    obtain rfl : w = v := slot.inj eq
    exact .inl (by simp [held])

theorem clear_frame (hl : .clear w ∈ s.wakers)
    (ht : (s.slot w).all (fun u => !s.blocked u) = true) (step : advance s (.clear w) = some s') :
    Frame s s' u := by
  rw [advance, if_pos hl] at step
  cases step
  have ha (held : s.slot w = some u) : s.blocked u = false := by
    simpa [held] using ht
  have hc : Frame s (s.setSlot w none) u := frame_setSlot ha (by simp)
  refine hc.trans (@frame_advance (s.setSlot w none) u (.clear w) (.queue w) away nofun ?_
    fun _ _ _ => id)
  rintro v eq
  obtain rfl : w = v := clear.inj eq
  simp [setSlot_slot]

theorem queue_frame (few : (s.waiters w).length < snapSize) (hl : .queue w ∈ s.wakers)
    (step : advance s (.queue w) = some s') : Frame s s' u := by
  rw [advance, if_pos hl] at step
  cases step
  refine @frame_advance s u (.queue w) _ away nofun nofun fun v _ mem hr => ?_
  obtain rfl : w = v := by simpa [Waker.reaches] using hr
  rw [Waker.reaches, take_of_length_le few.le]
  simpa using mem

theorem waking_frame {tasks : List TaskId} {full : Bool} (hl : .waking w tasks full ∈ s.wakers)
    (step : advance s (.waking w tasks full) = some s') : Frame s s' u := by
  rw [advance, if_pos hl] at step
  cases tasks with
  | cons t tasks =>
    cases step
    have hw : Frame s (s.schedWake t) u := frame_schedWake
    refine hw.trans (@frame_advance (s.schedWake t) u _ (.waking w tasks full) away (by simp)
      (by simp) fun v ha _ hr => ?_)
    rw [schedWake_blocked, Bool.and_eq_true, decide_eq_true_eq] at ha
    simpa [Waker.reaches, ha.1] using hr
  | nil =>
    cases step
    -- everybody it had copied is woken, so nobody depends on what it does next
    have done (next : List Waker) :
        Frame s (s.setWakers (next ++ s.wakers.erase (.waking w [] full))) u :=
      frame_replace away (by simp) (by simp) fun v _ _ hr => by simp [Waker.reaches] at hr
    split
    · exact done [.queue w]
    · exact done []

end

theorem advance_frame {k : Waker} (hs : ∀ w, (s.waiters w).length < snapSize)
    (away : k.on ∉ (s.pc u).polls ∧ k.on ∉ (s.pc u).receives) (ht : Timely n s (.advance k))
    (step : advance s k = some s') : Frame s s' u := by
  have hl : k ∈ s.wakers := by
    by_contra absent
    rw [advance, if_neg absent] at step
    cases step
  cases k with
  | push q tail => exact push_frame away hl step
  | slot w => exact slot_frame away hl step
  | clear w => exact clear_frame away hl ht.2.2 step
  | queue w => exact queue_frame away (hs w) hl step
  | waking w tasks full => exact waking_frame away hl step

theorem lockedStep_cases (step : lockedStep s t c = some s') : s' = s.goto t .idle ∨
      s.ready c.on = false ∧ s' = (s.setSlot c.on (some t)).goto t (.lockedBlock c) ∨
      (∃ mid v, s.slotted v = false ∧ DataChange s mid (some v) ∧
        s' = (mid.wakeLocked v).goto t .idle) ∨
      ∃ mid, DataChange s mid none ∧ s' = mid.goto t .idle := by
  unfold lockedStep at step
  split at step
  · cases step
  cases c with
  | read p len =>
    dsimp only at step
    split_ifs at step with eof empty
    · exact .inl (some.inj step).symm
    · have open_ : (s.pipe p).writeRefs ≠ 0 := fun hc => eof ⟨empty, hc⟩
      refine .inr (.inl ⟨?_, (some.inj step).symm⟩)
      simp [ready, events, Pipe.readEvents, LockedCall.on, empty, open_]
    · refine .inr (.inr (.inl ⟨_, .writeEnd p, rfl, setPipe_change (fun _ => ?_) (absurd rfl),
        (some.inj step).symm⟩))
      exact ⟨fun _ => by simp [Pipe.readEvents, empty], id, id⟩
  | write p len =>
    dsimp only at step
    split_ifs at step with broken full
    · exact .inl (some.inj step).symm
    · refine .inr (.inl ⟨?_, (some.inj step).symm⟩)
      simp [ready, events, Pipe.writeEvents, LockedCall.on, full, broken]
    refine .inr (.inr (.inl ⟨_, .readEnd p, rfl, setPipe_change (absurd rfl) (fun _ => ?_),
      (some.inj step).symm⟩))
    refine ⟨id, fun room => ?_, id⟩
    simp only [Pipe.writeEvents, decide_eq_true_eq] at room ⊢
    omega
  | accept q =>
    dsimp only at step
    split_ifs at step with kind empty
    · exact .inl (some.inj step).symm
    · refine .inr (.inl ⟨?_, (some.inj step).symm⟩)
      simp [ready, events, Source.events, LockedCall.on, not_not.mp kind, empty]
    refine .inr (.inr (.inr ⟨_, setHead_change (Source.take_within (.inr ?_)),
      (some.inj step).symm⟩))
    simp [Source.events, not_not.mp kind, empty]

theorem frame_setOwn (other : u ≠ t) (free : s.slotFree t w = true) :
    Frame s (s.setSlot w (some t)) u :=
  frame_setSlot (fun held => slotFree_apply free held other) (by simpa using Ne.symm other)

theorem frame_unset (other : u ≠ t) (free : s.slotFree t w = true) : Frame s (s.setSlot w none) u :=
  frame_setSlot (fun held => slotFree_apply free held other) (by simp)

theorem lockedStep_frame (other : u ≠ t) (free : s.ready c.on = false → s.slotFree t c.on = true)
    (step : lockedStep s t c = some s') : Frame s s' u := by
  obtain rfl | ⟨he, rfl⟩ | ⟨mid, v, plain, hc, rfl⟩ | ⟨mid, hc, rfl⟩ := lockedStep_cases step
  · exact frame_goto other
  · exact (frame_setOwn other (free he)).trans (frame_goto other)
  · exact (frame_wakeLocked plain hc).trans (frame_goto other)
  · exact (frame_within hc).trans (frame_goto other)

theorem taskStep_frame (other : u ≠ t) (ht : StepTimely s t (s.pc t))
    (step : taskStep s t = some s') : Frame s s' u := by
  unfold taskStep at step
  cases hp : s.pc t with simp only [hp] at ht step
  | idle => cases step
  | lockedLoop c => exact lockedStep_frame other ht step
  | acceptLoop q | recvLoop q timed len =>
    cases step
    exact (frame_setOwn other ht).trans (frame_goto other)
  | acceptHead q | acceptTail q head | takeHead q | recvCheck q timed len
  | recvTail q timed len head | pollTail fds timed fd rest hf head =>
    cases step
    exact frame_goto other
  | takeUnset q | recvFound q timed len n | recvUnset q timed len eof =>
    cases step
    exact (frame_unset other ht).trans (frame_goto other)
  | takeStore q head =>
    cases step
    have hk := setHead_change (Source.take_within ht)
    exact (frame_within hk).trans (frame_goto other)
  | recvTake q timed len n =>
    split_ifs at step with stored
    · cases step
      refine Frame.trans (frame_within ?_) (frame_goto other)
      exact setHead_change (Source.consume_within stored)
    · cases step
      exact frame_goto other
  | recvReset q timed len =>
    cases step
    exact ((frame_setOwn other ht).trans (frame_setDeadline other)).trans (frame_goto other)
  | lockedBlock c | acceptBlock q | recvBlock q timed len | pollBlock fds timed =>
    cases step
    exact (frame_schedBlock other).trans (frame_goto other)
  | recvWoken q timed len =>
    cases step
    exact (frame_setDeadline other).trans (frame_goto other)
  | pollCheck fds timed rest hf =>
    cases rest with
    | nil =>
      cases step
      exact frame_goto other
    | cons fd rest =>
      dsimp only at step
      split at step
      · cases step
      split at step
      all_goals
        cases step
        exact frame_goto other
  | pollAdd fds timed rest =>
    cases rest with
    | nil =>
      cases step
      exact frame_goto other
    | cons w rest =>
      cases step
      exact (frame_setWaiters (mem_cons_of_mem t) fun _ => ht).trans (frame_goto other)
  | pollRemove fds timed rest =>
    cases rest with
    | nil =>
      cases step
      exact frame_goto other
    | cons w rest =>
      cases step
      have kept (mem : u ∈ s.waiters w) := (mem_erase_of_ne other).mpr mem
      exact (frame_setWaiters kept (lt_of_le_of_lt (length_erase_le ..))).trans
        (frame_goto other)

theorem giveUp_cases (step : giveUp s t = some s') : s' = s.goto t .idle ∨
      ∃ q, s.pc t = .acceptBlock q ∧ s' = (s.setSlot (.source q) none).goto t .idle := by
  unfold giveUp at step
  split at step
  · split at step
    · cases step
    · exact .inl (some.inj step).symm
  · next q hp => exact .inr ⟨q, hp, (some.inj step).symm⟩
  · exact .inl (some.inj step).symm
  · exact .inl (some.inj step).symm
  · cases step

theorem giveUp_frame (other : u ≠ t) (ht : giveUpTimely s t (s.pc t) = true)
    (step : giveUp s t = some s') : Frame s s' u := by
  obtain rfl | ⟨q, hp, rfl⟩ := giveUp_cases step
  · exact frame_goto other
  rw [hp] at ht
  exact (frame_unset other ht).trans (frame_goto other)

/-! ### What comes from outside -/

theorem arrive_frame {n : Nat} (step : arrive s q n = some s') : Frame s s' u := by
  unfold arrive at step
  cases kind : (s.source q).kind with simp only [kind] at step
  | listener =>
    cases step
    exact frame_begin
  | connecting =>
    cases step
    exact frame_arrive (setSource_change (.inr ⟨kind, rfl⟩))
  | dgram | stream =>
    split at step
    · cases step
      exact frame_arrive (setSource_change (.inl kind.symm))
    · cases step
      exact frame_refl
  | unixListener | unixStream =>
    split at step
    · cases step
    · cases step
      exact frame_wakeLocked (by simp [slotted, kind]) (setSource_change (.inl kind.symm))
  | terminal =>
    cases step
    exact frame_wakeLocked (by simp [slotted, kind]) (setSource_change (.inl kind.symm))

theorem hangup_frame (step : hangup s q = some s') : Frame s s' u := by
  unfold hangup at step
  cases kind : (s.source q).kind with simp only [kind] at step
  | listener | dgram | connecting | unixListener => cases step
  | stream =>
    cases step
    exact frame_arrive (setSource_change (.inl kind.symm))
  | unixStream =>
    split at step
    · cases step
    · cases step
      exact frame_wakeLocked (by simp [slotted, kind]) (setSource_change (.inl kind.symm))
  | terminal =>
    cases step
    exact frame_wakeLocked (by simp [slotted, kind]) (setSource_change (.inl kind.symm))

theorem drain_frame {n : Nat} (step : drain s q n = some s') : Frame s s' u := by
  unfold drain at step
  dsimp only at step
  split at step
  · split at step
    · next hs =>
      cases step
      have some : (s.source q).avail ≠ 0 := by omega
      exact frame_within (setHead_change (Source.consume_within some))
    · cases step
  · next kind =>
    split at step
    · cases step
    next hs =>
    cases step
    have room := Nat.le_of_not_lt (not_or.mp hs).2
    exact frame_within (setHead_change (Source.drain_within room (by simp [kind])))
  · next kind =>
    split at step
    · cases step
    next hs =>
    cases step
    have room := Nat.le_of_not_lt hs
    exact frame_within (setHead_change (Source.drain_within room (by simp [kind])))
  · cases step

theorem pipeDup_frame (step : pipeDupRead s p = some s' ∨ pipeDupWrite s p = some s') :
    Frame s s' u := by
  rcases step with step | step
  · unfold pipeDupRead at step
    split at step
    · cases step
    cases step
    refine frame_within (setPipe_change (fun _ => .rfl) fun _ => ?_)
    constructor <;> simp +contextual [Pipe.writeEvents]
  · unfold pipeDupWrite at step
    split at step
    · cases step
    cases step
    refine frame_within (setPipe_change (fun _ => ?_) fun _ => .rfl)
    constructor <;> simp +contextual [Pipe.readEvents]

theorem pipeReadClose_frame (step : pipeReadClose s p = some s') : Frame s s' u := by
  unfold pipeReadClose at step
  split at step
  · cases step
  next gone =>
  cases step
  split
  · exact frame_wakeLocked rfl (setPipe_change (fun _ => .rfl) (absurd rfl))
  refine Frame.trans ?_ frame_wakeSlot
  refine frame_within (setPipe_change (fun _ => .rfl) fun _ => ?_)
  have left : (s.pipe p).readRefs - 1 ≠ 0 := by omega
  constructor <;> simp +contextual [Pipe.writeEvents, left]

theorem pipeWriteClose_frame (step : pipeWriteClose s p = some s') : Frame s s' u := by
  unfold pipeWriteClose at step
  split at step
  · cases step
  next gone =>
  cases step
  split
  · exact frame_wakeLocked rfl (setPipe_change (absurd rfl) fun _ => .rfl)
  refine Frame.trans ?_ frame_wakeSlot
  refine frame_within (setPipe_change (fun _ => ?_) fun _ => .rfl)
  have left : (s.pipe p).writeRefs - 1 ≠ 0 := by omega
  constructor <;> simp +contextual [Pipe.readEvents, left]

theorem expire_frame (ha : s.blocked t = true) :
    Frame s ((s.setDeadline t false).schedWake t) u := by
  by_cases own : u = t
  · subst own
    have hs : Frame s (s.schedWake u) u := frame_schedWake
    exact ⟨id, rfl, hs.blocked, .inr ⟨ha, by simp [schedWake_blocked]⟩, fun _ => id,
      fun _ _ => id, hs.relies, fun _ _ => id, fun _ => .inl rfl, fun _ => .inl rfl,
      fun _ _ => id⟩
  · exact (frame_setDeadline own).trans frame_schedWake

theorem wakeStep_frame (hs : ∀ w, (s.waiters w).length < snapSize)
    (idle : n ≤ u → s.pc u = .idle) (ht : Timely n s label) (step : wakeStep s label = some s')
    (other : label.actor ≠ some u) : Frame s s' u := by
  cases label with
  | call t c =>
    have ha : u ≠ t := fun eq => other (eq ▸ rfl)
    rw [wakeStep] at step
    split at step
    · obtain ⟨pc, -, rfl⟩ := map_eq_some_iff.mp step
      exact frame_goto ha
    · cases step
  | step t =>
    have ha : u ≠ t := fun eq => other (eq ▸ rfl)
    rw [wakeStep] at step
    split at step
    · cases step
    · exact taskStep_frame ha ht.2 step
  | giveUp t =>
    have ha : u ≠ t := fun eq => other (eq ▸ rfl)
    rw [wakeStep] at step
    split at step
    · cases step
    · exact giveUp_frame ha ht.2 step
  | arrive q n => exact arrive_frame step
  | hangup q => exact hangup_frame step
  | drain q n => exact drain_frame step
  | dupRead p => exact pipeDup_frame (.inl step)
  | dupWrite p => exact pipeDup_frame (.inr step)
  | closeRead p => exact pipeReadClose_frame step
  | closeWrite p => exact pipeWriteClose_frame step
  | advance k =>
    refine advance_frame hs ?_ ht step
    rcases Nat.lt_or_ge u n with lt | ge
    · exact ht.2.1 u lt
    · simp [idle ge, Pc.polls, Pc.receives]
  | tick =>
    cases step
    exact frame_begin
  | expire t =>
    rw [wakeStep] at step
    split at step
    · next late =>
      cases step
      exact expire_frame late.1
    · cases step
  | signal t =>
    cases step
    exact frame_schedWake

/-- What is known of a task from where it is. Before it blocks: a waker comes when its condition
does, as long as its registration holds or, without a timeout, since it has looked. While it is
blocked the registration holds. -/
def Local (s : State) (u : TaskId) : Pc → Prop
  | .lockedLoop c => s.blocked u = true → s.slot c.on = some u ∧ s.SlotDue c.on
  | .lockedBlock c => s.Relies u c.on → s.SlotDue c.on
  | .acceptLoop q => (s.source q).kind = .listener ∧
      (s.blocked u = true → s.slot (.source q) = some u ∧ s.SlotDue (.source q))
  | .acceptHead q => (s.source q).kind = .listener
  | .acceptTail q head => (s.source q).kind = .listener ∧
      (s.Relies u (.source q) → head = (s.source q).tail → s.SlotDue (.source q))
  | .acceptBlock q => (s.source q).kind = .listener ∧
      (s.Relies u (.source q) → s.SlotDue (.source q))
  | .recvLoop q _ _ | .recvCheck q _ _ => s.slotted (.source q) = true
  | .recvFound q _ _ _ | .recvTake q _ _ _ =>
      s.slotted (.source q) = true ∧ (s.source q).kind ≠ .dgram
  | .recvTail q timed _ head => (s.source q).kind = .dgram ∧
      (timed = false → head = (s.source q).tail → s.SlotDue (.source q))
  | .recvUnset q timed _ eof => s.slotted (.source q) = true ∧
      (timed = false → eof = false → s.SlotDue (.source q))
  | .recvReset q timed _ => s.slotted (.source q) = true ∧
      (timed = false → s.SlotDue (.source q))
  | .recvBlock q timed _ => s.slotted (.source q) = true ∧ s.blocked u = false ∧
      (timed = true → s.deadline u = true) ∧
      (timed = false → s.Relies u (.source q) → s.SlotDue (.source q))
  | .recvWoken q timed _ => s.slotted (.source q) = true ∧
      (s.blocked u = true → (timed = true → s.deadline u = true) ∧
        (timed = false → s.slot (.source q) = some u ∧ s.SlotDue (.source q)))
  | .pollCheck fds timed rest found =>
      timed = false → found = false → ∀ fd ∈ fds, fd ∈ rest ∨ s.Due u fd
  | .pollTail fds timed fd rest found head => timed = false → found = false →
      (∀ x ∈ fds, x = fd ∨ x ∈ rest ∨ s.Due u x) ∧ ∃ q, fd.on = .source q ∧
        (s.source q).kind.unlocked = true ∧
        (head = (s.source q).tail → s.Due u ⟨.source q, true, false⟩)
  | .pollAdd fds timed rest => (∀ w ∈ queues fds timed, w ∈ rest ∨ u ∈ s.waiters w) ∧
      (timed = false → ∀ fd ∈ fds, s.Due u fd)
  | .pollBlock fds timed => (∀ w ∈ queues fds timed, u ∈ s.waiters w) ∧
      (timed = false → ∀ fd ∈ fds, s.Due u fd)
  | .pollRemove fds timed _ => s.blocked u = true → (∀ w ∈ queues fds timed, u ∈ s.waiters w) ∧
      (timed = false → ∀ fd ∈ fds, s.Due u fd)
  | _ => True

structure Inv (n : Nat) (s : State) : Prop where
  short : ∀ w, (s.waiters w).length < snapSize
  idle : ∀ u, n ≤ u → s.pc u = .idle
  tasks : ∀ u, Local s u (s.pc u)

section
variable {fds rest : List Pollfd} {fd : Pollfd} {timed found eof : Bool} {len head : Nat}

theorem mem_queues (mem : fd ∈ fds) : fd.on ∈ queues fds timed :=
  mem_append_left _ (mem_map_of_mem mem)

theorem SameKind.of_ne {x x' : Source} (same : SameKind x x') (ne : x.kind ≠ .connecting) :
    x'.kind = x.kind :=
  same.resolve_right fun changed => ne changed.1

theorem Frame.slotted (frame : Frame s s' u) (pre : s.slotted w = true) : s'.slotted w = true :=
  (SameKind.slotted frame.kind).trans pre

theorem Frame.listens (frame : Frame s s' u) (pre : (s.source q).kind = .listener) :
    (s'.source q).kind = .listener :=
  ((frame.kind q).of_ne (by simp [pre])).trans pre

theorem Frame.registered (frame : Frame s s' u) (ha : s'.blocked u = true)
    (pre : s.slot w = some u ∧ s.SlotDue w) : s'.slot w = some u ∧ s'.SlotDue w := by
  have hs := frame.keeps w ha pre.1
  exact ⟨hs, frame.slotDue w (.inr ⟨hs, .inl ha⟩) pre.2⟩

theorem Frame.receives (frame : Frame s s' u) (pre : s.slotted w = true)
    (looks : w ∈ (s.pc u).receives) : s'.Relies u w :=
  .inl ⟨frame.slotted pre, frame.pc ▸ looks⟩

theorem recvTail_frame (frame : Frame s s' u) (hp : s.pc u = .recvTail q timed len head)
    (pre : Local s u (.recvTail q timed len head)) : Local s' u (.recvTail q timed len head) := by
  obtain ⟨dgram, due⟩ := pre
  have kind := ((frame.kind q).of_ne (by simp [dgram])).trans dgram
  refine ⟨kind, ?_⟩
  rintro rfl he
  have relies : s'.Relies u (.source q) :=
    frame.receives (by simp [State.slotted, dgram]) (by simp [hp, Pc.receives])
  rcases frame.tails q with eq | moved
  · exact frame.slotDue _ relies (due rfl (he.trans eq))
  · exact moved.1 relies

theorem recvBlock_frame (frame : Frame s s' u) (pre : Local s u (.recvBlock q timed len)) :
    Local s' u (.recvBlock q timed len) := by
  obtain ⟨kind, awake, limit, due⟩ := pre
  have still : s'.blocked u = false := by
    by_contra ha
    have was := frame.blocked (by simpa using ha)
    rw [awake] at was
    cases was
  refine ⟨frame.slotted kind, still, fun timed => ?_, fun timed held => ?_⟩
  · rcases frame.deadline with eq | ⟨was, -⟩
    · rw [eq, limit timed]
    · rw [awake] at was
      cases was
  · exact frame.slotDue _ held (due timed (frame.relies _ held))

theorem recvWoken_frame (frame : Frame s s' u) (pre : Local s u (.recvWoken q timed len)) :
    Local s' u (.recvWoken q timed len) := by
  refine ⟨frame.slotted pre.1, fun ha => ?_⟩
  obtain ⟨limit, due⟩ := pre.2 (frame.blocked ha)
  refine ⟨fun timed => ?_, fun timed => frame.registered ha (due timed)⟩
  rcases frame.deadline with eq | ⟨-, awake⟩
  · rw [eq, limit timed]
  · rw [ha] at awake
    cases awake

theorem pollTail_frame (frame : Frame s s' u) (hp : s.pc u = .pollTail fds timed fd rest found head)
    (pre : Local s u (.pollTail fds timed fd rest found head)) :
    Local s' u (.pollTail fds timed fd rest found head) := by
  rintro rfl rfl
  obtain ⟨others, q, here, kind, due⟩ := pre rfl rfl
  have polls : (s.pc u).polls = fd.on :: fds.map Pollfd.on := by rw [hp, Pc.polls]
  have same : (s'.source q).kind = (s.source q).kind :=
    (frame.kind q).of_ne fun eq => by simp [eq, Kind.unlocked] at kind
  refine ⟨fun x mem => ?_, q, here, same ▸ kind, fun he => ?_⟩
  · refine (others x mem).imp_right (Or.imp_right (frame.queueDue x (.inr ?_)))
    exact polls ▸ .tail _ (mem_map_of_mem mem)
  · have looks : .source q ∈ (s.pc u).polls := polls ▸ here ▸ .head _
    rcases frame.tails q with eq | moved
    · exact frame.queueDue ⟨.source q, true, false⟩ (.inr looks) (due (he.trans eq))
    · exact moved.2 _ rfl looks

theorem Local.frame (pre : Local s u (s.pc u)) (frame : Frame s s' u) : Local s' u (s'.pc u) := by
  rw [frame.pc]
  cases hp : s.pc u with rw [hp] at pre
  | lockedLoop c => exact fun ha => frame.registered ha (pre (frame.blocked ha))
  | acceptLoop q =>
    exact ⟨frame.listens pre.1, fun ha => frame.registered ha (pre.2 (frame.blocked ha))⟩
  | lockedBlock c => exact fun held => frame.slotDue _ held (pre (frame.relies _ held))
  | acceptHead q => exact frame.listens pre
  | acceptTail q head =>
    refine ⟨frame.listens pre.1, fun held he => ?_⟩
    rcases frame.tails q with eq | moved
    · exact frame.slotDue _ held (pre.2 (frame.relies _ held) (he.trans eq))
    · exact moved.1 held
  | acceptBlock q =>
    exact ⟨frame.listens pre.1, fun held => frame.slotDue _ held (pre.2 (frame.relies _ held))⟩
  | recvLoop q timed len | recvCheck q timed len => exact frame.slotted pre
  | recvFound q timed len n | recvTake q timed len n =>
    refine ⟨frame.slotted pre.1, fun dgram => pre.2 ?_⟩
    exact (frame.kind q).elim (fun eq => eq.symm.trans dgram) fun changed => by
      simp [dgram] at changed
  | recvTail q timed len head => exact recvTail_frame frame hp pre
  | recvUnset q timed len eof =>
    refine ⟨frame.slotted pre.1, ?_⟩
    rintro rfl rfl
    exact frame.slotDue _ (frame.receives pre.1 (by simp [hp, Pc.receives])) (pre.2 rfl rfl)
  | recvReset q timed len =>
    refine ⟨frame.slotted pre.1, ?_⟩
    rintro rfl
    exact frame.slotDue _ (frame.receives pre.1 (by simp [hp, Pc.receives])) (pre.2 rfl)
  | recvBlock q timed len => exact recvBlock_frame frame pre
  | recvWoken q timed len => exact recvWoken_frame frame pre
  | pollCheck fds timed rest found =>
    rintro rfl rfl
    exact fun fd mem => (pre rfl rfl fd mem).imp_right
      (frame.queueDue fd (.inr (hp ▸ mem_map_of_mem mem)))
  | pollTail fds timed fd rest found head => exact pollTail_frame frame hp pre
  | pollAdd fds timed rest =>
    refine ⟨fun w mem => (pre.1 w mem).imp_right (frame.waiters w), ?_⟩
    rintro rfl
    exact fun fd mem => frame.queueDue fd (.inr (hp ▸ mem_map_of_mem mem)) (pre.2 rfl fd mem)
  | pollBlock fds timed =>
    refine ⟨fun w mem => frame.waiters w (pre.1 w mem), ?_⟩
    rintro rfl
    exact fun fd mem => frame.queueDue fd (.inr (hp ▸ mem_map_of_mem mem)) (pre.2 rfl fd mem)
  | pollRemove fds timed rest =>
    intro ha
    obtain ⟨hl, due⟩ := pre (frame.blocked ha)
    refine ⟨fun w mem => frame.waiters w (hl w mem), fun limit fd mem => ?_⟩
    exact frame.queueDue fd (.inl ⟨ha, hl _ (mem_queues mem)⟩) (due limit fd mem)
  | _ => trivial

/-! ### The steps, seen by the task itself -/

theorem goto_pc {pc : Pc} : (s.goto t pc).pc t = pc := Function.update_self ..

theorem entry_local {pc : Pc} {c : Call} (he : s.entry c = some pc)
    (hw : s.blocked t = false) : Local (s.goto t pc) t pc := by
  have hs : (s.goto t pc).blocked t ≠ true := by simp [goto, hw]
  cases c with simp only [entry] at he
  | read p len | write p len =>
    cases he
    exact fun ha => absurd ha hs
  | accept q =>
    split at he
    · next kind =>
      cases he
      exact ⟨kind, fun ha => absurd ha hs⟩
    · cases he
      exact fun ha => absurd ha hs
    · cases he
  | recvfrom q timed len =>
    split at he <;> cases he
    all_goals simp_all [Local, State.slotted, goto]
  | poll fds timed =>
    split at he <;> cases he
    exact fun _ _ _ => .inl

theorem slotDue_of_unready (none : s.ready w = false) : s.SlotDue w := by
  intro now
  rw [none] at now
  cases now

theorem lockedStep_local (step : lockedStep s t c = some s') : Local s' t (s'.pc t) := by
  obtain rfl | ⟨he, rfl⟩ | ⟨mid, v, -, -, rfl⟩ | ⟨mid, -, rfl⟩ := lockedStep_cases step
  case inr.inl =>
    rw [goto_pc]
    exact fun _ => slotDue_of_unready he
  all_goals
    rw [goto_pc]
    trivial

theorem ring_empty (kind : (s.source q).kind = .listener ∨ (s.source q).kind = .dgram)
    (he : (s.source q).head = (s.source q).tail) : s.ready (.source q) = false := by
  rcases kind with kind | kind <;> simp [ready, events, Source.events, kind, he]

theorem acceptHead_local (kind : (s.source q).kind = .listener) :
    Local (s.goto t (.acceptTail q (s.source q).head)) t (.acceptTail q (s.source q).head) := by
  exact ⟨kind, fun _ he => slotDue_of_unready (ring_empty (.inl kind) he)⟩

theorem stream_empty (kind : s.slotted (.source q) = true) (other : (s.source q).kind ≠ .dgram)
    (none : (s.source q).avail = 0) (goes : (s.source q).closed = false) :
    s.ready (.source q) = false := by
  simp only [State.slotted] at kind
  cases eq : (s.source q).kind <;> simp_all [ready, events, Source.events]

theorem recvCheck_local (pre : s.slotted (.source q) = true) (hp : s.pc t = .recvCheck q timed len)
    (step : taskStep s t = some s') : Local s' t (s'.pc t) := by
  simp only [taskStep, hp, Option.some.injEq] at step
  rw [← step, goto_pc]
  split_ifs with dgram none
  · exact ⟨dgram, fun _ he => slotDue_of_unready (ring_empty (.inr dgram) he)⟩
  · exact ⟨pre, dgram⟩
  · exact ⟨pre, fun _ goes => slotDue_of_unready (stream_empty pre dgram (not_not.mp none) goes)⟩

theorem recvTake_local {n : Nat} (pre : Local s t (.recvTake q timed len n))
    (hp : s.pc t = .recvTake q timed len n) (step : taskStep s t = some s') :
    Local s' t (s'.pc t) := by
  simp only [taskStep, hp] at step
  split at step
  · cases step
    rw [goto_pc]
    trivial
  · next none =>
    cases step
    rw [goto_pc]
    refine ⟨pre.1, fun _ goes => slotDue_of_unready ?_⟩
    exact stream_empty pre.1 pre.2 (not_not.mp none) goes

theorem recvStep_local (pre : Local s t (.recvTail q timed len head))
    (hp : s.pc t = .recvTail q timed len head) (step : taskStep s t = some s') :
    Local s' t (s'.pc t) := by
  simp only [taskStep, hp, Option.some.injEq] at step
  rw [← step, goto_pc]
  split
  · next he =>
    exact ⟨by simp [State.slotted, goto, pre.1], fun limit _ => pre.2 limit he⟩
  · trivial

theorem unlocked_source {x : Source} (here : s.unlocked w = some x) :
    ∃ q, w = .source q ∧ (s.source q).kind.unlocked = true ∧ s.source q = x := by
  cases w with
  | source q =>
    obtain ⟨kind, eq⟩ := ite_none_right_eq_some.mp here
    exact ⟨q, rfl, kind, some.inj eq⟩
  | readEnd _ | writeEnd _ | timer => cases here

theorem unlocked_revents (kind : (s.source q).kind.unlocked = true) :
    s.revents ⟨.source q, true, false⟩ = decide ((s.source q).head ≠ (s.source q).tail) ∧
      (s.events (.source q)).hup = false := by
  cases eq : (s.source q).kind <;> simp_all [revents, events, Source.events, Kind.unlocked]

theorem pollCheck_local (pre : Local s t (.pollCheck fds timed rest found))
    (hp : s.pc t = .pollCheck fds timed rest found) (step : taskStep s t = some s') :
    Local s' t (s'.pc t) := by
  cases rest with simp only [taskStep, hp] at step
  | nil =>
    cases step
    rw [goto_pc]
    cases found with
    | true => trivial
    | false =>
      refine ⟨fun w => .inl, fun limit fd mem => ?_⟩
      exact (pre limit rfl fd mem).resolve_left not_mem_nil
  | cons fd rest =>
    split at step
    · cases step
    split at step
    · next x here =>
      cases step
      rw [goto_pc]
      intro limit none
      obtain ⟨q, eq, kind, rfl⟩ := unlocked_source here
      refine ⟨fun x mem => ?_, q, eq, kind, fun he now => ?_⟩
      · exact (pre limit none x mem).elim (fun ahead => (mem_cons.mp ahead).imp_right .inl)
          fun due => .inr (.inr due)
      · have some : s.revents ⟨.source q, true, false⟩ = true := now
        have he : (s.source q).head = (s.source q).tail := he
        simp [(unlocked_revents kind).1, he] at some
    · cases step
      rw [goto_pc]
      intro limit none x mem
      simp only [Bool.or_eq_false_iff] at none
      rcases pre limit none.1 x mem with ahead | due
      · rcases mem_cons.mp ahead with rfl | later
        · exact .inr fun now => absurd (none.2.symm.trans now) (by simp)
        · exact .inl later
      · exact .inr due

theorem pollTail_local (pre : Local s t (.pollTail fds timed fd rest found head))
    (hp : s.pc t = .pollTail fds timed fd rest found head) (step : taskStep s t = some s') :
    Local s' t (s'.pc t) := by
  simp only [taskStep, hp, Option.some.injEq] at step
  rw [← step, goto_pc]
  intro limit none x mem
  simp only [Bool.or_eq_false_iff] at none
  obtain ⟨⟨hf, input⟩, output⟩ := none
  obtain ⟨others, q, here, kind, due⟩ := pre limit hf
  rcases others x mem with rfl | later | due
  · refine .inr fun (now : s.revents x = true) => ?_
    rw [here] at output
    have both : (s.events (.source q)).input = true ∧ x.pollIn = true := by
      simpa [revents, here, (unlocked_revents kind).2, output] using now
    have he : head = (s.source q).tail := by
      simpa [both.2, unlocked, here, kind] using input
    exact here ▸ due he (by simp [revents, both.1])
  · exact .inl later
  · exact .inr due

theorem pollAdd_local {rest : List Waitable} (pre : Local s t (.pollAdd fds timed rest))
    (hp : s.pc t = .pollAdd fds timed rest) (step : taskStep s t = some s') :
    Local s' t (s'.pc t) := by
  cases rest with
  | nil =>
    simp only [taskStep, hp, Option.some.injEq] at step
    rw [← step, goto_pc]
    exact ⟨fun w mem => (pre.1 w mem).resolve_left not_mem_nil, pre.2⟩
  | cons w rest =>
    simp only [taskStep, hp, Option.some.injEq] at step
    rw [← step, goto_pc]
    refine ⟨fun v mem => ?_, pre.2⟩
    rcases pre.1 v mem with ahead | hl
    · rcases mem_cons.mp ahead with rfl | hc
      · exact .inr (by simp [goto, setWaiters])
      · exact .inl hc
    · by_cases eq : v = w
      · exact .inr (by simp [goto, setWaiters, eq])
      · exact .inr (by simpa [goto, setWaiters, eq] using hl)

end

theorem taskStep_local (pre : Local s t (s.pc t)) (ha : s.blocked t = false)
    (ht : StepTimely s t (s.pc t)) (step : taskStep s t = some s') :
    Local s' t (s'.pc t) := by
  have before := step
  unfold taskStep at step
  cases hp : s.pc t with (rw [hp] at pre ht; simp only [hp] at step)
  | idle => cases step
  | lockedLoop c => exact lockedStep_local step
  | lockedBlock c =>
    cases step
    rw [goto_pc]
    exact fun _ => ⟨ht.1, pre (.inr ⟨ht.1, .inr ht.2⟩)⟩
  | acceptBlock q =>
    cases step
    rw [goto_pc]
    exact ⟨pre.1, fun _ => ⟨ht.1, pre.2 (.inr ⟨ht.1, .inr ht.2⟩)⟩⟩
  | acceptLoop q | recvWoken q timed len =>
    cases step
    rw [goto_pc]
    exact pre.1
  | acceptHead q =>
    cases step
    rw [goto_pc]
    exact acceptHead_local pre
  | acceptTail q head =>
    cases step
    rw [goto_pc]
    split
    · next he =>
      refine ⟨pre.1, fun held => pre.2 (held.elim (fun looks => ?_) .inr) he⟩
      simp [goto_pc, Pc.receives] at looks
    · trivial
  | takeUnset q | takeHead q | takeStore q head =>
    cases step
    rw [goto_pc]
    trivial
  | recvLoop q timed len | recvFound q timed len n =>
    cases step
    rw [goto_pc]
    exact pre
  | recvCheck q timed len => exact recvCheck_local pre hp before
  | recvTail q timed len head => exact recvStep_local pre hp before
  | recvTake q timed len n => exact recvTake_local pre hp before
  | recvUnset q timed len eof =>
    cases step
    rw [goto_pc]
    cases eof with
    | true => trivial
    | false => exact ⟨pre.1, fun limit => pre.2 limit rfl⟩
  | recvReset q timed len =>
    cases step
    rw [goto_pc]
    exact ⟨pre.1, ha, fun limit => (Function.update_self ..).trans limit,
      fun limit _ => pre.2 limit⟩
  | recvBlock q timed len =>
    cases step
    rw [goto_pc]
    refine ⟨pre.1, fun _ => ⟨pre.2.2.1, fun limit => ?_⟩⟩
    have held := ht limit
    exact ⟨held.1, pre.2.2.2 limit (.inr ⟨held.1, .inr held.2⟩)⟩
  | pollCheck fds timed rest found => exact pollCheck_local pre hp before
  | pollTail fds timed fd rest found head => exact pollTail_local pre hp before
  | pollAdd fds timed rest => exact pollAdd_local pre hp before
  | pollBlock fds timed =>
    cases step
    rw [goto_pc]
    exact fun _ => pre
  | pollRemove fds timed rest =>
    cases rest with
    | nil =>
      cases step
      rw [goto_pc]
      exact fun _ _ _ => .inl
    | cons w rest =>
      cases step
      rw [goto_pc]
      exact fun has => absurd has (by simp [goto, setWaiters, ha])

theorem giveUp_local (step : giveUp s t = some s') : Local s' t (s'.pc t) := by
  obtain rfl | ⟨q, -, rfl⟩ := giveUp_cases step
  all_goals
    rw [goto_pc]
    trivial

theorem inv_start (pipe : PipeId → Pipe) (source : SourceId → Source) :
    Inv n (start pipe source) :=
  ⟨fun _ => by simp [start, snapSize], fun _ _ => rfl, fun _ => trivial⟩

theorem wakeStep_local (inv : Inv n s) (ht : Timely n s label)
    (step : wakeStep s label = some s') (actor : label.actor = some t) : Local s' t (s'.pc t) := by
  cases label with simp only [Label.actor, Option.some.injEq, reduceCtorEq] at actor
  | call u c =>
    subst actor
    rw [wakeStep] at step
    split at step
    · next hr =>
      obtain ⟨pc, he, rfl⟩ := map_eq_some_iff.mp step
      rw [goto_pc]
      exact entry_local he hr.2
    · cases step
  | step u =>
    subst actor
    rw [wakeStep] at step
    split at step
    · cases step
    · next ha =>
      exact taskStep_local (inv.tasks u) (by simpa using ha) ht.2 step
  | giveUp u =>
    subst actor
    rw [wakeStep] at step
    split at step
    · cases step
    · exact giveUp_local step

theorem exists_other (label : Label) : ∃ u, label.actor ≠ some u := by
  cases actor : label.actor with
  | none => exact ⟨0, nofun⟩
  | some t => exact ⟨t + 1, by simp⟩

theorem inv_step (inv : Inv n s) (ht : Timely n s label) (step : wakeStep s label = some s') :
    Inv n s' := by
  have frame (u : TaskId) (other : label.actor ≠ some u) : Frame s s' u :=
    wakeStep_frame inv.short (inv.idle u) ht step other
  refine ⟨?_, fun u ge => ?_, fun u => ?_⟩
  · obtain ⟨u, other⟩ := exists_other label
    exact (frame u other).short inv.short
  · have other : label.actor ≠ some u := fun actor =>
      absurd (ht.1 u actor) (Nat.not_lt.mpr ge)
    exact (frame u other).pc.trans (inv.idle u ge)
  · by_cases actor : label.actor = some u
    · exact wakeStep_local inv ht step actor
    · exact (inv.tasks u).frame (frame u actor)

theorem SlotDue.wakeDue (held : s.slot w = some t) (due : s.SlotDue w) (now : s.ready w = true) :
    s.WakeDue t :=
  ⟨.slot w, due now, .inl held⟩

theorem Inv.wakeDue (inv : Inv n s) (hl : t ∈ s.waiters w) (due : s.QueueDue t w) : s.WakeDue t := by
  obtain ⟨k, mem, hr⟩ := due
  have hc : t ∈ (s.waiters w).take snapSize := by
    rwa [take_of_length_le (inv.short w).le]
  refine ⟨k, mem, ?_⟩
  cases k with simp only [Waker.reaches, Bool.and_eq_true, decide_eq_true_eq] at hr
  | push q tail | slot v => exact .inr (hr ▸ hc)
  | clear v | queue v => exact hr ▸ hc
  | waking v tasks full => exact .inl hr.2

theorem Inv.noLostWakeup (inv : Inv n s) : NoLostWakeup s := by
  intro t ha now
  have hk := inv.tasks t
  unfold awaited at now
  cases hp : s.pc t with simp only [hp, Local, Bool.false_eq_true] at hk now
  | lockedLoop c =>
    obtain ⟨held, due⟩ := hk ha
    exact .inl (SlotDue.wakeDue held due now)
  | acceptLoop q =>
    obtain ⟨held, due⟩ := hk.2 ha
    exact .inl (SlotDue.wakeDue held due now)
  | recvWoken q timed len =>
    obtain ⟨hr, due⟩ := hk.2 ha
    cases timed with
    | true => exact .inr (.inl (hr rfl))
    | false =>
      obtain ⟨held, due⟩ := due rfl
      exact .inl (SlotDue.wakeDue held due now)
  | pollRemove fds timed rest =>
    obtain ⟨hl, due⟩ := hk ha
    cases timed with
    | true =>
      refine .inr (.inr ?_)
      rw [take_of_length_le (inv.short .timer).le]
      exact hl .timer (by simp [queues])
    | false =>
      obtain ⟨fd, mem, event⟩ := any_eq_true.mp now
      exact .inl (inv.wakeDue (hl _ (mem_queues mem)) (due rfl fd mem event))

/-- Any tasks, wakers and interrupts: in a run whose steps all stay clear of the races, no
wake-up is ever lost. -/
theorem no_lost_wakeups {pipe : PipeId → Pipe} {source : SourceId → Source} {labels : List Label}
    (run : RunWhere wakeStep (Timely n) (start pipe source) labels s) : NoLostWakeup s :=
  (run.invariant (inv_start pipe source) fun _ _ _ inv timely step =>
    inv_step inv timely step).noLostWakeup

def emptyPipes : PipeId → Pipe :=
  fun _ => ⟨0, 1, 1⟩

def quietSockets : SourceId → Source
  | 0 => ⟨.listener, 0, 0, false⟩
  | _ => ⟨.dgram, 0, 0, false⟩

/-- Task 1 waits for a connection; a datagram comes after task 2 has looked and before it has
registered again; task 3 polls a pipe and the listener, and a connection comes. -/
def connectionComes : List Label :=
  [.call 1 (.accept 0), .step 1, .step 1, .step 1, .step 1, .call 2 (.recvfrom 1 false 64),
    .step 2, .step 2, .step 2, .step 2, .arrive 1 1, .step 2, .step 2,
    .call 3 (.poll [⟨.readEnd 0, true, false⟩, ⟨.source 0, true, false⟩] false), .step 3, .step 3,
    .step 3, .step 3, .step 3, .step 3, .step 3, .step 3, .arrive 0 1, .advance (.push 0 0)]

theorem no_lost_wakeups_connection :
    ∃ s, RunWhere wakeStep (Timely 4) (start emptyPipes quietSockets) connectionComes s ∧
      ∀ t ∈ [1, 2, 3], (s.blocked t = true ∧ s.awaited t = true) ∧
        (s.WakeDue t ∨ s.TimeoutDue t) := by
  refine exists_runWhere_of (fun s => ∀ t ∈ [1, 2, 3], s.blocked t = true ∧ s.awaited t = true)
    fun s run waits t mem => ⟨waits t mem, ?_⟩
  exact no_lost_wakeups run t (waits t mem).1 (waits t mem).2

/-- Two readers block; the pipe remembers the second, and a write wakes only that one. -/
def secondReaderHides : List Label :=
  [.call 1 (.read 0 16), .step 1, .step 1, .call 3 (.read 0 2), .step 3, .step 3,
    .call 2 (.write 0 5), .step 2, .advance (.queue (.readEnd 0)),
    .advance (.waking (.readEnd 0) [] false), .step 3, .advance (.queue (.writeEnd 0)),
    .advance (.waking (.writeEnd 0) [] false)]

def readerMissesByte : List Label :=
  [.call 1 (.read 0 16), .step 1, .call 2 (.write 0 5), .step 2, .advance (.queue (.readEnd 0)),
    .advance (.waking (.readEnd 0) [] false), .step 1]

/-- The connection comes, with its wake-up, after the check and before the block. -/
def accepterMissesConnection : List Label :=
  [.call 1 (.accept 0), .step 1, .step 1, .step 1, .arrive 0 1, .advance (.push 0 0),
    .advance (.slot (.source 0)), .advance (.clear (.source 0)), .advance (.queue (.source 0)),
    .advance (.waking (.source 0) [] false), .step 1]

/-- The datagram comes while the slot is cleared between the check and the block. -/
def receiverMissesDatagram : List Label :=
  [.call 1 (.recvfrom 1 false 64), .step 1, .step 1, .step 1, .step 1, .arrive 1 1,
    .advance (.slot (.source 1)), .advance (.queue (.source 1)),
    .advance (.waking (.source 1) [] false), .step 1, .step 1]

def connects (n : Nat) : List Label :=
  [.arrive 0 1, .advance (.push 0 n), .advance (.slot (.source 0)), .advance (.queue (.source 0)),
    .advance (.waking (.source 0) [] false)]

def accepts (t : TaskId) (n : Nat) : List Label :=
  .call t (.accept 0) :: List.replicate n (.step t)

/-- Task 2 has loaded the head when task 3 takes two connections; task 1 finds the queue empty
and blocks, and then task 2 stores the head after the one it had loaded. -/
def staleHeadRefills : List Label :=
  connects 0 ++ accepts 2 5 ++ accepts 3 6 ++ connects 1 ++ accepts 3 6 ++ accepts 1 4 ++ [.step 2]

def pollerMissesByte : List Label :=
  [.call 1 (.poll [⟨.readEnd 0, true, false⟩] false), .step 1, .step 1, .call 2 (.write 0 5),
    .step 2, .advance (.queue (.readEnd 0)), .advance (.waking (.readEnd 0) [] false), .step 1,
    .step 1, .step 1]

def lostWakeup (s : State) : Bool :=
  s.blocked 1 && s.awaited 1 && s.wakers.isEmpty && !s.deadline 1 && (s.waiters .timer).isEmpty

theorem not_noLostWakeup (lost : lostWakeup s = true) : ¬ NoLostWakeup s := by
  simp only [lostWakeup, Bool.and_eq_true, List.isEmpty_iff, Bool.not_eq_true'] at lost
  obtain ⟨⟨⟨⟨ha, now⟩, wakers⟩, unarmed⟩, timer⟩ := lost
  intro none
  rcases none 1 ha now with ⟨k, mem, -⟩ | limit | hl
  · simp [wakers] at mem
  · simp [unarmed] at limit
  · simp [timer] at hl

def Loses (labels : List Label) : Prop :=
  ∃ s, Run wakeStep (start emptyPipes quietSockets) labels s ∧ ¬ NoLostWakeup s

theorem loses_of_exec {labels : List Label}
    (ends : (exec wakeStep (start emptyPipes quietSockets) labels).any lostWakeup = true := by
      decide +kernel) : Loses labels := by
  obtain ⟨he, lost⟩ := reached_of_any ends
  exact ⟨_, run_of_exec he, not_noLostWakeup lost⟩

theorem wakeups_lost : Loses secondReaderHides ∧ Loses readerMissesByte ∧
    Loses accepterMissesConnection ∧ Loses staleHeadRefills ∧ Loses receiverMissesDatagram ∧
    Loses pollerMissesByte :=
  ⟨loses_of_exec, loses_of_exec, loses_of_exec, loses_of_exec, loses_of_exec, loses_of_exec⟩

end Aegis.BlockWake
