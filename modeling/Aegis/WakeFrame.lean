import Aegis.BlockWake

/-! What a step may do to a task that does not take it. `Frame` is kept by every update of
the state: a blocked task keeps its registration unless it is woken, and where a condition
comes true there is a waker on its way to the slot and to the queue, also for a task that has
looked and is not registered yet. -/

namespace Aegis.BlockWake

open Function List State

open Sched (TaskId)
open WaitQueue (snapSize)

/-- The waker has not copied the queue yet, or has copied it with the task. -/
def Waker.reaches (t : TaskId) (w : Waitable) : Waker → Bool
  | .push q _ => .source q = w
  | .slot v | .clear v | .queue v => v = w
  | .waking v tasks _ => v = w && t ∈ tasks

def State.QueueDue (s : State) (t : TaskId) (w : Waitable) : Prop :=
  ∃ k ∈ s.wakers, k.reaches t w = true
  deriving Decidable

def State.Due (s : State) (t : TaskId) (fd : Pollfd) : Prop :=
  s.revents fd = true → s.QueueDue t fd.on

def State.SlotDue (s : State) (w : Waitable) : Prop :=
  s.ready w = true → .slot w ∈ s.wakers

/-- The sockets of `sys_recvfrom`, whose task pointer `sock_wake` reads without a lock. -/
def State.slotted (s : State) : Waitable → Bool
  | .source q =>
    match (s.source q).kind with
    | .dgram | .connecting | .stream => true
    | _ => false
  | _ => false

/-- What `sys_poll` without a timeout looks at, until it blocks. -/
def Pc.polls : Pc → List Waitable
  | .pollCheck fds false _ false | .pollAdd fds false _ | .pollBlock fds false =>
    fds.map Pollfd.on
  | .pollTail fds false fd _ false _ => fd.on :: fds.map Pollfd.on
  | _ => []

/-- What `sys_recvfrom` without a timeout has looked at, until it registers for it again. -/
def Pc.receives : Pc → List Waitable
  | .recvTail q false _ _ | .recvUnset q false _ false | .recvReset q false _ => [.source q]
  | _ => []

/-- The slot names the task, and the wake-up for it is not spent; or the task is about to
write its name into the slot. -/
def State.Relies (s : State) (u : TaskId) (w : Waitable) : Prop :=
  s.slotted w = true ∧ w ∈ (s.pc u).receives ∨
    s.slot w = some u ∧ (s.blocked u = true ∨ .clear w ∉ s.wakers)

/-- A connection that is established turns into a stream. -/
def SameKind (x x' : Source) : Prop :=
  x'.kind = x.kind ∨ x.kind = .connecting ∧ x'.kind = .stream

structure Frame (s s' : State) (u : TaskId) : Prop where
  short : (∀ w, (s.waiters w).length < snapSize) → ∀ w, (s'.waiters w).length < snapSize
  pc : s'.pc u = s.pc u
  blocked : s'.blocked u = true → s.blocked u = true
  deadline : s'.deadline u = s.deadline u ∨ s.blocked u = true ∧ s'.blocked u = false
  waiters : ∀ w, u ∈ s.waiters w → u ∈ s'.waiters w
  keeps : ∀ w, s'.blocked u = true → s.slot w = some u → s'.slot w = some u
  relies : ∀ w, s'.Relies u w → s.Relies u w
  slotDue : ∀ w, s'.Relies u w → s.SlotDue w → s'.SlotDue w
  kind : ∀ q, SameKind (s.source q) (s'.source q)
  tails : ∀ q, (s'.source q).tail = (s.source q).tail ∨
    (s'.Relies u (.source q) → s'.SlotDue (.source q)) ∧
      ∀ fd, fd.on = .source q → fd.on ∈ (s.pc u).polls → s'.Due u fd
  queueDue : ∀ fd, s'.blocked u = true ∧ u ∈ s.waiters fd.on ∨ fd.on ∈ (s.pc u).polls →
    s.Due u fd → s'.Due u fd

variable {s s' s'' : State} {t u : TaskId} {w : Waitable}

theorem SameKind.trans {x x' x'' : Source} (h1 : SameKind x x') (h2 : SameKind x' x'') :
    SameKind x x'' := by
  rcases h1 with h1 | ⟨h1, h3⟩
  · exact h2.imp (·.trans h1) (And.imp_left h1.symm.trans)
  · refine .inr ⟨h1, h2.elim (·.trans h3) And.right⟩

theorem Frame.trans (h1 : Frame s s' u) (h2 : Frame s' s'' u) : Frame s s'' u where
  short := fun pre => h2.short (h1.short pre)
  pc := h2.pc.trans h1.pc
  blocked := fun now => h1.blocked (h2.blocked now)
  deadline := by
    have hs := h2.blocked
    have was := h1.blocked
    rcases h1.deadline with eq | ⟨pre, after⟩
    · rcases h2.deadline with eq' | ⟨pre, after⟩
      · exact .inl (eq'.trans eq)
      · exact .inr ⟨was pre, after⟩
    · refine .inr ⟨pre, ?_⟩
      rw [after] at hs
      simpa using hs
  waiters := fun w mem => h2.waiters w (h1.waiters w mem)
  keeps := fun w now held => h2.keeps w now (h1.keeps w (h2.blocked now) held)
  relies := fun w held => h1.relies w (h2.relies w held)
  slotDue := fun w held due => h2.slotDue w held (h1.slotDue w (h2.relies w held) due)
  kind := fun q => (h1.kind q).trans (h2.kind q)
  tails := fun q => by
    rcases h2.tails q with eq | ⟨due, polled⟩
    · refine (h1.tails q).imp eq.trans (And.imp (fun due held => ?_) fun due fd here looks => ?_)
      · exact h2.slotDue _ held (due (h2.relies _ held))
      · exact h2.queueDue fd (.inr (h1.pc ▸ looks)) (due fd here looks)
    · exact .inr ⟨due, fun fd here looks => polled fd here (h1.pc ▸ looks)⟩
  queueDue := fun fd waits due => by
    refine h2.queueDue fd ?_ (h1.queueDue fd ?_ due)
    · exact waits.imp (And.imp_right (h1.waiters _)) (h1.pc ▸ ·)
    · exact waits.imp_left (And.imp_left h2.blocked)

structure Events.Within (e e' : Events) : Prop where
  input : e.input = true → e'.input = true
  output : e.output = true → e'.output = true
  hup : e.hup = true → e'.hup = true

structure DataChange (s s' : State) (grown : Option Waitable) : Prop where
  slot : s'.slot = s.slot
  waiters : s'.waiters = s.waiters
  pc : s'.pc = s.pc
  blocked : s'.blocked = s.blocked
  deadline : s'.deadline = s.deadline
  wakers : s'.wakers = s.wakers
  events : ∀ v, some v ≠ grown → (s'.events v).Within (s.events v)
  kind : ∀ q, SameKind (s.source q) (s'.source q)
  tails : ∀ q, some (.source q) ≠ grown → (s'.source q).tail = (s.source q).tail

variable {grown : Option Waitable} {x : Source} {k : Waker} {n : Nat}

theorem DataChange.ready {v : Waitable} (hc : DataChange s s' grown) (other : some v ≠ grown)
    (now : s'.ready v = true) : s.ready v = true := by
  cases v with
  | writeEnd p => exact (hc.events _ other).output now
  | readEnd _ | source _ | timer => exact (hc.events _ other).input now

theorem DataChange.revents {fd : Pollfd} (hc : DataChange s s' grown)
    (other : some fd.on ≠ grown) (now : s'.revents fd = true) : s.revents fd = true := by
  have hw := hc.events _ other
  simp only [State.revents, Bool.or_eq_true, Bool.and_eq_true] at now ⊢
  exact now.imp (Or.imp (And.imp_left hw.input) (And.imp_left hw.output)) hw.hup

theorem Events.Within.rfl {e : Events} : e.Within e := ⟨id, id, id⟩

theorem DataChange.refl : DataChange s s grown :=
  ⟨rfl, rfl, rfl, rfl, rfl, rfl, fun _ _ => .rfl, fun _ => .inl rfl, fun _ _ => rfl⟩

theorem SameKind.slotted (kind : ∀ q, SameKind (s.source q) (s'.source q)) :
    s'.slotted w = s.slotted w := by
  cases w with
  | source q => rcases kind q with eq | ⟨eq, eq'⟩ <;> simp_all [State.slotted]
  | readEnd _ | writeEnd _ | timer => rfl

/-! ### The updates, seen by another task -/

/-- New events come where nobody relies on the slot or a waker is on its way to it, and on its
way to the queue. -/
theorem frame_change (hc : DataChange s s' grown)
    (hw : ∀ w ∈ grown, (¬ s.Relies u w ∨ .slot w ∈ s.wakers) ∧
      (.slot w ∈ s.wakers ∨ .queue w ∈ s.wakers)) : Frame s s' u := by
  have relies (w : Waitable) (held : s'.Relies u w) : s.Relies u w := by
    simpa [State.Relies, hc.slot, hc.blocked, hc.wakers, hc.pc, SameKind.slotted hc.kind] using held
  have slotted (w : Waitable) (here : some w = grown) (held : s'.Relies u w) : s'.SlotDue w := by
    intro _
    rw [hc.wakers]
    exact (hw w here.symm).1.resolve_left (absurd (relies w held))
  have polled (fd : Pollfd) (here : some fd.on = grown) : s'.Due u fd := by
    intro _
    rw [State.QueueDue, hc.wakers]
    rcases (hw fd.on here.symm).2 with slot | queue
    · exact ⟨_, slot, by simp [Waker.reaches]⟩
    · exact ⟨_, queue, by simp [Waker.reaches]⟩
  refine ⟨by simp [hc.waiters], by rw [hc.pc], by simp [hc.blocked], .inl (by rw [hc.deadline]),
    by simp [hc.waiters], by simp [hc.slot], relies, fun w held due => ?_, hc.kind, fun q => ?_,
    fun fd _ due => ?_⟩
  · by_cases here : some w = grown
    · exact slotted w here held
    · exact fun now => hc.wakers ▸ due (hc.ready here now)
  · by_cases here : some (.source q) = grown
    · exact .inr ⟨slotted _ here, fun fd eq _ => polled fd (eq ▸ here)⟩
    · exact .inl (hc.tails q here)
  · by_cases here : some fd.on = grown
    · exact polled fd here
    · intro now
      rw [State.QueueDue, hc.wakers]
      exact due (hc.revents here now)

theorem frame_within (hc : DataChange s s' none) : Frame s s' u := frame_change hc nofun

theorem frame_refl : Frame s s u := frame_within .refl

theorem goto_of_ne {pc : Pc} (other : u ≠ t) : (s.goto t pc).pc u = s.pc u := update_of_ne other ..

theorem frame_goto {pc : Pc} (other : u ≠ t) : Frame s (s.goto t pc) u :=
  { frame_refl with
    pc := goto_of_ne other
    relies := fun w held => by
      rwa [State.Relies, goto_of_ne other] at held
    slotDue := fun _ _ => id
    tails := fun _ => .inl rfl }

theorem frame_setBlocked {b : TaskId → Bool} (hb : b u = true → s.blocked u = true) :
    Frame s { s with blocked := b } u where
  short := id
  pc := rfl
  blocked := hb
  deadline := .inl rfl
  waiters := fun _ => id
  keeps := fun _ _ => id
  relies := fun _ held => held.imp_right (And.imp_right (Or.imp_left hb))
  slotDue := fun _ _ => id
  kind := fun _ => .inl rfl
  tails := fun _ => .inl rfl
  queueDue := fun _ _ => id

theorem frame_schedBlock (other : u ≠ t) : Frame s (s.schedBlock t) u :=
  frame_setBlocked (by simp [other])

theorem frame_setDeadline {v : Bool} (other : u ≠ t) : Frame s (s.setDeadline t v) u :=
  { frame_refl with deadline := .inl (update_of_ne other ..) }

theorem schedWake_blocked : (s.schedWake t).blocked u = (decide (u ≠ t) && s.blocked u) := by
  by_cases eq : u = t <;> simp [schedWake, eq]

theorem frame_schedWake : Frame s (s.schedWake t) u :=
  frame_setBlocked fun now => (Bool.and_eq_true_iff.mp (schedWake_blocked.symm.trans now)).2

theorem setSlot_slot {v : Option TaskId} {x : Waitable} :
    (s.setSlot w v).slot x = if x = w then v else s.slot x :=
  update_apply s.slot w v x

theorem frame_setSlot {v : Option TaskId} (ha : s.slot w = some u → s.blocked u = false)
    (own : v ≠ some u) : Frame s (s.setSlot w v) u :=
  { frame_refl with
    keeps := fun x now held => by
      rw [setSlot_slot]
      split
      · next eq => exact absurd now (by simp [setSlot, ha (eq ▸ held)])
      · exact held
    relies := by
      rintro x (looks | ⟨held, live⟩)
      · exact .inl looks
      rw [setSlot_slot] at held
      split at held
      · exact absurd held own
      · exact .inr ⟨held, live⟩
    slotDue := fun _ _ => id
    tails := fun _ => .inl rfl }

theorem frame_setWaiters {l : List TaskId} (kept : u ∈ s.waiters w → u ∈ l)
    (few : (s.waiters w).length < snapSize → l.length < snapSize) :
    Frame s (s.setWaiters w l) u :=
  { frame_refl with
    short := fun pre x => by
      by_cases eq : x = w
      · subst eq
        simpa [setWaiters] using few (pre x)
      · simpa [setWaiters, eq] using pre x
    waiters := fun x mem => by
      by_cases eq : x = w
      · subst eq
        simpa [setWaiters] using kept mem
      · simpa [setWaiters, eq] using mem
    queueDue := fun _ _ => id }

theorem wakeSlot_slot {v : Waitable} :
    (s.wakeSlot w).slot v = if v = w then none else s.slot v := by
  rw [wakeSlot]
  split
  · by_cases eq : v = w <;> simp [setSlot, schedWake, eq]
  · next he =>
    by_cases eq : v = w <;> simp [eq, he]

theorem wakeSlot_blocked :
    (s.wakeSlot w).blocked u = if s.slot w = some u then false else s.blocked u := by
  rw [wakeSlot]
  split
  · next t held =>
    by_cases eq : u = t
    · simp [held, eq, setSlot, schedWake]
    · simp [held, eq, Ne.symm eq, setSlot, schedWake]
  · next he => simp [he]

theorem wakeSlot_same : (s.wakeSlot w).pipe = s.pipe ∧ (s.wakeSlot w).source = s.source ∧
    (s.wakeSlot w).waiters = s.waiters ∧ (s.wakeSlot w).pc = s.pc ∧
    (s.wakeSlot w).deadline = s.deadline ∧ (s.wakeSlot w).wakers = s.wakers := by
  rw [wakeSlot]
  split <;> exact ⟨rfl, rfl, rfl, rfl, rfl, rfl⟩

theorem events_congr (pipe : s'.pipe = s.pipe) (source : s'.source = s.source) :
    s'.events = s.events := by
  funext w
  cases w <;> simp [events, pipe, source]

theorem ready_congr (events : s'.events = s.events) : s'.ready = s.ready := by
  funext w
  cases w <;> simp [ready, events]

theorem revents_congr (events : s'.events = s.events) : s'.revents = s.revents := by
  funext fd
  simp [revents, events]

theorem wakeSlot_events : (s.wakeSlot w).events = s.events :=
  events_congr wakeSlot_same.1 wakeSlot_same.2.1

theorem wakeSlot_looks {v : Waitable} :
    ((s.wakeSlot w).slotted v = true ∧ v ∈ ((s.wakeSlot w).pc u).receives) =
      (s.slotted v = true ∧ v ∈ (s.pc u).receives) := by
  obtain ⟨-, source, -, pc, -⟩ := @wakeSlot_same s w
  cases v <;> simp [State.slotted, source, pc]

theorem frame_wakeSlot : Frame s (s.wakeSlot w) u where
  short := by simp [wakeSlot_same.2.2.1]
  pc := by rw [wakeSlot_same.2.2.2.1]
  blocked := by simp [wakeSlot_blocked]
  deadline := .inl (by rw [wakeSlot_same.2.2.2.2.1])
  waiters := by simp [wakeSlot_same.2.2.1]
  keeps := fun x now held => by
    rw [wakeSlot_blocked] at now
    rw [wakeSlot_slot]
    split
    · next eq => simp [← eq, held] at now
    · exact held
  relies := by
    rintro x (looks | ⟨held, live⟩)
    · exact .inl (wakeSlot_looks ▸ looks)
    rw [wakeSlot_slot] at held
    rw [wakeSlot_blocked, wakeSlot_same.2.2.2.2.2] at live
    split at held
    · cases held
    · exact .inr ⟨held, live.imp_left (by simp)⟩
  slotDue := fun x _ due => by
    rw [State.SlotDue, ready_congr wakeSlot_events, wakeSlot_same.2.2.2.2.2]
    exact due
  kind := fun _ => .inl (by rw [wakeSlot_same.2.1])
  tails := fun _ => .inl (by rw [wakeSlot_same.2.1])
  queueDue := fun fd _ due => by
    rw [State.Due, State.QueueDue, revents_congr wakeSlot_events, wakeSlot_same.2.2.2.2.2]
    exact due

theorem frame_begin : Frame s (s.begin k) u :=
  { frame_refl with
    relies := fun w held => by
      refine held.imp_right (And.imp_right (Or.imp_right fun none pre => none ?_))
      exact .tail _ pre
    slotDue := fun w _ due now => .tail _ (due now)
    queueDue := fun fd _ due now => by
      obtain ⟨j, mem, hr⟩ := due now
      exact ⟨j, .tail _ mem, hr⟩
    tails := fun _ => .inl rfl }

theorem DataChange.wakeSlot (hc : DataChange s s' grown) :
    DataChange (s.wakeSlot w) (s'.wakeSlot w) grown where
  slot := by
    funext v
    rw [wakeSlot_slot, wakeSlot_slot, hc.slot]
  waiters := by rw [wakeSlot_same.2.2.1, wakeSlot_same.2.2.1, hc.waiters]
  pc := by rw [wakeSlot_same.2.2.2.1, wakeSlot_same.2.2.2.1, hc.pc]
  blocked := by
    funext v
    rw [wakeSlot_blocked, wakeSlot_blocked, hc.slot, hc.blocked]
  deadline := by rw [wakeSlot_same.2.2.2.2.1, wakeSlot_same.2.2.2.2.1, hc.deadline]
  wakers := by rw [wakeSlot_same.2.2.2.2.2, wakeSlot_same.2.2.2.2.2, hc.wakers]
  events := by simpa only [wakeSlot_events] using hc.events
  kind := by simpa only [wakeSlot_same.2.1] using hc.kind
  tails := by simpa only [wakeSlot_same.2.1] using hc.tails

theorem DataChange.begin (hc : DataChange s s' grown) :
    DataChange (s.begin k) (s'.begin k) grown where
  slot := hc.slot
  waiters := hc.waiters
  pc := hc.pc
  blocked := hc.blocked
  deadline := hc.deadline
  wakers := congrArg (k :: ·) hc.wakers
  events := hc.events
  kind := hc.kind
  tails := hc.tails

theorem frame_wakeLocked (plain : s.slotted w = false) (hc : DataChange s s' (some w)) :
    Frame s (s'.wakeLocked w) u := by
  have hw : Frame s ((s.wakeSlot w).begin (.queue w)) u := frame_wakeSlot.trans (frame_begin)
  refine hw.trans (frame_change hc.wakeSlot.begin fun v here => ?_)
  obtain rfl : w = v := Option.some.inj here
  refine ⟨.inl ?_, .inr mem_cons_self⟩
  rintro (looks | ⟨held, -⟩)
  · exact absurd (wakeSlot_looks ▸ looks).1 (by simp [plain])
  · exact absurd (wakeSlot_slot.symm.trans held) (by simp)

theorem frame_arrive (hc : DataChange s s' (some w)) : Frame s (s'.begin (.slot w)) u := by
  have hm : Frame s (s.begin (.slot w)) u := frame_begin
  refine hm.trans (frame_change hc.begin fun v here => ?_)
  obtain rfl : w = v := Option.some.inj here
  exact ⟨.inr mem_cons_self, .inl mem_cons_self⟩

theorem mem_erase_wakers {j : Waker} (other : j ≠ k) (mem : j ∈ s.wakers) : j ∈ s.wakers.erase k :=
  (mem_erase_of_ne other).mpr mem

theorem reaches_on {v : Waitable} (hr : k.reaches u v = true) : k.on = v := by
  cases k with simp_all [Waker.reaches, Waker.on]

/-- A waker that becomes another one for the same waitable, when nobody depends on what it was
about to do. -/
theorem frame_replace {next : List Waker}
    (away : k.on ∉ (s.pc u).polls ∧ k.on ∉ (s.pc u).receives)
    (slot : ∀ w, k = .slot w → s.slot w ≠ some u ∨ s.blocked u = false ∧ .clear w ∈ next)
    (clear : ∀ w, k = .clear w → s.slot w ≠ some u)
    (queue : ∀ w, s.blocked u = true → u ∈ s.waiters w → k.reaches u w = true →
      ∃ j ∈ next, j.reaches u w = true) :
    Frame s (s.setWakers (next ++ s.wakers.erase k)) u :=
  { frame_refl with
    relies := by
      rintro w (looks | ⟨held, live⟩)
      · exact .inl looks
      refine .inr ⟨held, live.imp_right fun none pre => ?_⟩
      by_cases eq : .clear w = k
      · exact clear w eq.symm held
      · exact none (mem_append_right _ (mem_erase_wakers eq pre))
    slotDue := fun w held due now => by
      have pre := due now
      by_cases eq : .slot w = k
      · subst eq
        rcases held with looks | ⟨held, live⟩
        · exact absurd looks.2 away.2
        rcases slot w rfl with he | ⟨hw, hc⟩
        · exact absurd held he
        rcases live with ha | none
        · exact absurd ha (by simp [setWakers, hw])
        · exact absurd (mem_append_left _ hc) none
      · exact mem_append_right _ (mem_erase_wakers eq pre)
    queueDue := fun fd waits due now => by
      obtain ⟨j, ht, hr⟩ := due now
      by_cases eq : j = k
      · subst eq
        rcases waits with ⟨ha, mem⟩ | looks
        · obtain ⟨i, new, hr⟩ := queue fd.on ha mem hr
          exact ⟨i, mem_append_left _ new, hr⟩
        · exact absurd (reaches_on hr ▸ looks) away.1
      · exact ⟨j, mem_append_right _ (mem_erase_wakers eq ht), hr⟩
    tails := fun _ => .inl rfl }

theorem frame_advance {j : Waker} (away : k.on ∉ (s.pc u).polls ∧ k.on ∉ (s.pc u).receives)
    (slot : ∀ w, k = .slot w → s.slot w ≠ some u ∨ s.blocked u = false ∧ j = .clear w)
    (clear : ∀ w, k = .clear w → s.slot w ≠ some u)
    (queue : ∀ w, s.blocked u = true → u ∈ s.waiters w → k.reaches u w = true →
      j.reaches u w = true) : Frame s (s.setWakers ([j] ++ s.wakers.erase k)) u := by
  refine frame_replace away (fun w eq => ?_) clear fun w asleep mem reaches => ?_
  · rcases slot w eq with other | ⟨ha, rfl⟩
    · exact .inl other
    · exact .inr ⟨ha, .head _⟩
  · exact ⟨j, .head _, queue w asleep mem reaches⟩

/-! ### The changes of the data -/

theorem setSource_change {q : SourceId} (kind : SameKind (s.source q) x) :
    DataChange s (s.setSource q x) (some (.source q)) :=
  { @DataChange.refl s (some (.source q)) with
    events := fun v other => by
      cases v with
      | source r =>
        have ha : r ≠ q := fun eq => other (eq ▸ rfl)
        simp only [events, setSource, update_of_ne ha]
        exact .rfl
      | readEnd p => exact .rfl
      | writeEnd p => exact .rfl
      | timer => exact .rfl
    kind := fun r => by
      by_cases eq : r = q
      · subst eq
        simpa only [setSource, update_self] using kind
      · exact .inl (by simp only [setSource, update_of_ne eq])
    tails := fun r other => by
      have ha : r ≠ q := fun eq => other (eq ▸ rfl)
      simp only [setSource, update_of_ne ha] }

theorem setHead_change {q : SourceId}
    (hw : Events.Within (Source.events { s.source q with head := n }) (s.source q).events) :
    DataChange s (s.setSource q { s.source q with head := n }) none := by
  have wide : DataChange s (s.setSource q { s.source q with head := n }) (some (.source q)) :=
    setSource_change (.inl rfl)
  refine { wide with events := fun v _ => ?_, tails := fun r _ => ?_ }
  · by_cases eq : v = .source q
    · subst eq
      simpa only [events, setSource, update_self] using hw
    · exact wide.events v (by simpa using eq)
  · by_cases eq : r = q
    · subst eq
      simp only [setSource, update_self]
    · exact wide.tails r (by simpa using eq)

theorem setPipe_change {p : PipeId} {x : Pipe}
    (read : some (.readEnd p) ≠ grown → x.readEvents.Within (s.pipe p).readEvents)
    (hw : some (.writeEnd p) ≠ grown → x.writeEvents.Within (s.pipe p).writeEvents) :
    DataChange s (s.setPipe p x) grown :=
  { @DataChange.refl s grown with
    events := fun v other => by
      cases v with
      | readEnd r =>
        by_cases eq : r = p
        · subst eq
          simpa only [events, setPipe, update_self] using read other
        · simp only [events, setPipe, update_of_ne eq]
          exact .rfl
      | writeEnd r =>
        by_cases eq : r = p
        · subst eq
          simpa only [events, setPipe, update_self] using hw other
        · simp only [events, setPipe, update_of_ne eq]
          exact .rfl
      | source q => exact .rfl
      | timer => exact .rfl }

open Source

theorem Source.setHead_within
    (input : (events { x with head := n }).input = true → x.events.input = true) :
    Events.Within (events { x with head := n }) x.events := by
  obtain ⟨kind, head, tail, hc⟩ := x
  cases kind <;> exact ⟨input, id, id⟩

theorem Source.take_within (some : n = x.tail ∨ x.events.input = true) :
    Events.Within (events { x with head := n }) x.events := by
  refine setHead_within fun now => some.elim (fun last => ?_) id
  obtain ⟨kind, head, tail, hc⟩ := x
  subst last
  cases kind with
  | stream | terminal =>
    have ended : hc = true := by simpa [events, avail] using now
    simp [events, ended]
  | listener | dgram | connecting | unixListener | unixStream => simp [events] at now

theorem Source.consume_within (hs : x.avail ≠ 0) :
    Events.Within (events { x with head := n }) x.events := by
  refine setHead_within fun now => ?_
  obtain ⟨kind, head, tail, hc⟩ := x
  have hp : head ≠ tail := by
    rintro rfl
    simp [avail] at hs
  cases kind <;> simp_all [events]

theorem Source.drain_within (hs : x.head + n ≤ x.tail) (other : x.kind ≠ .stream) :
    Events.Within (events { x with head := x.head + n }) x.events := by
  refine setHead_within fun now => ?_
  obtain ⟨kind, head, tail, hc⟩ := x
  by_cases he : head = tail
  · obtain rfl : n = 0 := by
      dsimp only at hs
      omega
    exact now
  · cases kind <;> simp_all [events]

end Aegis.BlockWake
