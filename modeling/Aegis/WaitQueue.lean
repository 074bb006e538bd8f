import Aegis.RunQueueRun

/-! Wait queues entry by entry: `waitq_add` on the raw links, and the batches of
`waitq_wake_all`. `Holds` ties the links to the list of the entries, in queue order; adding is
then a cons. Nobody changes the queue while `waitq_wake_all` runs. -/

namespace Aegis.WaitQueue

open Sched List

abbrev EntryId := Nat

structure Entry where
  task : Option TaskId
  next : Option EntryId
  prev : Option EntryId
  onQueue : Bool

@[ext] structure Waitq where
  head : Option EntryId
  entry : EntryId → Entry

def setEntry (q : Waitq) (e : EntryId) (f : Entry → Entry) : Waitq :=
  { q with entry := Function.update q.entry e (f (q.entry e)) }

def linkPrev (q : Waitq) (prev next : Option EntryId) : Waitq :=
  match next with
  | some n => setEntry q n fun x => { x with prev := prev }
  | none => q

def waitqAdd (q : Waitq) (e : EntryId) : Waitq :=
  let first := setEntry q e fun x => { x with prev := none, next := q.head }
  let linked := linkPrev first (some e) q.head
  setEntry { linked with head := some e } e fun x => { x with onQueue := true }

/-- The entries of the list, linked both ways from `first`, which follows `before`. -/
def Linked (entry : EntryId → Entry) : Option EntryId → Option EntryId → List EntryId → Prop
  | _, first, [] => first = none
  | before, first, e :: es =>
    first = some e ∧ (entry e).prev = before ∧ Linked entry (some e) (entry e).next es

structure Holds (q : Waitq) (es : List EntryId) : Prop where
  linked : Linked q.entry none q.head es
  nodup : es.Nodup
  onQueue : ∀ e, (q.entry e).onQueue = true ↔ e ∈ es

variable {entry entry' : EntryId → Entry} {before first : Option EntryId} {q : Waitq}
  {e x y : EntryId} {es : List EntryId}

theorem Linked.congr (hl : Linked entry before first es)
    (next : ∀ x ∈ es, (entry' x).next = (entry x).next)
    (prev : ∀ x ∈ es, (entry' x).prev = (entry x).prev) : Linked entry' before first es := by
  induction es generalizing before first with
  | nil => exact hl
  | cons y es ih =>
    obtain ⟨hs, back, rest⟩ := hl
    refine ⟨hs, (prev y (.head _)).trans back, ?_⟩
    rw [next y (mem_cons_self ..)]
    exact ih rest (fun x mem => next x (.tail _ mem)) fun x mem => prev x (.tail _ mem)

theorem Linked.first_mem (hl : Linked entry before first es) (hs : first = some y) : y ∈ es := by
  cases es with
  | nil =>
    rw [hs] at hl
    cases hl
  | cons z es =>
    cases hl.1.symm.trans hs
    exact .head _

theorem setEntry_entry {f : Entry → Entry} :
    (setEntry q e f).entry x = if x = e then f (q.entry x) else q.entry x := by
  by_cases eq : x = e
  · simp [eq, setEntry]
  · simp [eq, setEntry]

theorem linkPrev_entry {prev next : Option EntryId} : (linkPrev q prev next).entry x =
      if next = some x then { q.entry x with prev := prev } else q.entry x := by
  cases next with
  | none => rfl
  | some n => simp [linkPrev, setEntry_entry, eq_comm]

theorem waitqAdd_self (hn : q.head ≠ some e) :
    (waitqAdd q e).entry e = ⟨(q.entry e).task, q.head, none, true⟩ := by
  simp [waitqAdd, setEntry_entry, linkPrev_entry, hn]

theorem waitqAdd_other (other : x ≠ e) : (waitqAdd q e).entry x =
      if q.head = some x then { q.entry x with prev := some e } else q.entry x := by
  simp [waitqAdd, setEntry_entry, linkPrev_entry, other]

theorem Holds.add (hh : Holds q es) (free : (q.entry e).onQueue = false) :
    Holds (waitqAdd q e) (e :: es) := by
  have out : e ∉ es := fun mem => by simp [(hh.onQueue e).mpr mem] at free
  have hn : q.head ≠ some e := fun hs => out (hh.linked.first_mem hs)
  have other : ∀ x ∈ es, x ≠ e := fun x mem eq => out (eq ▸ mem)
  refine ⟨⟨rfl, ?_, ?_⟩, nodup_cons.mpr ⟨out, hh.nodup⟩, fun x => ?_⟩
  · rw [waitqAdd_self hn]
  · rw [waitqAdd_self hn]
    have hl := hh.linked
    have nodup := hh.nodup
    cases es with
    | nil => exact hl
    | cons y es =>
      obtain ⟨hs, back, rest⟩ := hl
      have ha : ∀ x ∈ es, q.head ≠ some x := by
        intro x mem eq
        cases hs.symm.trans eq
        exact (nodup_cons.mp nodup).1 mem
      refine ⟨hs, ?_, ?_⟩
      · rw [waitqAdd_other (other y (mem_cons_self ..)), if_pos hs]
      rw [waitqAdd_other (other y (mem_cons_self ..)), if_pos hs]
      refine rest.congr (fun x mem => ?_) fun x mem => ?_ <;>
        rw [waitqAdd_other (other x (mem_cons_of_mem y mem)), if_neg (ha x mem)]
  · by_cases eq : x = e
    · simp [eq, waitqAdd_self hn]
    · rw [waitqAdd_other eq, mem_cons, ← hh.onQueue x]
      split <;> simp [eq]

def waitqInit (entry : EntryId → Entry) : Waitq where
  head := none
  entry := fun e => { entry e with onQueue := false }

theorem waitqInit_holds : Holds (waitqInit entry) [] where
  linked := rfl
  nodup := nodup_nil
  onQueue e := by simp [waitqInit]

def snapSize : Nat := 64

def snapshot (entry : EntryId → Entry) : Nat → Option EntryId → List (Option TaskId)
  | 0, _ => []
  | _ + 1, none => []
  | n + 1, some e => (entry e).task :: snapshot entry n (entry e).next

/-- The state is the kernel and the tasks `sched_wake` was called on so far; `fuel` bounds
the number of batches. Every batch starts again at the head of the queue. -/
def waitqWakeAll : Nat → Waitq → Kernel × List TaskId → Option (Kernel × List TaskId)
  | 0, _, _ => none
  | fuel + 1, q, (k, woken) =>
    let snap := snapshot q.entry snapSize q.head
    if snap.length = 0 then some (k, woken)
    else
      let tasks := snap.filterMap id
      let next := (wakeAll k tasks, woken ++ tasks)
      if snap.length < snapSize then some next else waitqWakeAll fuel q next

def tasks (q : Waitq) (es : List EntryId) : List TaskId :=
  es.filterMap fun e => (q.entry e).task

theorem mem_tasks {t : TaskId} : t ∈ tasks q es ↔ ∃ e ∈ es, (q.entry e).task = some t :=
  mem_filterMap

theorem Linked.snapshot (hl : Linked entry before first es) (n : Nat) :
    snapshot entry n first = (es.take n).map fun e => (entry e).task := by
  induction es generalizing before first n with
  | nil =>
    obtain rfl := hl
    cases n <;> rfl
  | cons e es ih =>
    obtain ⟨rfl, -, rest⟩ := hl
    cases n with
    | zero => rfl
    | succ n => simp [WaitQueue.snapshot, ih rest n]

theorem Holds.snapshot_length (hh : Holds q es) :
    (snapshot q.entry snapSize q.head).length = min snapSize es.length := by
  rw [hh.linked.snapshot, length_map, length_take]

theorem waitqWakeAll_short {k : Kernel} {fuel : Nat} (hh : Holds q es) (hs : es.length < snapSize) :
    waitqWakeAll (fuel + 1) q (k, []) = some (wakeAll k (tasks q es), tasks q es) := by
  have hw : es.take snapSize = es := take_of_length_le hs.le
  have snap := hh.linked.snapshot snapSize
  rw [hw] at snap
  simp only [waitqWakeAll, snap, length_map, hs, if_true, filterMap_map, nil_append]
  split
  · next he => simp [length_eq_zero_iff.mp he, tasks, wakeAll]
  · rfl

theorem waitqWakeAll_long (hh : Holds q es) (long : snapSize ≤ es.length) (fuel : Nat)
    (s : Kernel × List TaskId) : waitqWakeAll fuel q s = none := by
  induction fuel generalizing s with
  | zero => rfl
  | succ fuel ih =>
    have full : (snapshot q.entry snapSize q.head).length = snapSize := by
      rw [hh.snapshot_length, min_eq_left long]
    simp only [waitqWakeAll, full, lt_irrefl, if_false, ih]
    exact if_neg (by decide)

def pollers (n : Nat) : Waitq :=
  (List.range n).foldl waitqAdd (waitqInit fun e => ⟨some e, none, none, false⟩)

theorem pollers_holds (n : Nat) : Holds (pollers n) (range n).reverse := by
  induction n with
  | zero => exact waitqInit_holds
  | succ n ih =>
    have free : ((pollers n).entry n).onQueue = false := by
      simpa using (ih.onQueue n).not.mpr (by simp)
    have ha := ih.add free
    simpa [pollers, range_succ, foldl_append] using ha

theorem waitq_wake_all_iff (holds : Holds q es) (k : Kernel) :
    (∃ fuel woken, waitqWakeAll fuel q (k, []) = some (wakeAll k woken, woken) ∧
      ∀ e ∈ es, ∀ t, (q.entry e).task = some t → t ∈ woken) ↔ es.length < snapSize := by
  constructor
  · intro returns
    obtain ⟨fuel, woken, ends, -⟩ := returns
    by_contra long
    rw [waitqWakeAll_long holds (Nat.le_of_not_lt long)] at ends
    cases ends
  · intro short
    refine ⟨1, tasks q es, waitqWakeAll_short holds short, fun e member t named => ?_⟩
    exact mem_tasks.mpr ⟨e, member, named⟩

theorem waitq_wake_all_iff_pollers : ∃ fuel woken, waitqWakeAll fuel (pollers 63) (schedInit, []) =
        some (wakeAll schedInit woken, woken) ∧
      ∀ e ∈ (List.range 63).reverse, ∀ t, ((pollers 63).entry e).task = some t → t ∈ woken :=
  (waitq_wake_all_iff (pollers_holds 63) schedInit).mpr (by simp [snapSize])

/-- One `sys_poll` on 64 descriptors of one pipe is enough. -/
theorem waitq_wake_all_spins : Holds (pollers 64) (List.range 64).reverse ∧
      ∀ fuel, waitqWakeAll fuel (pollers 64) (schedInit, []) = none :=
  ⟨pollers_holds 64, fun fuel => waitqWakeAll_long (pollers_holds 64) (by simp [snapSize]) fuel _⟩

end Aegis.WaitQueue
