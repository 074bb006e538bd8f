import Aegis.Descriptors
import Aegis.LabelledRun

/-! Pseudo-terminal pairs and the descriptors of their two sides: `pty.c`, with the
descriptor calls that run its dup and close hooks. `pts_open` works under the lock of the
pool and the hooks under the lock of the pair, so a close can fall between the tests of
`pts_open` and its writes; the open is two steps here. `Counted` says that each count is the
number of descriptors of its side and that a side is open while it has one. -/

namespace Aegis.Pty

open LabelledRun Descriptors Function List Option

def ptyMaxPairs : Nat := 16

def procMaxFds : Nat := 16

inductive Side
  | master
  | slave
  deriving DecidableEq

def Side.other : Side → Side
  | .master => .slave
  | .slave => .master

inductive File
  | pty (pair : Nat) (side : Side)
  | plain
  deriving DecidableEq

structure SideState where
  isOpen : Bool
  refs : Nat

structure PtyPair where
  side : Side → SideState
  locked : Bool
  inUse : Bool

namespace PtyPair

variable (p : PtyPair)

def setSide (a : Side) (state : SideState) : PtyPair :=
  { p with side := update p.side a state }

def dupFn (a : Side) : PtyPair :=
  p.setSide a { p.side a with refs := ((p.side a).refs + 1) % 256 }

def masterDupFn : PtyPair := p.dupFn .master

def slaveDupFn : PtyPair := p.dupFn .slave

/-- The last reference of a side hangs it up; the pair is free once both sides are closed. -/
def closeFn (a : Side) : PtyPair :=
  if 1 < (p.side a).refs then p.setSide a { p.side a with refs := (p.side a).refs - 1 }
  else
    { p.setSide a ⟨false, 0⟩ with
      inUse := if (p.side a.other).isOpen then p.inUse else false }

def masterCloseFn : PtyPair := p.closeFn .master

def slaveCloseFn : PtyPair := p.closeFn .slave

/-- `master_poll_fn` and `slave_poll_fn`, with the bytes in the ring that the side reads. -/
def pollFn (a : Side) (ringCount : Nat) : Nat :=
  let gone := !(p.side a.other).isOpen
  0x0004 ||| (if 0 < ringCount ∨ gone then 0x0001 else 0) ||| (if gone then 0x0010 else 0)

/-- A read finds nothing and does not wait: end-of-file for the master (0), hang-up for the
slave (`EIO`). -/
def readEnds (a : Side) (ringCount : Nat) : Bool :=
  ringCount == 0 && !(p.side a.other).isOpen

end PtyPair

def freshPair : PtyPair where
  side
    | .master => ⟨true, 1⟩
    | .slave => ⟨false, 0⟩
  locked := true
  inUse := true

/-- A `pts_open` behind its tests: the table and number it opens for, and the pair. It holds
the lock of the pool. -/
structure Opening where
  table : Nat
  fd : Nat
  pair : Nat

structure PtyState where
  pairs : Nat → PtyPair
  fds : List (Descriptor File)
  opening : Option Opening

def ptyBoot : PtyState where
  pairs _ := ⟨fun _ => ⟨false, 0⟩, false, false⟩
  fds := []
  opening := none

def dupFile (pairs : Nat → PtyPair) : File → Nat → PtyPair
  | .pty k a => update pairs k ((pairs k).dupFn a)
  | .plain => pairs

def closeFile (pairs : Nat → PtyPair) : File → Nat → PtyPair
  | .pty k a => update pairs k ((pairs k).closeFn a)
  | .plain => pairs

namespace PtyState

variable (s : PtyState)

def freePair : Option Nat :=
  (List.range ptyMaxPairs).find? fun k => !(s.pairs k).inUse

def ptmxOpen (T : Nat) : PtyState :=
  match freeFd s.fds T procMaxFds, s.freePair with
  | some fd, some k =>
    { s with
      pairs := update s.pairs k freshPair
      fds := ⟨T, fd, .pty k .master⟩ :: s.fds }
  | _, _ => s

def ptsLookup (T k : Nat) : PtyState :=
  match freeFd s.fds T procMaxFds with
  | some fd =>
    if k < ptyMaxPairs ∧ (s.pairs k).inUse ∧ ((s.pairs k).side .master).isOpen ∧
        !(s.pairs k).locked then
      { s with opening := some ⟨T, fd, k⟩ }
    else s
  | none => s

def ptsFinish (o : Opening) : PtyState :=
  { pairs := update s.pairs o.pair ((s.pairs o.pair).setSide .slave ⟨true, 1⟩)
    fds := ⟨o.table, o.fd, .pty o.pair .slave⟩ :: s.fds
    opening := none }

def setLocked (T i : Nat) (locked : Bool) : PtyState :=
  match fileAt s.fds T i with
  | some (.pty k .master) =>
    { s with pairs := update s.pairs k { s.pairs k with locked := locked } }
  | _ => s

def openPlain (T : Nat) : PtyState :=
  match freeFd s.fds T procMaxFds with
  | some fd => { s with fds := ⟨T, fd, .plain⟩ :: s.fds }
  | none => s

def copyTo (f : File) (T i : Nat) : PtyState :=
  { s with pairs := dupFile s.pairs f, fds := ⟨T, i, f⟩ :: s.fds }

def sysDup (T i : Nat) : PtyState :=
  match fileAt s.fds T i, freeFd s.fds T procMaxFds with
  | some f, some fd => s.copyTo f T fd
  | _, _ => s

def sysClose (T i : Nat) : PtyState :=
  match fileAt s.fds T i with
  | some f => { s with pairs := closeFile s.pairs f, fds := closeAt s.fds T i }
  | none => s

def sysDup2 (T old new : Nat) : PtyState :=
  match fileAt s.fds T old with
  | some f => if procMaxFds ≤ new ∨ old = new then s else (s.sysClose T new).copyTo f T new
  | none => s

def dupTable (T : Nat) : Nat → PtyPair :=
  (tableFiles s.fds T).foldl dupFile s.pairs

def sysFork (T U : Nat) : PtyState :=
  { s with pairs := s.dupTable T, fds := copyTable s.fds T U }

/-- A fork that fails behind `fd_table_copy`: the copy is freed with its slots open. -/
def forkFails (T : Nat) : PtyState :=
  { s with pairs := s.dupTable T }

def busy (T : Nat) : Bool :=
  (s.opening.filter fun o => o.table = T).isSome

end PtyState

/-- A call by the process of table `caller`. An exit closes the places one by one. -/
inductive PtyCall
  | ptmx
  | ptsLookup (pair : Nat)
  | ptsFinish
  | setLocked (i : Nat) (locked : Bool)
  | openPlain
  | dup (i : Nat)
  | dup2 (old new : Nat)
  | fork (child : Nat)
  | forkFails
  | close (i : Nat)
  deriving DecidableEq

structure PtyEvent where
  caller : Nat
  call : PtyCall

/-- A call of a process that is not inside `pts_open`. Both opens wait for the lock of the
pool. -/
def PtyState.call (s : PtyState) (T : Nat) : PtyCall → Option PtyState
  | .ptmx => if s.opening.isSome then none else some (s.ptmxOpen T)
  | .ptsLookup k => if s.opening.isSome then none else some (s.ptsLookup T k)
  | .ptsFinish => none
  | .setLocked i locked => some (s.setLocked T i locked)
  | .openPlain => some (s.openPlain T)
  | .dup i => some (s.sysDup T i)
  | .dup2 old new => some (s.sysDup2 T old new)
  | .fork child =>
    if Unused s.fds child ∧ s.busy child = false then some (s.sysFork T child) else none
  | .forkFails => some (s.forkFails T)
  | .close i => some (s.sysClose T i)

def ptyStep (s : PtyState) (event : PtyEvent) : Option PtyState :=
  match s.opening.filter fun o => o.table = event.caller with
  | some o => if event.call = .ptsFinish then some (s.ptsFinish o) else none
  | none => s.call event.caller event.call

structure Tracks (p : PtyPair) (n : Side → Nat) : Prop where
  refs : ∀ a, (p.side a).refs = n a
  isOpen : ∀ a, (p.side a).isOpen = true ↔ 0 < n a
  inUse : p.inUse = true ↔ ∃ a, 0 < n a
  small : ∀ a, n a ≤ 255

/-- Every count is the number of descriptors of its side. A side hangs up (`POLLHUP`, and the
end of the other side's reads) exactly while the other has none, and a pair is free for
`ptmx_open` exactly while neither has one. -/
structure Lifetime (s : PtyState) : Prop where
  refs : ∀ k a, ((s.pairs k).side a).refs = held s.fds (.pty k a)
  hangUp : ∀ k a ringCount,
    (s.pairs k).pollFn a ringCount &&& 0x0010 = 0x0010 ↔ held s.fds (.pty k a.other) = 0
  ends : ∀ k a ringCount,
    (s.pairs k).readEnds a ringCount = true ↔
      ringCount = 0 ∧ held s.fds (.pty k a.other) = 0
  reuse : ∀ k, (s.pairs k).inUse = false ↔ ∀ a, held s.fds (.pty k a) = 0

structure Counted (s : PtyState) : Prop where
  distinct : Distinct s.fds
  tracks : ∀ k, Tracks (s.pairs k) fun a => held s.fds (.pty k a)
  reserved : ∀ o ∈ s.opening, fileAt s.fds o.table o.fd = none

def refsOf (pairs : Nat → PtyPair) : File → Nat
  | .pty k a => ((pairs k).side a).refs
  | .plain => 0

def Fits (s : PtyState) (f : File) (more : Nat) : Prop :=
  f ≠ .plain → refsOf s.pairs f + more ≤ 255
  deriving Decidable

/-- A slave is opened while it is closed and the master is still open, no count passes 255,
and a fork that fails late has no side of a pair to copy. -/
def PtyKept (s : PtyState) (event : PtyEvent) : Prop :=
  match event.call with
  | .ptsFinish => ∀ o ∈ s.opening,
      ((s.pairs o.pair).side .master).isOpen = true ∧
        ((s.pairs o.pair).side .slave).isOpen = false
  | .dup i => ∀ f ∈ fileAt s.fds event.caller i,
      (freeFd s.fds event.caller procMaxFds).isSome → Fits s f 1
  | .dup2 old new => ∀ f ∈ fileAt s.fds event.caller old,
      new < procMaxFds ∧ old ≠ new → fileAt s.fds event.caller new = some f ∨ Fits s f 1
  | .fork _ => ∀ f ∈ tableFiles s.fds event.caller,
      Fits s f ((tableFiles s.fds event.caller).count f)
  | .forkFails => ∀ f ∈ tableFiles s.fds event.caller, f = .plain
  | _ => True

instance (s : PtyState) (event : PtyEvent) : Decidable (PtyKept s event) := by
  cases event with
  | mk caller call => rcases call <;> (dsimp only [PtyKept]; infer_instance)

section Pair
variable {p : PtyPair} {n : Side → Nat} {a b : Side}

@[simp] theorem side_setSide {state : SideState} :
    (p.setSide a state).side = update p.side a state := rfl

theorem other_ne : a.other ≠ a := by
  cases a <;> simp [Side.other]

theorem exists_side {P : Side → Prop} : (∃ b, P b) ↔ P a ∨ P a.other := by
  constructor
  · rintro ⟨b, hh⟩
    cases a <;> cases b <;> simp_all [Side.other]
  rintro (here | ht)
  · exact ⟨a, here⟩
  · exact ⟨a.other, ht⟩

theorem Tracks.setSide {state : SideState} {count : Nat} (tracks : Tracks p n)
    (refs : state.refs = count) (isOpen : state.isOpen = true ↔ 0 < count)
    (small : count ≤ 255) (used : Bool) (inUse : used = true ↔ 0 < count ∨ 0 < n a.other) :
    Tracks { p.setSide a state with inUse := used } (update n a count) where
  refs b := by
    by_cases here : b = a
    · subst here
      simpa using refs
    · simpa [here] using tracks.refs b
  isOpen b := by
    by_cases here : b = a
    · subst here
      simpa using isOpen
    · simpa [here] using tracks.isOpen b
  inUse := by
    rw [exists_side (a := a), update_self, update_of_ne other_ne]
    exact inUse
  small b := by
    by_cases here : b = a
    · subst here
      simpa using small
    · simpa [here] using tracks.small b

theorem Tracks.dup (tracks : Tracks p n) (held : 0 < n a) (fits : n a + 1 ≤ 255) :
    Tracks (p.dupFn a) (update n a (n a + 1)) := by
  have refs := tracks.refs a
  refine tracks.setSide (a := a) ?_ ?_ fits p.inUse ?_
  · show ((p.side a).refs + 1) % 256 = n a + 1
    omega
  · simp [tracks.isOpen a, held]
  · rw [tracks.inUse, exists_side (a := a)]
    simp [held]

theorem Tracks.close (tracks : Tracks p n) (held : 0 < n a) :
    Tracks (p.closeFn a) (update n a (n a - 1)) := by
  have refs := tracks.refs a
  have lt : n a - 1 ≤ 255 := (Nat.sub_le _ _).trans (tracks.small a)
  by_cases more : 1 < (p.side a).refs
  · rw [PtyPair.closeFn, if_pos more]
    refine tracks.setSide (a := a) ?_ ?_ lt p.inUse ?_
    · show (p.side a).refs - 1 = n a - 1
      rw [refs]
    · show (p.side a).isOpen = true ↔ 0 < n a - 1
      rw [tracks.isOpen a]
      omega
    · rw [tracks.inUse, exists_side (a := a)]
      omega
  · rw [PtyPair.closeFn, if_neg more]
    refine tracks.setSide (a := a) ?_ ?_ lt _ ?_
    · show 0 = n a - 1
      omega
    · show false = true ↔ 0 < n a - 1
      simp
      omega
    · have last : ¬0 < n a - 1 := by omega
      have other := tracks.isOpen a.other
      split
      · next hi =>
        rw [tracks.inUse, exists_side (a := a)]
        simp [held, other.mp hi]
      · next hc =>
        simpa [last] using fun ht => hc (other.mpr ht)

theorem Tracks.openSlave (tracks : Tracks p n) (master : 0 < n .master) :
    Tracks (p.setSide .slave ⟨true, 1⟩) (update n .slave 1) := by
  refine tracks.setSide (a := .slave) rfl (by simp) (by simp) p.inUse ?_
  rw [tracks.inUse, exists_side (a := .slave)]
  simp [Side.other, master]

theorem tracks_fresh : Tracks freshPair fun a => if a = .master then 1 else 0 where
  refs a := by cases a <;> rfl
  isOpen a := by cases a <;> simp [freshPair]
  inUse := ⟨fun _ => ⟨.master, by simp⟩, fun _ => rfl⟩
  small a := by split <;> omega

theorem Tracks.congr {m : Side → Nat} (tracks : Tracks p n) (eq : ∀ a, n a = m a) : Tracks p m := by
  obtain rfl : n = m := funext eq
  exact tracks

end Pair

section State
variable {s t : PtyState} {event : PtyEvent} {T U i k : Nat} {f : File} {a : Side}
  {pairs : Nat → PtyPair} {n : File → Nat}

theorem tracks_update {p : PtyPair} {m : File → Nat}
    (tracks : ∀ k, Tracks (pairs k) fun a => n (.pty k a)) (here : Tracks p fun a => m (.pty k a))
    (ho : ∀ j a, j ≠ k → n (.pty j a) = m (.pty j a)) (j : Nat) :
    Tracks (update pairs k p j) fun a => m (.pty j a) := by
  by_cases eq : j = k
  · subst eq
    rwa [update_self]
  · rw [update_of_ne eq]
    exact (tracks j).congr fun a => ho j a eq

theorem update_side (m : Nat) (b : Side) :
    update (fun a => n (.pty k a)) a m b = update n (.pty k a) m (.pty k b) := by
  by_cases eq : b = a
  · subst eq
    simp
  · simp [eq]

section
variable (tracks : ∀ k, Tracks (pairs k) fun a => n (.pty k a))
include tracks

theorem tracks_dupFile (held : 0 < n f) (fits : f ≠ .plain → n f + 1 ≤ 255) (j : Nat) :
    Tracks (dupFile pairs f j) fun a => update n f (n f + 1) (.pty j a) := by
  cases f with
  | pty k a =>
    refine tracks_update tracks ?_ (fun j b ha => by simp [ha]) j
    exact ((tracks k).dup held (fits (by simp))).congr fun b => update_side _ b
  | plain => exact (tracks j).congr fun b => by simp

theorem tracks_closeFile (held : 0 < n f) (j : Nat) :
    Tracks (closeFile pairs f j) fun a => update n f (n f - 1) (.pty j a) := by
  cases f with
  | pty k a =>
    refine tracks_update tracks ?_ (fun j b ha => by simp [ha]) j
    exact ((tracks k).close held).congr fun b => update_side _ b
  | plain => exact (tracks j).congr fun b => by simp

theorem tracks_dupAll {files : List File} (held : ∀ f ∈ files, 0 < n f)
    (fits : ∀ f ∈ files, f ≠ .plain → n f + files.count f ≤ 255) (j : Nat) :
    Tracks (files.foldl dupFile pairs j) fun a => n (.pty j a) + files.count (.pty j a) := by
  induction files generalizing pairs n with
  | nil => simpa using tracks j
  | cons f files ih =>
    have h1 := tracks_dupFile tracks (held f (by simp)) fun pty => by
      have room := fits f (by simp) pty
      rw [count_cons_self] at room
      omega
    refine (ih h1 (fun g hl => ?_) fun g hl pty => ?_).congr fun a => ?_
    · have pos := held g (.tail _ hl)
      by_cases eq : g = f
      · simp [eq]
      · simpa [eq] using pos
    · have room := fits g (.tail _ hl) pty
      by_cases eq : g = f
      · subst eq
        rw [count_cons_self] at room
        simp
        omega
      · rw [count_cons_of_ne (Ne.symm eq)] at room
        simpa [eq] using room
    · by_cases eq : File.pty j a = f
      · simp [eq]
        omega
      · simp [eq, Ne.symm eq]

end

theorem refsOf_eq (tracks : ∀ k, Tracks (s.pairs k) fun a => held s.fds (.pty k a))
    (pty : f ≠ .plain) : refsOf s.pairs f = held s.fds f := by
  cases f with
  | pty k a => exact (tracks k).refs a
  | plain => exact absurd rfl pty

variable {ds : List (Descriptor File)}

theorem fileAt_cons_none (free : fileAt ds U i = none) (ha : T ≠ U) (fd : Nat) :
    fileAt (⟨T, fd, f⟩ :: ds) U i = none := by
  rw [fileAt_eq_none] at free ⊢
  simp only [map_cons, mem_cons, not_or]
  exact ⟨fun eq => ha (congrArg Prod.fst eq).symm, free⟩

open PtyState

theorem apart_of_idle (idle : s.busy T = false) (o : Opening) (ho : o ∈ s.opening) :
    T ≠ o.table := by
  intro eq
  simp [busy, mem_def.mp ho, eq] at idle

section
variable (hd : Counted s)
include hd

theorem Counted.ptmxOpen (idle : s.opening = none) : Counted (s.ptmxOpen T) := by
  unfold PtyState.ptmxOpen
  split
  · next fd k free hf =>
    have hu : (s.pairs k).inUse = false := by simpa using find?_some hf
    have zero (a : Side) : held s.fds (.pty k a) = 0 := by
      by_contra some
      have used := (hd.tracks k).inUse.mpr ⟨a, pos_of_ne_zero some⟩
      rw [hu] at used
      cases used
    refine ⟨hd.distinct.cons (fileAt_of_freeFd free), ?_, by simp [idle]⟩
    refine tracks_update hd.tracks ?_ fun j b ha => ?_
    · refine tracks_fresh.congr fun b => ?_
      cases b <;> simp [zero]
    · simp [Ne.symm ha]
  · exact hd

theorem Counted.ptsLookup : Counted (s.ptsLookup T k) := by
  unfold PtyState.ptsLookup
  split
  · next fd free =>
    split
    · refine ⟨hd.distinct, hd.tracks, ?_⟩
      rintro o ⟨⟩
      exact fileAt_of_freeFd free
    · exact hd
  · exact hd

theorem Counted.ptsFinish {o : Opening} (ho : s.opening = some o)
    (master : ((s.pairs o.pair).side .master).isOpen = true)
    (hc : ((s.pairs o.pair).side .slave).isOpen = false) : Counted (s.ptsFinish o) := by
  have tracks := hd.tracks o.pair
  have zero : held s.fds (.pty o.pair .slave) = 0 := by
    by_contra some
    have hi := (tracks.isOpen .slave).mpr (pos_of_ne_zero some)
    rw [hc] at hi
    cases hi
  refine ⟨hd.distinct.cons (hd.reserved o ho), ?_, by simp [PtyState.ptsFinish]⟩
  refine tracks_update hd.tracks ?_ fun j b ha => ?_
  · refine (tracks.openSlave ((tracks.isOpen .master).mp master)).congr fun b => ?_
    cases b <;> simp [PtyState.ptsFinish, zero]
  · simp [PtyState.ptsFinish, Ne.symm ha]

theorem Counted.setLocked {l : Bool} : Counted (s.setLocked T i l) := by
  unfold PtyState.setLocked
  split
  · next k _ =>
    refine ⟨hd.distinct, ?_, hd.reserved⟩
    refine tracks_update hd.tracks ?_ fun _ _ _ => rfl
    have tracks := hd.tracks k
    exact ⟨tracks.refs, tracks.isOpen, tracks.inUse, tracks.small⟩
  · exact hd

theorem Counted.openPlain (idle : s.busy T = false) : Counted (s.openPlain T) := by
  unfold PtyState.openPlain
  split
  · next fd free =>
    refine ⟨hd.distinct.cons (fileAt_of_freeFd free), fun k => ?_, fun o opening => ?_⟩
    · simpa using hd.tracks k
    · exact fileAt_cons_none (hd.reserved o opening) (apart_of_idle idle o opening) fd
  · exact hd

theorem Counted.copyTo (idle : s.busy T = false) (free : fileAt s.fds T i = none)
    (held : 0 < held s.fds f) (fits : Fits s f 1) :
    Counted (s.copyTo f T i) := by
  refine ⟨hd.distinct.cons free, fun k => ?_, fun o opening => ?_⟩
  · have room (pty : f ≠ .plain) : Descriptors.held s.fds f + 1 ≤ 255 := by
      have hb := fits pty
      rwa [refsOf_eq hd.tracks pty] at hb
    refine (tracks_dupFile hd.tracks held room k).congr fun a => ?_
    by_cases eq : File.pty k a = f
    · simp [PtyState.copyTo, eq]
    · simp [PtyState.copyTo, eq, Ne.symm eq]
  · exact fileAt_cons_none (hd.reserved o opening) (apart_of_idle idle o opening) i

theorem Counted.sysClose : Counted (s.sysClose T i) := by
  unfold PtyState.sysClose
  split
  · next f hf =>
    refine ⟨hd.distinct.closeAt, fun k => ?_, fun o opening => ?_⟩
    · refine (tracks_closeFile hd.tracks (held_pos hf) k).congr fun a => ?_
      have hc := held_closeAt (g := .pty k a) hd.distinct hf
      by_cases eq : File.pty k a = f
      · simp [← eq] at hc ⊢
        omega
      · simpa [eq, Ne.symm eq] using hc.symm
    · have free := hd.reserved o opening
      rw [fileAt_eq_none] at free ⊢
      exact fun ht => free (((filter_sublist ..).map _).subset ht)
  · exact hd

theorem Counted.dupTable
    (fits : ∀ f ∈ tableFiles s.fds T, Fits s f ((tableFiles s.fds T).count f)) :
    Tracks (s.dupTable T k) fun a =>
      held s.fds (.pty k a) + (tableFiles s.fds T).count (.pty k a) := by
  refine tracks_dupAll hd.tracks (fun f => held_pos_of_mem) (fun f mem pty => ?_) k
  have hb := fits f mem pty
  rwa [refsOf_eq hd.tracks pty] at hb

theorem Counted.sysDup (idle : s.busy T = false)
    (fits : ∀ f ∈ fileAt s.fds T i, (freeFd s.fds T procMaxFds).isSome → Fits s f 1) :
    Counted (s.sysDup T i) := by
  unfold PtyState.sysDup
  split
  · next f fd hf free =>
    exact hd.copyTo idle (fileAt_of_freeFd free) (held_pos hf) (fits f hf (by simp [free]))
  · exact hd

end

theorem fileAt_closeAt_ne {j : Nat} (ha : i ≠ j) :
    fileAt (closeAt ds T j) T i = fileAt ds T i := by
  rw [fileAt, closeAt, find?_filter, fileAt]
  congr 2
  funext d
  by_cases here : d.place = (T, i)
  · simp [here, ha]
  · simp [here]

theorem sysClose_fds : (s.sysClose T i).fds = closeAt s.fds T i := by
  unfold sysClose
  split
  · rfl
  next free =>
  refine (filter_eq_self.mpr fun d ht => ?_).symm
  have ha : d.place ≠ (T, i) := fun eq =>
    fileAt_eq_none.mp free (eq ▸ mem_map_of_mem ht)
  simpa using ha

theorem sysClose_opening : (s.sysClose T i).opening = s.opening := by
  unfold sysClose
  split <;> rfl

section
variable (hd : Counted s)
include hd

theorem held_small (pty : f ≠ .plain) : held s.fds f ≤ 255 := by
  cases f with
  | pty k a => exact (hd.tracks k).small a
  | plain => exact absurd rfl pty

theorem held_closeAt_fits (pty : f ≠ .plain) (fits : fileAt s.fds T i = some f ∨ Fits s f 1) :
    held (closeAt s.fds T i) f + 1 ≤ 255 := by
  obtain same | bound := fits
  · have closes := held_closeAt (g := f) hd.distinct same
    have small := held_small hd pty
    simp at closes
    omega
  · have room := bound pty
    have fewer : held (closeAt s.fds T i) f ≤ held s.fds f := (filter_sublist ..).countP_le
    rw [refsOf_eq hd.tracks pty] at room
    omega

theorem Counted.sysDup2 {old new : Nat} (idle : s.busy T = false)
    (fits : ∀ f ∈ fileAt s.fds T old, new < procMaxFds ∧ old ≠ new →
      fileAt s.fds T new = some f ∨ Fits s f 1) : Counted (s.sysDup2 T old new) := by
  unfold PtyState.sysDup2
  split
  · next f hf =>
    split
    · exact hd
    next hv =>
    push Not at hv
    have hc : Counted (s.sysClose T new) := hd.sysClose
    have hs : fileAt (s.sysClose T new).fds T old = some f := by
      rw [sysClose_fds, fileAt_closeAt_ne hv.2, hf]
    have free : fileAt (s.sysClose T new).fds T new = none := by
      rw [sysClose_fds, fileAt_closeAt]
    refine hc.copyTo ?_ free (held_pos hs) fun pty => ?_
    · rwa [PtyState.busy, sysClose_opening]
    · rw [refsOf_eq hc.tracks pty, sysClose_fds]
      exact held_closeAt_fits hd pty (fits f hf hv)
  · exact hd

theorem Counted.sysFork (hu : Unused s.fds U) (idle : s.busy U = false)
    (fits : ∀ f ∈ tableFiles s.fds T, Fits s f ((tableFiles s.fds T).count f)) :
    Counted (s.sysFork T U) := by
  refine ⟨hd.distinct.copyTable hu, fun k => ?_, fun o opening => ?_⟩
  · exact (hd.dupTable fits).congr fun a => held_copyTable.symm
  have free := hd.reserved o opening
  rw [fileAt_eq_none] at free ⊢
  simp only [PtyState.sysFork, copyTable, map_append, mem_append, not_or]
  refine ⟨fun hc => ?_, free⟩
  obtain ⟨d, hf, hp⟩ := mem_map.mp hc
  obtain ⟨_, -, rfl⟩ := mem_map.mp hf
  exact apart_of_idle idle o opening (congrArg Prod.fst hp)

theorem Counted.forkFails (plain : ∀ f ∈ tableFiles s.fds T, f = .plain) :
    Counted (s.forkFails T) := by
  refine ⟨hd.distinct, fun k => ?_, hd.reserved⟩
  refine (hd.dupTable fun f mem pty => absurd (plain f mem) pty).congr fun a => ?_
  have ha : File.pty k a ∉ tableFiles s.fds T := fun mem => by cases plain _ mem
  rw [count_eq_zero.mpr ha]
  rfl

theorem counted_call {call : PtyCall} (idle : s.busy T = false) (kept : PtyKept s ⟨T, call⟩)
    (step : s.call T call = some t) : Counted t := by
  cases call with
  | ptmx =>
    obtain ⟨free, ⟨⟩⟩ := ite_none_left_eq_some.mp step
    exact hd.ptmxOpen (by simpa using free)
  | ptsLookup k =>
    obtain ⟨-, ⟨⟩⟩ := ite_none_left_eq_some.mp step
    exact hd.ptsLookup
  | ptsFinish => cases step
  | setLocked i hl =>
    cases step
    exact hd.setLocked
  | openPlain =>
    cases step
    exact hd.openPlain idle
  | dup i =>
    cases step
    exact hd.sysDup idle kept
  | dup2 old new =>
    cases step
    exact hd.sysDup2 idle kept
  | fork child =>
    obtain ⟨⟨hu, childIdle⟩, ⟨⟩⟩ := ite_none_right_eq_some.mp step
    exact hd.sysFork hu childIdle kept
  | forkFails =>
    cases step
    exact hd.forkFails kept
  | close i =>
    cases step
    exact hd.sysClose

theorem counted_step (kept : PtyKept s event) (step : ptyStep s event = some t) : Counted t := by
  unfold ptyStep at step
  split at step
  · next o mine =>
    obtain ⟨hf, ⟨⟩⟩ := ite_none_right_eq_some.mp step
    have ho : s.opening = some o := eq_some_of_filter_eq_some mine
    rw [PtyKept, hf] at kept
    obtain ⟨master, hc⟩ := kept o ho
    exact hd.ptsFinish ho master hc
  · next none =>
    exact counted_call hd (by rw [busy, none]; rfl) kept step

end

theorem counted_boot : Counted ptyBoot where
  distinct := nodup_nil
  tracks _ := ⟨fun _ => rfl, by simp [ptyBoot], by simp [ptyBoot], by simp [ptyBoot]⟩
  reserved := by simp [ptyBoot]

theorem pollFn_hangUp {p : PtyPair} {r : Nat} :
    p.pollFn a r &&& 0x0010 = 0x0010 ↔ (p.side a.other).isOpen = false := by
  unfold PtyPair.pollFn
  cases (p.side a.other).isOpen <;> by_cases data : 0 < r <;> simp [data]

theorem Counted.lifetime (hd : Counted s) : Lifetime s := by
  have hc (k : Nat) (a : Side) :
      ((s.pairs k).side a).isOpen = false ↔ held s.fds (.pty k a) = 0 := by
    rw [← Bool.not_eq_true, (hd.tracks k).isOpen a, pos_iff_ne_zero, not_not]
  refine ⟨fun k => (hd.tracks k).refs, fun k a _ => ?_, fun k a _ => ?_, fun k => ?_⟩
  · rw [pollFn_hangUp, hc]
  · rw [PtyPair.readEnds, Bool.and_eq_true, beq_iff_eq, Bool.not_eq_true', hc]
  · rw [← Bool.not_eq_true, (hd.tracks k).inUse]
    simp

end State

/-- In every run whose calls meet `PtyKept`, the counts of every pair are the numbers of its
descriptors. -/
theorem pty_refs_counted {events : List PtyEvent} {s : PtyState}
    (run : RunWhere ptyStep PtyKept ptyBoot events s) : Lifetime s :=
  (run.invariant counted_boot fun _ _ _ => counted_step).lifetime

def shared : List PtyEvent :=
  [⟨0, .ptmx⟩, ⟨0, .setLocked 0 false⟩, ⟨0, .ptsLookup 0⟩, ⟨0, .ptsFinish⟩, ⟨0, .dup 1⟩,
    ⟨0, .fork 1⟩, ⟨0, .close 1⟩, ⟨0, .close 2⟩, ⟨1, .close 0⟩, ⟨0, .close 0⟩]

theorem pty_refs_counted_shared : ∃ s, RunWhere ptyStep PtyKept ptyBoot shared s ∧ Lifetime s ∧
      ((s.pairs 0).side .slave).refs = 2 ∧ ((s.pairs 0).side .master).refs = 0 ∧
      (s.pairs 0).inUse = true ∧ s.fds.length = 2 :=
  exists_runWhere_with (fun _ => pty_refs_counted)

def openedTwice : List PtyEvent :=
  [⟨0, .ptmx⟩, ⟨0, .setLocked 0 false⟩, ⟨0, .ptsLookup 0⟩, ⟨0, .ptsFinish⟩,
    ⟨0, .ptsLookup 0⟩, ⟨0, .ptsFinish⟩, ⟨0, .close 2⟩]

def manyMasters : List PtyEvent :=
  ⟨0, .ptmx⟩ :: List.replicate 15 ⟨0, .dup 0⟩ ++ (List.range 15).map fun k => ⟨0, .fork (k + 1)⟩

/-- The second open sets the count back to one, and the first close hangs the slave up under
the other descriptor. A late failure of fork leaves its references behind. At 256 descriptors
the count is zero. -/
theorem pty_refs_miscounted :
    (∃ s, Run ptyStep ptyBoot openedTwice s ∧ held s.fds (.pty 0 .slave) = 1 ∧
      ((s.pairs 0).side .slave).refs = 0 ∧ (s.pairs 0).readEnds .master 0 = true) ∧
    (∃ s, Run ptyStep ptyBoot [⟨0, .ptmx⟩, ⟨0, .forkFails⟩, ⟨0, .close 0⟩] s ∧ s.fds = [] ∧
      (s.pairs 0).inUse = true) ∧
    ∃ s, Run ptyStep ptyBoot manyMasters s ∧ held s.fds (.pty 0 .master) = 256 ∧
      ((s.pairs 0).side .master).refs = 0 := by
  exact ⟨exists_run, exists_run, exists_run⟩

end Aegis.Pty
