import Aegis.ProcLife
import Mathlib.Data.List.Dedup

/-! The references of pipes against the descriptor tables of live processes. `Held` says that
the tables that exist are those some process holds, as often as their count says, and that
their slots are counted (`Sound`). A fork that fails behind `fd_table_copy` frees the copy
without closing its slots, and a thread that `exit_group` kills never drops its table. -/

namespace Aegis.Process

open LabelledRun List Process.System
open Sched (PipeId PipeEnd)

def liveTables (s : System) : List TableId :=
  ((s.all.filter fun u => !(s.proc u).zombie).filterMap fun u => (s.proc u).fdTable).dedup

def liveSlots (s : System) (e : PipeEnd) : Nat :=
  ((liveTables s).map fun T => slotCount (s.fd.table T).fds e).sum

/-- `read_refs` and `write_refs` are the slots of live tables. A reader sees EOF at
`write_refs == 0` and a writer EPIPE at `read_refs == 0`, that is once no slot refers to the
end; without slots of both ends the pipe is freed, once. -/
structure PipesCounted (s : System) : Prop where
  refs : ∀ e, s.fd.refs e = liveSlots s e
  last : ∀ e, s.fd.refs e = 0 ↔
    ∀ T ∈ liveTables s, ∀ i < procMaxFds, names ((s.fd.table T).fds i) e = false
  freed : ∀ p, p ∈ s.fd.freed ↔ p < s.fd.nextPipe ∧ ∀ e, endPipe e = p → liveSlots s e = 0
  once : s.fd.freed.Nodup

def noPipes (s : System) (c : ProcId) : Bool :=
  (s.proc c).fdTable.all fun T =>
    (List.range procMaxFds).all fun i => (((s.fd.table T).fds i).bind Slot.pipeEnd).isNone

/-- A fork that fails late has no pipe to copy, and no thread is killed by `exit_group`. -/
def PipesKept (s : System) (call : Call) : Prop :=
  (call.op = .fork .noMemory → maxProcesses ≤ s.forkCount ∨ noPipes s call.caller = true) ∧
  (call.op = .exitGroup → ∀ v ∈ s.all, v ≠ call.caller →
    (s.proc v).tgid = (s.proc call.caller).tgid → (s.proc v).zombie = true)
  deriving Decidable

def holders (s : System) (T : TableId) : Nat :=
  s.all.countP fun u => decide ((s.proc u).fdTable = some T)

structure Referenced (fd : FdState) (held : TableId → Nat) : Prop where
  sound : Sound fd
  tables : ∀ T, T ∈ fd.tables ↔ 0 < held T
  refcount : ∀ T ∈ fd.tables, (fd.table T).refcount = held T

structure Held (s : System) : Prop extends Referenced s.fd (holders s) where
  nodup : s.all.Nodup
  older : ∀ u ∈ s.all, u < s.nextProc
  zombies : ∀ u ∈ s.all, (s.proc u).zombie = true ↔ (s.proc u).fdTable = none

variable {s s' : System} {call : Call} {c t u : ProcId} {T U : TableId} {child : Proc}
  {fd fd' : FdState} {e : PipeEnd} {held held' : TableId → Nat}

theorem Held.mem_liveTables (held : Held s) : T ∈ liveTables s ↔ T ∈ s.fd.tables := by
  rw [held.tables, holders, countP_pos_iff, liveTables, mem_dedup]
  simp only [mem_filterMap, mem_filter, decide_eq_true_eq]
  constructor
  · rintro ⟨u, ⟨hl, -⟩, table⟩
    exact ⟨u, hl, table⟩
  rintro ⟨u, hl, table⟩
  have live : (s.proc u).zombie ≠ true := fun zombie => by
    rw [(held.zombies u hl).mp zombie] at table
    cases table
  exact ⟨u, ⟨hl, by simpa using live⟩, table⟩

theorem Held.liveSlots_eq (held : Held s) : liveSlots s e = s.fd.total e := by
  have eq : (liveTables s).Perm s.fd.tables :=
    (perm_ext_iff_of_nodup (nodup_dedup _) held.sound.nodup).mpr fun _ => held.mem_liveTables
  exact (eq.map _).sum_eq

theorem Held.pipesCounted (held : Held s) : PipesCounted s := by
  have refs : ∀ e, s.fd.refs e = liveSlots s e := fun e =>
    (held.sound.balanced e).trans held.liveSlots_eq.symm
  refine ⟨refs, fun e => ?_, fun p => ?_, held.sound.once⟩
  · rw [refs, liveSlots, sum_eq_zero_iff]
    simp [slotCount, countP_eq_zero]
  · rw [held.sound.freed p]
    simp only [refs]

section
variable (hg : Referenced fd held)
include hg

theorem Referenced.congr (eq : ∀ T, held' T = held T) : Referenced fd held' := by
  rwa [funext eq]

theorem Referenced.kept (kept : Kept fd fd') : Referenced fd' held := by
  refine ⟨kept.sound, fun T => ?_, fun T listed => ?_⟩
  · rw [kept.tables]
    exact hg.tables T
  · rw [kept.refcount]
    exact hg.refcount T (kept.tables ▸ listed)

theorem Referenced.fresh : held fd.nextTable = 0 := by
  by_contra some
  exact lt_irrefl _ (hg.sound.older _ ((hg.tables _).mpr (pos_of_ne_zero some)))

theorem Referenced.newTable (hs : Sound fd') (tables : fd'.tables = fd.nextTable :: fd.tables)
    (one : (fd'.table fd.nextTable).refcount = 1)
    (old : ∀ T ∈ fd.tables, (fd'.table T).refcount = (fd.table T).refcount) :
    Referenced fd' fun T => held T + (decide (fd.nextTable = T)).toNat := by
  refine ⟨hs, fun T => ?_, fun T listed => ?_⟩
  · rw [tables, mem_cons, hg.tables T]
    by_cases new : fd.nextTable = T
    · simp [new]
    · simp [new, Ne.symm new]
  · rw [tables, mem_cons] at listed
    rcases listed with rfl | pre
    · simp [one, hg.fresh]
    · have other : fd.nextTable ≠ T := ne_of_gt (hg.sound.older T pre)
      simp [other, old T pre, hg.refcount T pre]

theorem Referenced.fdTableCopy (hl : T ∈ fd.tables) :
    Referenced (fd.fdTableCopy T) fun U => held U + (decide (fd.nextTable = U)).toNat := by
  obtain ⟨tables, table, -⟩ := @fdTableCopy_tables fd T
  refine hg.newTable (hg.sound.fdTableCopy hl) tables ?_ fun U pre => ?_
  · rw [table]
    simp [FdState.newTable]
  · rw [table, newTable_table pre hg.sound]

theorem Referenced.fdTableAlloc :
    Referenced fd.fdTableAlloc fun U => held U + (decide (fd.nextTable = U)).toNat := by
  refine hg.newTable hg.sound.fdTableAlloc rfl ?_ fun U pre => ?_
  · simp [FdState.fdTableAlloc, FdState.newTable]
  · rw [FdState.fdTableAlloc, newTable_table pre hg.sound]

theorem Referenced.fdTableRef (hl : T ∈ fd.tables) :
    Referenced (fd.fdTableRef T) fun U => held U + (decide (T = U)).toNat := by
  refine ⟨hg.sound.setTable fun _ => rfl, fun U => ?_, fun U mem => ?_⟩
  · rw [show (fd.fdTableRef T).tables = fd.tables from rfl]
    by_cases here : T = U
    · subst here
      simpa using hl
    · simpa [here] using hg.tables U
  · have pre := hg.refcount U mem
    by_cases here : T = U
    · subst here
      simp [FdState.fdTableRef, FdState.setTable, pre]
    · simp [FdState.fdTableRef, FdState.setTable, here, Ne.symm here, pre]

theorem Referenced.fdTableUnref (hl : T ∈ fd.tables) :
    Referenced (fd.fdTableUnref T) fun U => held U - (decide (T = U)).toNat := by
  have hs := hg.sound
  have count := hg.refcount T hl
  have hu : ∀ U, U ∈ (fd.fdTableUnref T).tables ↔ 0 < held U - (decide (T = U)).toNat := by
    intro U
    rw [fdTableUnref_tables hs hl, count]
    by_cases here : T = U
    · subst here
      rw [decide_eq_true rfl, Bool.toNat_true]
      split
      · exact ⟨fun _ => by omega, fun _ => hl⟩
      · rw [hs.nodup.mem_erase_iff]
        exact ⟨fun kept => absurd rfl kept.1, fun _ => by omega⟩
    · split
      · simpa [here] using hg.tables U
      · simpa [hs.nodup.mem_erase_iff, here, Ne.symm here] using hg.tables U
  refine ⟨hs.fdTableUnref hl, hu, fun U mem => ?_⟩
  have pre : U ∈ fd.tables :=
    (hg.tables U).mpr (lt_of_lt_of_le ((hu U).mp mem) (Nat.sub_le _ _))
  rw [fdTableUnref_refcount hs hl, hg.refcount U pre]
  simp only [eq_comm]

end

structure SameFds (s r : System) : Prop where
  all : r.all = s.all
  nextProc : r.nextProc = s.nextProc
  proc : ∀ u, (r.proc u).fdTable = (s.proc u).fdTable ∧ (r.proc u).zombie = (s.proc u).zombie

variable {r : System}

theorem SameFds.holders_eq (eq : SameFds s r) : holders r T = holders s T := by
  simp only [holders, eq.all, eq.proc]

theorem Held.congr (heldBy : Held s) (eq : SameFds s r) (hg : Referenced r.fd (holders s)) :
    Held r where
  toReferenced := hg.congr fun _ => eq.holders_eq
  nodup := eq.all ▸ heldBy.nodup
  older := eq.all ▸ eq.nextProc ▸ heldBy.older
  zombies u listed := by
    rw [(eq.proc u).1, (eq.proc u).2]
    exact heldBy.zombies u (eq.all ▸ listed)

theorem holders_schedAdd (ho : ∀ u ∈ s.all, u < s.nextProc) :
    holders (s.schedAdd child) T = holders s T + (decide (child.fdTable = some T)).toNat := by
  have old : s.all.countP (fun u => decide (((s.schedAdd child).proc u).fdTable = some T)) =
      holders s T :=
    countP_congr fun u hl => by rw [schedAdd_proc (ho u hl)]
  rw [holders, show (s.schedAdd child).all = s.nextProc :: s.all from rfl, countP_cons, old,
    schedAdd_self]
  cases decide (child.fdTable = some T) <;> rfl

theorem Held.schedAdd (heldBy : Held s) (eq : SameFds s r)
    (hg : Referenced r.fd fun U => holders s U + (decide (T = U)).toNat)
    (table : child.fdTable = some T) (live : child.zombie = false) : Held (r.schedAdd child) := by
  have ho : ∀ u ∈ r.all, u < r.nextProc := eq.all ▸ eq.nextProc ▸ heldBy.older
  refine ⟨hg.congr fun U => ?_, ?_, fun u hl => ?_, fun u hl => ?_⟩
  · rw [holders_schedAdd ho, eq.holders_eq, table]
    simp only [Option.some.injEq]
  · exact (eq.all ▸ heldBy.nodup).cons fun hl => lt_irrefl _ (ho _ hl)
  · rcases mem_cons.mp hl with rfl | pre
    · exact Nat.lt_succ_self _
    · exact Nat.lt_succ_of_lt (ho u pre)
  · rcases mem_cons.mp hl with rfl | pre
    · rw [schedAdd_self, table, live]
      simp
    · rw [schedAdd_proc (ho u pre), (eq.proc u).1, (eq.proc u).2]
      exact heldBy.zombies u (eq.all ▸ pre)

theorem holders_schedExit (nodup : s.all.Nodup) (hl : c ∈ s.all)
    (table : (s.proc c).fdTable = some T) :
    holders (s.schedExit c T) U = holders s U - (decide (T = U)).toNat := by
  have hc := @Tally.countP_change ProcId s.all c (fun u => decide ((s.proc u).fdTable = some U))
    (fun u => decide (((s.schedExit c T).proc u).fdTable = some U)) nodup hl
    fun u _ other => by rw [schedExit_proc other]
  simp only [schedExit_self, table, Option.some.injEq, reduceCtorEq, decide_false,
    Bool.toNat_false, Nat.add_zero] at hc
  exact Nat.eq_sub_of_add_eq hc

theorem killGroup_eq (ha : ∀ v ∈ s.all, v ≠ c → (s.proc v).tgid = (s.proc c).tgid →
    (s.proc v).zombie = true) : s.killGroup c = s := by
  have eq : (s.killGroup c).proc = s.proc := by
    funext u
    by_cases mem : u ∈ s.all ∧ u ≠ c ∧ (s.proc u).tgid = (s.proc c).tgid
    · have zombie := ha u mem.1 mem.2.1 mem.2.2
      rw [killGroup]
      dsimp only
      rw [if_pos mem, ← zombie]
    · exact if_neg mem
  rw [killGroup] at eq ⊢
  dsimp only at eq
  rw [eq]

theorem Referenced.freeCopy (hg : Referenced fd held) (hl : T ∈ fd.tables)
    (he : ∀ e, slotCount (fd.table T).fds e = 0) :
    Referenced ((fd.fdTableCopy T).freeTable fd.nextTable) held := by
  obtain ⟨tables, table, -⟩ := @fdTableCopy_tables fd T
  have hc := hg.fdTableCopy hl
  have left : ((fd.fdTableCopy T).freeTable fd.nextTable).tables = fd.tables := by
    rw [FdState.freeTable, tables]
    exact erase_cons_head ..
  refine ⟨hc.sound.freeTable (tables ▸ .head _) fun e => ?_, fun U => ?_, fun U mem => ?_⟩
  · rw [table]
    simpa [FdState.newTable] using he e
  · rw [left]
    exact hg.tables U
  rw [left] at mem
  have other : fd.nextTable ≠ U := ne_of_gt (hg.sound.older U mem)
  exact (hc.refcount U (tables ▸ mem_cons_of_mem _ mem)).trans (by simp [other])

theorem noPipes_slotCount (none : noPipes s c = true) (table : (s.proc c).fdTable = some T) :
    slotCount (s.fd.table T).fds e = 0 := by
  refine slotCount_eq_zero fun i hi => ?_
  rw [noPipes, table, Option.all_some, all_eq_true] at none
  have free := Option.isNone_iff_eq_none.mp (none i (mem_range.mpr hi))
  rw [names, free]
  rfl

theorem Referenced.cloneFiles {files : Bool} (hg : Referenced s.fd held)
    (hl : T ∈ s.fd.tables) : Referenced (s.cloneFiles T files).1 fun U =>
      held U + (decide ((s.cloneFiles T files).2 = U)).toNat := by
  rw [System.cloneFiles]
  split
  · exact hg.fdTableRef hl
  · exact hg.fdTableCopy hl

theorem vmaShare_same : SameFds s ((s.vmaShare c).procAllocPid.setFd fd) := by
  refine ⟨rfl, rfl, fun u => ?_⟩
  by_cases eq : u = c
  · subst eq
    simp [vmaShare, setProc, procAllocPid, setFd]
  · simp [vmaShare, setProc, procAllocPid, setFd, eq]

theorem Referenced.spawnFiles {stdio : Option Nat} (hg : Referenced s.fd held)
    (hl : T ∈ s.fd.tables) : Referenced (s.spawnFiles T stdio) fun U =>
      held U + (decide (s.fd.nextTable = U)).toNat := by
  have hf := hg.fdTableAlloc
  rw [System.spawnFiles]
  split
  · exact hf
  rename_i slot hn
  obtain ⟨i, -, at_⟩ := Option.bind_eq_some_iff.mp hn
  obtain ⟨hi, slotHeld⟩ := slotAt_eq_some at_
  refine hf.kept (kept_shareStdio hf.sound mem_cons_self (fun j => ?_) ?_)
  · simp [FdState.fdTableAlloc, FdState.newTable]
  · exact hg.sound.slot_open hl hi slotHeld

section
variable (heldBy : Held s)
include heldBy

theorem Held.reparent : Held (s.reparent c) := by
  refine heldBy.congr ⟨rfl, rfl, fun u => ?_⟩ heldBy.toReferenced
  obtain ⟨ppid, hm⟩ := @reparent_proc s c u
  rw [hm]
  exact ⟨rfl, rfl⟩

theorem Held.reap (hl : t ∈ s.all) (zombie : (s.proc t).zombie = true) : Held (s.reap t) := by
  obtain ⟨proc, all, next, -, files, -⟩ := @reap_fields s t
  have none := (heldBy.zombies t hl).mp zombie
  refine ⟨?_, all ▸ heldBy.nodup.erase t, fun u mem => ?_, fun u mem => ?_⟩
  · rw [files]
    refine heldBy.toReferenced.congr fun T => ?_
    have he := @Tally.countP_erase ProcId s.all t
      (fun u => decide ((s.proc u).fdTable = some T)) _ hl
    rw [none] at he
    rw [holders, all, proc]
    exact he
  · rw [next]
    exact heldBy.older u (mem_of_mem_erase (all ▸ mem))
  · rw [proc]
    exact heldBy.zombies u (mem_of_mem_erase (all ▸ mem))

theorem Held.setFd (kept : Kept s.fd fd) : Held (s.setFd fd) :=
  heldBy.congr ⟨rfl, rfl, fun _ => ⟨rfl, rfl⟩⟩ (heldBy.toReferenced.kept kept)

variable (hl : c ∈ s.all) (table : (s.proc c).fdTable = some T)
include hl table

theorem Held.table_listed : T ∈ s.fd.tables :=
  (heldBy.tables T).mpr (countP_pos_iff.mpr ⟨c, hl, decide_eq_true table⟩)

theorem Held.schedExit : Held (s.schedExit c T) := by
  refine ⟨(heldBy.fdTableUnref (heldBy.table_listed hl table)).congr fun U =>
    holders_schedExit heldBy.nodup hl table, heldBy.nodup, heldBy.older, fun u mem => ?_⟩
  by_cases eq : u = c
  · rw [eq, schedExit_self]
    simp
  · rw [schedExit_proc eq]
    exact heldBy.zombies u mem

theorem Held.sysExit : Held (s.sysExit c T) := by
  have self : (s.reparent c).proc c = s.proc c := if_neg fun hm => hm.2.1 rfl
  exact heldBy.reparent.schedExit hl (by rw [self, table])

theorem Held.woken : Held (s.setProc c fun p => { p with zombie := false }) := by
  have live : (s.proc c).zombie = false := by
    refine Bool.eq_false_iff.mpr fun zombie => ?_
    rw [(heldBy.zombies c hl).mp zombie] at table
    cases table
  have eq : (s.setProc c fun p => { p with zombie := false }).proc = s.proc := by
    rw [setProc, ← live]
    exact Function.update_eq_self c s.proc
  exact heldBy.congr ⟨rfl, rfl, fun u => by rw [eq]; exact ⟨rfl, rfl⟩⟩ heldBy.toReferenced

theorem Held.sysFork {b : ForkEnd} (ok : PipesKept s ⟨c, .fork b⟩) : Held (s.sysFork c T b) := by
  have tables := heldBy.table_listed hl table
  unfold System.sysFork
  split
  · exact heldBy
  rename_i room
  cases b with
  | noPcb => exact heldBy
  | noFdTable => exact heldBy
  | noMemory =>
    refine heldBy.congr ⟨rfl, rfl, fun _ => ⟨rfl, rfl⟩⟩ ?_
    exact heldBy.toReferenced.freeCopy tables fun e =>
      noPipes_slotCount ((ok.1 rfl).resolve_left room) table
  | ok =>
    exact heldBy.schedAdd ⟨rfl, rfl, fun _ => ⟨rfl, rfl⟩⟩
      (heldBy.toReferenced.fdTableCopy tables) rfl rfl

theorem Held.sysClone {files thread : Bool} {b : CloneEnd} :
    Held (s.sysClone c T files thread b) := by
  have hs := @Referenced.cloneFiles s T (holders s) files heldBy.toReferenced
    (heldBy.table_listed hl table)
  unfold System.sysClone
  split
  · exact heldBy
  cases b with
  | refused => exact heldBy
  | noPcb => exact heldBy
  | noFdTable => exact heldBy
  | noStack =>
    have hh : (s.cloneFiles T files).2 ∈ (s.cloneFiles T files).1.tables :=
      (hs.tables _).mpr (by simp)
    have hd := (hs.fdTableUnref hh).congr fun U => (Nat.add_sub_cancel _ _).symm
    have eq := @vmaShare_same s c ((s.cloneFiles T files).1.fdTableUnref (s.cloneFiles T files).2)
    obtain ⟨proc, all, next, -, hu, -⟩ := @vmaFree_fields ((s.vmaShare c).procAllocPid.setFd
      ((s.cloneFiles T files).1.fdTableUnref (s.cloneFiles T files).2))
      (s.proc c).vmaTable ((s.proc c).vmaRefcount + 1)
    refine heldBy.congr ⟨all, next, fun u => ?_⟩ (hu ▸ hd)
    rw [proc]
    exact eq.proc u
  | ok => exact heldBy.schedAdd vmaShare_same hs rfl rfl

theorem Held.sysSpawn {stdio : Option Nat} {b : SpawnEnd} : Held (s.sysSpawn c T stdio b) := by
  unfold System.sysSpawn
  split
  · exact heldBy
  cases b with
  | early => exact heldBy
  | late => exact heldBy.congr ⟨rfl, rfl, fun _ => ⟨rfl, rfl⟩⟩ heldBy.toReferenced
  | ok =>
    exact heldBy.schedAdd ⟨rfl, rfl, fun _ => ⟨rfl, rfl⟩⟩
      (heldBy.toReferenced.spawnFiles (heldBy.table_listed hl table)) rfl rfl

end

theorem held_step (heldBy : Held s) (ok : PipesKept s call) (step : procStep s call = some s') :
    Held s' := by
  obtain ⟨c, op⟩ := call
  obtain ⟨T, hl, table, hp⟩ := procStep_eq_some step
  have tables := heldBy.table_listed hl table
  cases op with
  | fork hr =>
    cases hp
    exact heldBy.sysFork hl table ok
  | clone files thread hr =>
    cases hp
    exact heldBy.sysClone hl table
  | spawn stdio hr =>
    cases hp
    exact heldBy.sysSpawn hl table
  | execve hr =>
    cases hp
    cases hr with
    | ok => exact heldBy.setFd (kept_closeOnExec heldBy.sound tables)
    | failed => exact heldBy
    | fatal => exact heldBy.schedExit hl table
  | exit =>
    cases hp
    exact heldBy.sysExit hl table
  | exitGroup =>
    cases hp
    rw [sysExitGroup, killGroup_eq (ok.2 rfl)]
    exact heldBy.sysExit hl table
  | fatalSignal =>
    cases hp
    exact heldBy.schedExit hl table
  | waitpid t =>
    rw [perform] at hp
    split at hp
    · rename_i ha
      cases hp
      exact heldBy.reap ha.1 ha.2.2.1
    · cases hp
  | descriptor call =>
    cases hp
    exact heldBy.setFd (kept_call heldBy.sound tables)
  | woken =>
    cases hp
    exact heldBy.woken hl table

theorem boot_slots {i : Nat} : names ((boot.fd.table T).fds i) e = false := by
  by_cases std : i < 3
  · simp [boot, names, std]
  · simp [boot, names, std]

theorem sound_boot : Sound boot.fd where
  unused _ _ := rfl
  freed p := by simp [boot]
  once := nodup_nil
  nodup := nodup_singleton _
  older _ listed := (mem_singleton.mp listed) ▸ Nat.zero_lt_one
  balanced e := by
    rw [FdState.total, show boot.fd.tables = [0] from rfl, map_singleton, sum_singleton,
      slotCount_eq_zero fun _ _ => boot_slots]
    rfl

theorem boot_holders : holders boot T = (decide (0 = T)).toNat := by
  simp only [holders, boot, countP_singleton, Option.some.injEq]
  cases decide (0 = T) <;> rfl

theorem held_boot : Held boot where
  sound := sound_boot
  tables T := by
    rw [boot_holders, show boot.fd.tables = [0] from rfl, mem_singleton]
    by_cases h1 : 0 = T
    · simp [← h1]
    · simp [h1, Ne.symm h1]
  refcount T listed := by
    rw [boot_holders, mem_singleton.mp listed]
    rfl
  nodup := nodup_singleton _
  older _ listed := (mem_singleton.mp listed) ▸ Nat.zero_lt_one
  zombies u _ := by simp [boot]

/-- In every run in which no copied pipe is dropped and no thread is killed, the references of
pipes are the slots of live descriptor tables. -/
theorem pipe_refs_counted {labels : List Call}
    (run : RunWhere procStep PipesKept boot labels s) : PipesCounted s :=
  Held.pipesCounted (run.invariant held_boot fun _ _ _ heldBy ok step => held_step heldBy ok step)

def sharedPipe : List Call :=
  [⟨0, .descriptor (.pipe2 false)⟩, ⟨0, .fork .ok⟩, ⟨1, .descriptor (.close 3)⟩,
    ⟨1, .descriptor (.dup2 4 1)⟩, ⟨0, .descriptor (.close 3)⟩, ⟨0, .descriptor (.close 4)⟩]

theorem pipe_refs_counted_shared :
    ∃ s, RunWhere procStep PipesKept boot sharedPipe s ∧ liveSlots s (.readEnd 0) = 0 ∧
      liveSlots s (.writeEnd 0) = 2 ∧ 0 ∉ s.fd.freed := by
  refine exists_runWhere_of (fun s => s.fd.refs (.readEnd 0) = 0 ∧ s.fd.refs (.writeEnd 0) = 2) ?_
  rintro s run ⟨readers, writers⟩
  have counted := pipe_refs_counted run
  have slots := (counted.refs (.writeEnd 0)).symm.trans writers
  refine ⟨(counted.refs _).symm.trans readers, slots, fun freed => ?_⟩
  have none := ((counted.freed 0).mp freed).2 (.writeEnd 0) rfl
  rw [slots] at none
  cases none

def failedFork : List Call :=
  [⟨0, .descriptor (.pipe2 false)⟩, ⟨0, .fork .noMemory⟩, ⟨0, .descriptor (.close 3)⟩,
    ⟨0, .descriptor (.close 4)⟩]

def killedThread : List Call :=
  [⟨0, .fork .ok⟩, ⟨1, .clone true true .ok⟩, ⟨1, .descriptor (.pipe2 false)⟩, ⟨1, .exitGroup⟩]

def Leaks (s : System) : Prop :=
  (∀ e ∈ [PipeEnd.readEnd 0, .writeEnd 0], liveSlots s e = 0 ∧ s.fd.refs e = 1) ∧ 0 ∉ s.fd.freed
  deriving Decidable

/-- The reader of such a pipe never sees EOF, and the pipe is never freed. -/
theorem pipe_refs_leak : Run procStep boot failedFork (reached procStep boot failedFork) ∧
    Leaks (reached procStep boot failedFork) ∧
    Run procStep boot killedThread (reached procStep boot killedThread) ∧
    Leaks (reached procStep boot killedThread) :=
  ⟨run_of_exec exec_eq_reached, by decide +kernel, run_of_exec exec_eq_reached,
    by decide +kernel⟩

end Aegis.Process
