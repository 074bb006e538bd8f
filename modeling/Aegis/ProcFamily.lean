import Aegis.ProcLife

/-! Who can reap whom, and how many processes there are. A process is `Waited` for if its
`ppid` is init's or the pid of another process that is not a zombie. `sys_exit` hands the
children of the caller to init; a fatal signal does not, and `sys_exit_group` hands over only
the children of the calling thread. The process counter is never counted down. -/

namespace Aegis.Process

open LabelledRun Function List Process.System

/-- Another process that is not a zombie, or init, may wait for `u`. -/
def Waited (s : System) (u : ProcId) : Prop :=
  (s.proc u).ppid = 1 ∨
    ∃ v ∈ s.all, v ≠ u ∧ (s.proc v).zombie = false ∧ (s.proc v).pid = (s.proc u).ppid

def ChildOf (s : System) (c u : ProcId) : Prop :=
  u ≠ c ∧ u ≠ initProc ∧ (s.proc u).ppid = (s.proc c).pid
  deriving Decidable

def Childless (s : System) (c : ProcId) : Prop :=
  ∀ u ∈ s.all, ¬ChildOf s c u
  deriving Decidable

def creates : Op → Bool
  | .fork .ok => true
  | .clone _ _ .ok => true
  | .spawn _ .ok => true
  | _ => false

/-- The operations that end the caller without a look at its children. -/
def endsAbruptly : Op → Bool
  | .fatalSignal => true
  | .execve .fatal => true
  | _ => false

/-- No process that needs a parent loses it: zombies create nothing, a process that is ended
by a signal has no children, and neither has a thread that `exit_group` kills. -/
def OrphansNobody (s : System) (call : Call) : Prop :=
  (creates call.op = true → s.forkCount < maxProcesses →
    (s.proc call.caller).zombie = false ∨ (s.proc call.caller).pid = 1) ∧
  (endsAbruptly call.op = true → (s.proc call.caller).zombie = true ∨
    (s.proc call.caller).pid = 1 ∨ Childless s call.caller) ∧
  (call.op = .exitGroup → ∀ v ∈ s.all, v ≠ call.caller →
    (s.proc v).tgid = (s.proc call.caller).tgid → (s.proc v).zombie = false →
    (s.proc v).pid = 1 ∨ Childless s v)
  deriving Decidable

structure Family (s : System) : Prop where
  waited : ∀ u ∈ s.all, u ≠ initProc → Waited s u
  running : ∀ u ∈ s.all, (s.proc u).zombie = false → (s.proc u).fdTable.isSome
  older : ∀ u ∈ s.all, u < s.nextProc
  started : initProc < s.nextProc
  init : (s.proc initProc).pid = 1

theorem family_boot : Family boot where
  waited _ listed other := absurd (mem_singleton.mp listed) other
  running _ _ _ := rfl
  older _ listed := (mem_singleton.mp listed) ▸ Nat.zero_lt_one
  started := Nat.zero_lt_one
  init := rfl

variable {s s' : System} {call : Call} {c t u v : ProcId} {T : TableId} {child : Proc}

theorem Family.congr (family : Family s) (all : s'.all = s.all) (next : s'.nextProc = s.nextProc)
    (same : ∀ u, (s'.proc u).pid = (s.proc u).pid ∧ (s'.proc u).ppid = (s.proc u).ppid ∧
      (s'.proc u).zombie = (s.proc u).zombie ∧ (s'.proc u).fdTable = (s.proc u).fdTable) :
    Family s' := by
  refine ⟨fun u listed other => ?_, fun u listed => ?_, all ▸ next ▸ family.older,
    next ▸ family.started, (same initProc).1.trans family.init⟩
  · have waited := family.waited u (all ▸ listed) other
    simpa only [Waited, same, all] using waited
  · rw [(same u).2.2.1, (same u).2.2.2]
    exact family.running u (all ▸ listed)

theorem Waited.mono (hw : Waited s u) (ppid : (s'.proc u).ppid = (s.proc u).ppid)
    (hs : ∀ v ∈ s.all, v ≠ u → (s.proc v).zombie = false → (s.proc v).pid = (s.proc u).ppid →
      (s'.proc u).ppid = 1 ∨
        v ∈ s'.all ∧ (s'.proc v).zombie = false ∧ (s'.proc v).pid = (s.proc v).pid) :
    Waited s' u := by
  obtain init | ⟨v, hl, other, live, pid⟩ := hw
  · exact .inl (ppid.trans init)
  obtain init | ⟨hl', live', pid'⟩ := hs v hl other live pid
  · exact .inl init
  · exact .inr ⟨v, hl', other, live', pid'.trans (pid.trans ppid.symm)⟩

theorem Family.schedAdd (family : Family s) (table : child.fdTable.isSome)
    (parent : child.ppid = 1 ∨
      ∃ v ∈ s.all, (s.proc v).zombie = false ∧ (s.proc v).pid = child.ppid) :
    Family (s.schedAdd child) := by
  have old : ∀ u ∈ s.all, (s.schedAdd child).proc u = s.proc u := fun u hl =>
    schedAdd_proc (family.older u hl)
  refine ⟨fun u hl other => ?_, fun u hl live => ?_, fun u hl => ?_,
    Nat.lt_succ_of_lt family.started, ?_⟩
  · rcases mem_cons.mp hl with rfl | pre
    · rw [Waited, schedAdd_self]
      obtain init | ⟨v, hl', live, pid⟩ := parent
      · exact .inl init
      refine .inr ⟨v, mem_cons_of_mem _ hl', ne_of_lt (family.older v hl'), ?_⟩
      rw [old v hl']
      exact ⟨live, pid⟩
    · refine (family.waited u pre other).mono (by rw [old u pre]) ?_
      intro v hl' _ live _
      rw [old v hl']
      exact .inr ⟨mem_cons_of_mem _ hl', live, rfl⟩
  · rcases mem_cons.mp hl with rfl | pre
    · rwa [schedAdd_self]
    · rw [old u pre] at live ⊢
      exact family.running u pre live
  · rcases mem_cons.mp hl with rfl | pre
    · exact Nat.lt_succ_self _
    · exact Nat.lt_succ_of_lt (family.older u pre)
  · rw [schedAdd_proc family.started]
    exact family.init

theorem Family.schedExit (family : Family s)
    (free : (s.proc c).zombie = true ∨ (s.proc c).pid = 1 ∨ Childless s c) :
    Family (s.schedExit c T) := by
  have ids : ∀ u, ((s.schedExit c T).proc u).pid = (s.proc u).pid ∧
      ((s.schedExit c T).proc u).ppid = (s.proc u).ppid := by
    intro u
    by_cases eq : u = c
    · rw [eq, schedExit_self]
      exact ⟨rfl, rfl⟩
    · rw [schedExit_proc eq]
      exact ⟨rfl, rfl⟩
  refine ⟨fun u hl other => ?_, fun u hl live => ?_, family.older, family.started,
    (ids initProc).1.trans family.init⟩
  · refine (family.waited u hl other).mono (ids u).2 fun v hl' hn live pid => ?_
    by_cases eq : v = c
    · subst eq
      rw [(ids u).2]
      rcases free with zombie | init | hc
      · rw [live] at zombie
        cases zombie
      · exact .inl (pid.symm.trans init)
      · exact absurd ⟨hn.symm, other, pid.symm⟩ (hc u hl)
    · rw [schedExit_proc eq]
      exact .inr ⟨hl', live, rfl⟩
  · by_cases eq : u = c
    · rw [eq, schedExit_self] at live
      cases live
    · rw [schedExit_proc eq] at live ⊢
      exact family.running u hl live

theorem Family.reparent (family : Family s) : Family (s.reparent c) := by
  refine ⟨fun u listed other => ?_, fun u listed live => ?_, family.older, family.started, ?_⟩
  · by_cases moves : u ∈ s.all ∧ u ≠ c ∧ (s.proc u).ppid = (s.proc c).pid
    · exact .inl (by simp only [System.reparent, if_pos moves])
    have stays : (s.reparent c).proc u = s.proc u := if_neg moves
    refine (family.waited u listed other).mono (by rw [stays]) fun v listed' _ live _ => ?_
    obtain ⟨ppid, moved⟩ := @reparent_proc s c v
    rw [moved]
    exact .inr ⟨listed', live, rfl⟩
  · obtain ⟨ppid, moved⟩ := @reparent_proc s c u
    rw [moved] at live ⊢
    exact family.running u listed live
  · obtain ⟨ppid, moved⟩ := @reparent_proc s c initProc
    rw [moved]
    exact family.init

theorem reparent_childless : ((s.reparent c).proc c).pid = 1 ∨ Childless (s.reparent c) c := by
  have self : (s.reparent c).proc c = s.proc c := if_neg fun hm => hm.2.1 rfl
  rw [self]
  by_cases init : (s.proc c).pid = 1
  · exact .inl init
  refine .inr fun u hl ⟨hn, _, ppid⟩ => ?_
  rw [self] at ppid
  by_cases hm : u ∈ s.all ∧ u ≠ c ∧ (s.proc u).ppid = (s.proc c).pid
  · rw [show (s.reparent c).proc u = { s.proc u with ppid := 1 } from if_pos hm] at ppid
    exact init ppid.symm
  · rw [show (s.reparent c).proc u = s.proc u from if_neg hm] at ppid
    exact hm ⟨hl, hn, ppid⟩

section
variable (family : Family s)
include family

theorem Family.sysExit : Family (s.sysExit c T) :=
  family.reparent.schedExit (.inr reparent_childless)

theorem Family.killGroup (free : ∀ v ∈ s.all, v ≠ c → (s.proc v).tgid = (s.proc c).tgid →
    (s.proc v).zombie = false → (s.proc v).pid = 1 ∨ Childless s v) : Family (s.killGroup c) := by
  refine ⟨fun u listed other => ?_, fun u listed live => ?_, family.older, family.started, ?_⟩
  · obtain ⟨zombie, killed, -⟩ := @killGroup_proc s c u
    refine (family.waited u listed other).mono (by rw [killed]) fun v listed' notSelf live pid => ?_
    by_cases mem : v ∈ s.all ∧ v ≠ c ∧ (s.proc v).tgid = (s.proc c).tgid
    · obtain init | childless := free v listed' mem.2.1 mem.2.2 live
      · rw [killed]
        exact .inl (pid.symm.trans init)
      · exact absurd ⟨notSelf.symm, other, pid.symm⟩ (childless u listed)
    · rw [show (s.killGroup c).proc v = s.proc v from if_neg mem]
      exact .inr ⟨listed', live, rfl⟩
  · obtain ⟨zombie, killed, stays⟩ := @killGroup_proc s c u
    rw [killed] at live ⊢
    refine family.running u listed (Bool.eq_false_iff.mpr fun before => ?_)
    rw [stays before] at live
    cases live
  · obtain ⟨zombie, killed, -⟩ := @killGroup_proc s c initProc
    rw [killed]
    exact family.init

theorem Family.reap (zombie : (s.proc t).zombie = true) : Family (s.reap t) := by
  obtain ⟨proc, all, next, -⟩ := @reap_fields s t
  refine ⟨fun u hl other => ?_, fun u hl => ?_, fun u hl => ?_,
    next.symm ▸ family.started, proc.symm ▸ family.init⟩
  · rw [all] at hl
    refine (family.waited u (mem_of_mem_erase hl) other).mono (by rw [proc])
      fun v hl' _ live _ => ?_
    have kept : v ≠ t := fun eq => by simp [eq, zombie] at live
    rw [proc, all]
    exact .inr ⟨(mem_erase_of_ne kept).mpr hl', live, rfl⟩
  · rw [proc]
    exact family.running u (mem_of_mem_erase (all ▸ hl))
  · rw [next]
    exact family.older u (mem_of_mem_erase (all ▸ hl))

theorem Family.woken (holds : (s.proc c).fdTable = some T) :
    Family (s.setProc c fun p => { p with zombie := false }) := by
  have changed : ∀ u, ∃ zombie, (s.setProc c fun p => { p with zombie := false }).proc u =
      { s.proc u with zombie := zombie } ∧ ((s.proc u).zombie = false → zombie = false) := by
    intro u
    by_cases same : u = c
    · subst same
      exact ⟨false, update_self _ _ _, fun _ => rfl⟩
    · exact ⟨(s.proc u).zombie, update_of_ne same _ _, id⟩
  refine ⟨fun u listed other => ?_, fun u listed live => ?_, family.older, family.started, ?_⟩
  · obtain ⟨_, same, -⟩ := changed u
    refine (family.waited u listed other).mono (by rw [same]) fun v listed' _ live _ => ?_
    obtain ⟨_, same', stays⟩ := changed v
    rw [same']
    exact .inr ⟨listed', stays live, rfl⟩
  · by_cases same : u = c
    · subst same
      rw [setProc]
      simp [holds]
    · have kept : (s.setProc c fun p => { p with zombie := false }).proc u = s.proc u :=
        update_of_ne same _ _
      rw [kept] at live ⊢
      exact family.running u listed live
  · obtain ⟨_, same, -⟩ := changed initProc
    rw [same]
    exact family.init

theorem Family.prepare {fd : FdState} : Family (s.vmaAlloc.procAllocPid.setFd fd) :=
  family.congr rfl rfl fun _ => ⟨rfl, rfl, rfl, rfl⟩

theorem Family.share {fd : FdState} : Family ((s.vmaShare c).procAllocPid.setFd fd) := by
  refine family.congr rfl rfl fun u => ?_
  by_cases eq : u = c
  · subst eq
    simp [vmaShare, setProc, procAllocPid, setFd]
  · simp [vmaShare, setProc, procAllocPid, setFd, eq]

end

theorem OrphansNobody.parent {op : Op} (ok : OrphansNobody s ⟨c, op⟩) (creating : creates op = true)
    (hl : c ∈ s.all) (room : ¬maxProcesses ≤ s.forkCount) : (s.proc c).pid = 1 ∨
      ∃ v ∈ s.all, (s.proc v).zombie = false ∧ (s.proc v).pid = (s.proc c).pid := by
  obtain live | init := ok.1 creating (Nat.lt_of_not_le room)
  · exact .inr ⟨c, hl, live, rfl⟩
  · exact .inl init

section
variable (family : Family s)
include family

theorem Family.sysFork {r : ForkEnd} (ok : OrphansNobody s ⟨c, .fork r⟩) (hl : c ∈ s.all) :
    Family (s.sysFork c T r) := by
  unfold System.sysFork
  split
  · exact family
  · rename_i room
    cases r with
    | noPcb => exact family
    | noFdTable => exact family
    | noMemory => exact family.prepare
    | ok => exact family.prepare.schedAdd rfl (ok.parent rfl hl room)

theorem Family.sysSpawn {stdio : Option Nat} {r : SpawnEnd}
    (ok : OrphansNobody s ⟨c, .spawn stdio r⟩) (hl : c ∈ s.all) :
    Family (s.sysSpawn c T stdio r) := by
  unfold System.sysSpawn
  split
  · exact family
  rename_i room
  cases r with
  | early => exact family
  | late => exact family.congr rfl rfl fun _ => ⟨rfl, rfl, rfl, rfl⟩
  | ok => exact family.prepare.schedAdd rfl (ok.parent rfl hl room)

theorem Family.sysClone {files thread : Bool} {r : CloneEnd}
    (ok : OrphansNobody s ⟨c, .clone files thread r⟩) (hl : c ∈ s.all) :
    Family (s.sysClone c T files thread r) := by
  unfold System.sysClone
  split
  · exact family
  rename_i room
  cases r with
  | refused => exact family
  | noPcb => exact family
  | noFdTable => exact family
  | noStack =>
    obtain ⟨proc, all, next, -⟩ := @vmaFree_fields ((s.vmaShare c).procAllocPid.setFd
      ((s.cloneFiles T files).1.fdTableUnref (s.cloneFiles T files).2))
      (s.proc c).vmaTable ((s.proc c).vmaRefcount + 1)
    exact family.share.congr all next fun u => by rw [proc]; exact ⟨rfl, rfl, rfl, rfl⟩
  | ok =>
    refine family.share.schedAdd rfl ?_
    have live : ∀ v, ((s.vmaShare c).proc v).zombie = (s.proc v).zombie ∧
        ((s.vmaShare c).proc v).pid = (s.proc v).pid := by
      intro v
      by_cases eq : v = c
      · subst eq
        simp [System.vmaShare, System.setProc]
      · simp [System.vmaShare, System.setProc, eq]
    obtain init | ⟨v, hl', zombie, pid⟩ := ok.parent rfl hl room
    · exact .inl init
    · exact .inr ⟨v, hl', (live v).1.trans zombie, (live v).2.trans pid⟩

theorem family_step (ok : OrphansNobody s call) (step : procStep s call = some s') : Family s' := by
  obtain ⟨c, op⟩ := call
  obtain ⟨T, hl, hh, hp⟩ := procStep_eq_some step
  cases op with
  | fork hr =>
    cases hp
    exact family.sysFork ok hl
  | clone files thread hr =>
    cases hp
    exact family.sysClone ok hl
  | spawn stdio hr =>
    cases hp
    exact family.sysSpawn ok hl
  | execve hr =>
    cases hp
    cases hr with
    | ok => exact family.congr rfl rfl fun _ => ⟨rfl, rfl, rfl, rfl⟩
    | failed => exact family
    | fatal => exact family.schedExit (ok.2.1 rfl)
  | exit =>
    cases hp
    exact family.sysExit
  | exitGroup =>
    cases hp
    exact (family.killGroup (ok.2.2 rfl)).sysExit
  | fatalSignal =>
    cases hp
    exact family.schedExit (ok.2.1 rfl)
  | waitpid t =>
    rw [perform] at hp
    split at hp
    · rename_i ha
      cases hp
      exact family.reap ha.2.2.1
    · cases hp
  | descriptor call =>
    cases hp
    exact family.congr rfl rfl fun _ => ⟨rfl, rfl, rfl, rfl⟩
  | woken =>
    cases hp
    exact family.woken hh

theorem Family.waitpid_enabled (hl : u ∈ s.all) (zombie : (s.proc u).zombie = true)
    (parent : v ∈ s.all) (live : (s.proc v).zombie = false)
    (pid : (s.proc v).pid = (s.proc u).ppid) : (procStep s ⟨v, .waitpid u⟩).isSome := by
  obtain ⟨T, hh⟩ := Option.isSome_iff_exists.mp (family.running v parent live)
  have other : u ≠ v := fun eq => by simp [← eq, zombie] at live
  have hr : s.Reapable v u := ⟨hl, other, zombie, pid.symm⟩
  simp [procStep, runner, parent, hh, perform, hr]

end

/-- In a run that orphans nobody, every process but init has a parent that is not a zombie or
init, and every zombie can be reaped at once unless it waits for an init that is gone. -/
theorem every_process_has_reaper {labels : List Call}
    (run : RunWhere procStep OrphansNobody boot labels s) :
    (∀ u ∈ s.all, u ≠ initProc → (s.proc u).ppid = 1 ∨
      ∃ v ∈ s.all, v ≠ u ∧ (s.proc v).zombie = false ∧ (s.proc v).pid = (s.proc u).ppid) ∧
    ∀ u ∈ s.all, u ≠ initProc → (s.proc u).zombie = true →
      (∃ v, (procStep s ⟨v, .waitpid u⟩).isSome) ∨
      (s.proc u).ppid = 1 ∧ ¬(initProc ∈ s.all ∧ (s.proc initProc).zombie = false) := by
  have family := run.invariant family_boot fun _ _ _ family ok step => family_step family ok step
  refine ⟨family.waited, fun u listed other zombie => ?_⟩
  obtain init | ⟨v, parent, -, live, pid⟩ := family.waited u listed other
  · by_cases here : initProc ∈ s.all ∧ (s.proc initProc).zombie = false
    · exact .inl ⟨initProc, family.waitpid_enabled listed zombie here.1 here.2
        (family.init.trans init.symm)⟩
    · exact .inr ⟨init, here⟩
  · exact .inl ⟨v, family.waitpid_enabled listed zombie parent live pid⟩

def grandchild : List Call :=
  [⟨0, .fork .ok⟩, ⟨1, .fork .ok⟩, ⟨1, .exit⟩, ⟨2, .exit⟩]

theorem grandchild_ends : (exec (guarded procStep OrphansNobody) boot grandchild).any (fun s =>
    s.all = [2, 1, 0] ∧ (s.proc 2).zombie = true ∧ (s.proc 0).zombie = false) = true := by
  decide +kernel

theorem every_process_has_reaper_grandchild :
    ∃ s, (s.all = [2, 1, 0] ∧ (s.proc 2).zombie = true ∧ (s.proc 0).zombie = false) ∧
      ∃ v, (procStep s ⟨v, .waitpid 2⟩).isSome := by
  obtain ⟨enabled, facts⟩ := reached_of_any grandchild_ends
  rw [decide_eq_true_eq] at facts
  refine ⟨_, facts, ?_⟩
  obtain reaper | ⟨-, gone⟩ := (every_process_has_reaper (runWhere_of_exec enabled)).2 2
    (by simp [facts.1]) (by decide) facts.2.1
  · exact reaper
  · exact absurd ⟨by simp [facts.1, initProc], facts.2.2⟩ gone

def signalled : List Call :=
  [⟨0, .fork .ok⟩, ⟨1, .fork .ok⟩, ⟨1, .fatalSignal⟩, ⟨0, .waitpid 1⟩, ⟨2, .exit⟩]

def threadEndsGroup : List Call :=
  [⟨0, .fork .ok⟩, ⟨1, .clone true true .ok⟩, ⟨2, .exitGroup⟩, ⟨0, .waitpid 1⟩]

/-- Process 2 is a zombie, and its parent is neither init nor a process that exists. -/
def LeftBehind (s : System) : Prop :=
  2 ∈ s.all ∧ (s.proc 2).zombie = true ∧ (s.proc 2).ppid ≠ 1 ∧
    ∀ v ∈ s.all, (s.proc v).pid ≠ (s.proc 2).ppid ∧ (procStep s ⟨v, .waitpid 2⟩).isNone
  deriving Decidable

/-- Neither a fatal signal nor a thread that ends its group hands the children to init. -/
theorem zombie_left_behind : Run procStep boot signalled (reached procStep boot signalled) ∧
    LeftBehind (reached procStep boot signalled) ∧
    Run procStep boot threadEndsGroup (reached procStep boot threadEndsGroup) ∧
    LeftBehind (reached procStep boot threadEndsGroup) :=
  ⟨run_of_exec exec_eq_reached, by decide +kernel, run_of_exec exec_eq_reached,
    by decide +kernel⟩

/-! The process counter. -/

def reaps : Op → Bool
  | .waitpid _ => true
  | _ => false

def SameCount (s s' : System) : Prop :=
  s'.forkCount = s.forkCount ∧ s'.all.length = s.all.length

def OneMore (s s' : System) : Prop :=
  s.forkCount < maxProcesses ∧ s'.forkCount = s.forkCount + 1 ∧
    s'.all.length = s.all.length + 1

theorem sysFork_count {r : ForkEnd} :
    SameCount s (s.sysFork c T r) ∨ OneMore s (s.sysFork c T r) := by
  unfold sysFork
  split
  · exact .inl ⟨rfl, rfl⟩
  · rename_i room
    cases r with
    | ok => exact .inr ⟨Nat.lt_of_not_le room, rfl, rfl⟩
    | _ => exact .inl ⟨rfl, rfl⟩

theorem sysSpawn_count {stdio : Option Nat} {r : SpawnEnd} :
    SameCount s (s.sysSpawn c T stdio r) ∨ OneMore s (s.sysSpawn c T stdio r) := by
  unfold sysSpawn
  split
  · exact .inl ⟨rfl, rfl⟩
  rename_i room
  cases r with
  | ok => exact .inr ⟨Nat.lt_of_not_le room, rfl, rfl⟩
  | _ => exact .inl ⟨rfl, rfl⟩

theorem sysClone_count {files thread : Bool} {r : CloneEnd} :
    SameCount s (s.sysClone c T files thread r) ∨ OneMore s (s.sysClone c T files thread r) := by
  unfold sysClone
  split
  · exact .inl ⟨rfl, rfl⟩
  rename_i room
  cases r with
  | ok => exact .inr ⟨Nat.lt_of_not_le room, rfl, rfl⟩
  | noStack => exact .inl ⟨vmaFree_fields.2.2.2.1, congrArg List.length vmaFree_fields.2.1⟩
  | _ => exact .inl ⟨rfl, rfl⟩

theorem procStep_count {op : Op} (step : procStep s ⟨c, op⟩ = some s') :
    (reaps op = false ∧ (SameCount s s' ∨ OneMore s s')) ∨
      (reaps op = true ∧ s'.forkCount = s.forkCount ∧ s'.all.length + 1 = s.all.length) := by
  obtain ⟨T, hl, -, hp⟩ := procStep_eq_some step
  cases op with
  | fork hr =>
    cases hp
    exact .inl ⟨rfl, sysFork_count⟩
  | clone files thread hr =>
    cases hp
    exact .inl ⟨rfl, sysClone_count⟩
  | spawn stdio hr =>
    cases hp
    exact .inl ⟨rfl, sysSpawn_count⟩
  | execve hr =>
    cases hp
    cases hr <;> exact .inl ⟨rfl, .inl ⟨rfl, rfl⟩⟩
  | waitpid t =>
    rw [perform] at hp
    split at hp
    · rename_i ha
      cases hp
      obtain ⟨-, all, -, forkCount, -⟩ := @reap_fields s t
      have hs := length_erase_of_mem ha.1
      have some := length_pos_of_mem ha.1
      rw [← all] at hs
      exact .inr ⟨rfl, forkCount, by omega⟩
    · cases hp
  | _ =>
    cases hp
    exact .inl ⟨rfl, .inl ⟨rfl, rfl⟩⟩

theorem forkCount_eq {labels : List Call} (run : Run procStep boot labels s) :
    s.forkCount = s.all.length + labels.countP (fun call => reaps call.op) ∧
      s.forkCount ≤ maxProcesses := by
  induction run with
  | nil => decide
  | @snoc labels t s call _ _ step ih =>
    obtain ⟨ih, limit⟩ := ih
    rw [countP_append, countP_singleton]
    obtain ⟨other, ⟨eq, length⟩ | ⟨room, more, length⟩⟩ | ⟨reaping, eq, length⟩ :=
      procStep_count step
    · rw [other]
      exact ⟨by simp; omega, by omega⟩
    · rw [other]
      exact ⟨by simp; omega, by omega⟩
    · rw [reaping]
      exact ⟨by simp; omega, by omega⟩

/-- The counter is the number of processes that exist, up to the limit, exactly in the runs
in which nobody is reaped. -/
theorem fork_count_iff {labels : List Call} (run : Run procStep boot labels s) :
    (s.forkCount = s.all.length ∧ s.all.length ≤ maxProcesses) ↔
      ∀ call ∈ labels, reaps call.op = false := by
  obtain ⟨count, limit⟩ := forkCount_eq run
  have nobody : labels.countP (fun call => reaps call.op) = 0 ↔
      ∀ call ∈ labels, reaps call.op = false := by
    simp [countP_eq_zero]
  rw [← nobody]
  omega

theorem fork_count_iff_grandchild :
    ∃ s, Run procStep boot grandchild s ∧ s.forkCount = 3 ∧ s.all.length = 3 :=
  exists_run_of (fun s => s.forkCount = 3) fun _ run three =>
    ⟨three, ((fork_count_iff run).mpr (by decide)).1.symm.trans three⟩

def reapedChildren : List Call :=
  (List.range 63).flatMap fun i =>
    [⟨0, .fork .ok⟩, ⟨i + 1, .exit⟩, ⟨0, .waitpid (i + 1)⟩]

/-- Init is alone and nobody can be created any more. -/
theorem fork_count_stays_high :
    Run procStep boot reapedChildren (reached procStep boot reapedChildren) ∧
      (reached procStep boot reapedChildren).all = [initProc] ∧
      (reached procStep boot reapedChildren).forkCount = maxProcesses :=
  ⟨run_of_exec exec_eq_reached, by decide +kernel⟩

end Aegis.Process
