import Aegis.ProcLife

/-! The pages of VMA tables. `vma_share` counts up in the parent and gives the child a copy of
the count, and `vma_free` counts down only in the process that is reaped, so a count is right
in all its holders only while a page has at most one sharing and its sharers are not reaped.
A fork or spawn that fails after the page was allocated never gives it back. -/

namespace Aegis.Process

open LabelledRun List Nat Process.System

def users (s : System) (page : VmaPage) : Nat :=
  s.all.countP fun u => decide ((s.proc u).vmaTable = page)

structure VmaCounted (s : System) : Prop where
  counts : ∀ u ∈ s.all, (s.proc u).vmaRefcount = users s (s.proc u).vmaTable
  freed : ∀ page, page ∈ s.freedVma ↔ page < s.nextVma ∧ users s page = 0
  once : s.freedVma.Nodup

structure VmaSound (s : System) : Prop extends VmaCounted s where
  nodup : s.all.Nodup
  older : ∀ u ∈ s.all, u < s.nextProc
  pages : ∀ u ∈ s.all, (s.proc u).vmaTable < s.nextVma

def shares : Op → Bool
  | .clone _ _ .ok => true
  | _ => false

def failsLate : Op → Bool
  | .fork .noMemory => true
  | .clone _ _ .noStack => true
  | .spawn _ .late => true
  | _ => false

/-- The process that is reaped is the only user its count knows of. -/
def ReapsOwner (s : System) : Op → Prop
  | .waitpid t => (s.proc t).vmaRefcount = 1
  | _ => True

/-- The page of the caller is shared at most once, no creating call fails late, and only
processes with a page of their own are reaped. -/
def CountsKept (s : System) (call : Call) : Prop :=
  (shares call.op = true → s.forkCount < maxProcesses →
    (s.proc call.caller).vmaRefcount = 1) ∧
  (failsLate call.op = true → maxProcesses ≤ s.forkCount) ∧
  ReapsOwner s call.op

instance (s : System) (op : Op) : Decidable (ReapsOwner s op) := by
  rcases op <;> (dsimp only [ReapsOwner]; infer_instance)

instance (s : System) (call : Call) : Decidable (CountsKept s call) :=
  inferInstanceAs (Decidable (_ ∧ _ ∧ _))

variable {s s' : System} {call : Call} {c t u : ProcId} {T : TableId} {child : Proc}
  {page : VmaPage}

theorem vmaSound_boot : VmaSound boot where
  counts u listed := by rw [mem_singleton.mp listed]; rfl
  freed page := by
    simp only [boot, users, not_mem_nil, false_iff, not_and]
    intro h1
    simp [lt_one_iff.mp h1]
  once := nodup_nil
  nodup := nodup_singleton _
  older _ listed := (mem_singleton.mp listed) ▸ Nat.zero_lt_one
  pages _ _ := Nat.zero_lt_one

theorem VmaSound.congr (sound : VmaSound s) (all : s'.all = s.all)
    (next : s'.nextProc = s.nextProc) (hn : s'.nextVma = s.nextVma)
    (hf : s'.freedVma = s.freedVma)
    (eq : ∀ u, (s'.proc u).vmaTable = (s.proc u).vmaTable ∧
      (s'.proc u).vmaRefcount = (s.proc u).vmaRefcount) : VmaSound s' := by
  have users : ∀ page, users s' page = users s page := by
    intro page
    simp only [Process.users, all, eq]
  refine ⟨⟨fun u hl => ?_, fun page => ?_, hf ▸ sound.once⟩, all ▸ sound.nodup,
    all ▸ next ▸ sound.older, fun u hl => ?_⟩
  · rw [(eq u).1, (eq u).2, users]
    exact sound.counts u (all ▸ hl)
  · rw [hf, hn, users]
    exact sound.freed page
  · rw [(eq u).1, hn]
    exact sound.pages u (all ▸ hl)

theorem VmaSound.users_new (sound : VmaSound s) : users s s.nextVma = 0 :=
  countP_eq_zero.mpr fun u hl => by
    simpa using Nat.ne_of_lt (sound.pages u hl)

theorem users_schedAdd (ho : ∀ u ∈ s.all, u < s.nextProc) :
    users (s.schedAdd child) page = users s page + (decide (child.vmaTable = page)).toNat := by
  have old : s.all.countP (fun u => decide (((s.schedAdd child).proc u).vmaTable = page)) =
      users s page :=
    countP_congr fun u hl => by rw [schedAdd_proc (ho u hl)]
  rw [users, show (s.schedAdd child).all = s.nextProc :: s.all from rfl, countP_cons, old,
    schedAdd_self]
  cases decide (child.vmaTable = page) <;> rfl

theorem VmaSound.schedAdd (nodup : s.all.Nodup) (ho : ∀ u ∈ s.all, u < s.nextProc)
    (pages : ∀ u ∈ s.all, (s.proc u).vmaTable < s.nextVma) (once : s.freedVma.Nodup)
    (new : child.vmaTable < s.nextVma ∧ child.vmaRefcount = users s child.vmaTable + 1)
    (hc : ∀ u ∈ s.all, (s.proc u).vmaRefcount = users s (s.proc u).vmaTable +
      (decide (child.vmaTable = (s.proc u).vmaTable)).toNat)
    (hf : ∀ page, page ∈ s.freedVma ↔ page < s.nextVma ∧
      users s page + (decide (child.vmaTable = page)).toNat = 0) :
    VmaSound (s.schedAdd child) := by
  refine ⟨⟨fun u hl => ?_, fun page => ?_, once⟩, ?_, fun u hl => ?_, fun u hl => ?_⟩
  · rw [users_schedAdd ho]
    rcases mem_cons.mp hl with rfl | pre
    · rw [schedAdd_self, new.2]
      simp
    · rw [schedAdd_proc (ho u pre)]
      exact hc u pre
  · rw [users_schedAdd ho]
    exact hf page
  · exact nodup.cons fun hl => lt_irrefl _ (ho _ hl)
  · rcases mem_cons.mp hl with rfl | pre
    · exact lt_succ_self _
    · exact lt_succ_of_lt (ho u pre)
  · rcases mem_cons.mp hl with rfl | pre
    · rw [schedAdd_self]
      exact new.1
    · rw [schedAdd_proc (ho u pre)]
      exact pages u pre

theorem VmaSound.own {fd : FdState} (sound : VmaSound s) (table : child.vmaTable = s.nextVma)
    (one : child.vmaRefcount = 1) :
    VmaSound ((s.vmaAlloc.procAllocPid.setFd fd).schedAdd child) := by
  have users : ∀ page, users (s.vmaAlloc.procAllocPid.setFd fd) page = Process.users s page :=
    fun _ => rfl
  refine .schedAdd sound.nodup sound.older
    (fun u hl => lt_succ_of_lt (sound.pages u hl)) sound.once ⟨?_, ?_⟩
    (fun u hl => ?_) fun page => ?_
  · rw [table]
    exact lt_succ_self _
  · rw [users, table, sound.users_new, one]
  · have other : s.nextVma ≠ (s.proc u).vmaTable := ne_of_gt (sound.pages u hl)
    have hu : (decide (s.nextVma = (s.proc u).vmaTable)).toNat = 0 := by simp [other]
    rw [users, table]
    refine (sound.counts u hl).trans ?_
    exact (congrArg (Process.users s (s.proc u).vmaTable + ·) hu).symm
  · rw [users, table]
    refine (sound.freed page).trans ?_
    by_cases new : s.nextVma = page
    · subst new
      simp
    have hb : page < s.nextVma ↔ page < s.nextVma + 1 :=
      ⟨lt_succ_of_lt, fun le => lt_of_le_of_ne (le_of_lt_succ le) (Ne.symm new)⟩
    rw [decide_eq_false new, Bool.toNat_false, add_zero]
    exact and_congr_left' hb

theorem vmaShare_table : ((s.vmaShare c).proc u).vmaTable = (s.proc u).vmaTable := by
  by_cases eq : u = c
  · subst eq
    simp [vmaShare, setProc]
  · simp [vmaShare, setProc, eq]

theorem VmaSound.alone (sound : VmaSound s) (hl : c ∈ s.all)
    (one : (s.proc c).vmaRefcount = 1) (hl' : u ∈ s.all)
    (table : (s.proc u).vmaTable = (s.proc c).vmaTable) : u = c :=
  Tally.eq_of_countP_eq_one ((sound.counts c hl).symm.trans one) hl
    (decide_eq_true rfl) hl' (decide_eq_true table)

theorem VmaSound.share {fd : FdState} (sound : VmaSound s) (hl : c ∈ s.all)
    (one : (s.proc c).vmaRefcount = 1) (table : child.vmaTable = (s.proc c).vmaTable)
    (count : child.vmaRefcount = (s.proc c).vmaRefcount + 1) :
    VmaSound (((s.vmaShare c).procAllocPid.setFd fd).schedAdd child) := by
  have users : ∀ page, users ((s.vmaShare c).procAllocPid.setFd fd) page =
      Process.users s page := fun page =>
    countP_congr fun u _ => by
      rw [show ((s.vmaShare c).procAllocPid.setFd fd).proc u = (s.vmaShare c).proc u from rfl,
        vmaShare_table]
  refine .schedAdd sound.nodup sound.older (fun u mem => ?_) sound.once ⟨?_, ?_⟩
    (fun u mem => ?_) fun page => ?_
  · rw [show ((s.vmaShare c).procAllocPid.setFd fd).proc u = (s.vmaShare c).proc u from rfl,
      vmaShare_table]
    exact sound.pages u mem
  · rw [table]
    exact sound.pages c hl
  · rw [users, table, count, sound.counts c hl]
  · rw [users, table]
    rw [show ((s.vmaShare c).procAllocPid.setFd fd).proc u = (s.vmaShare c).proc u from rfl,
      vmaShare_table, ← sound.counts u mem]
    by_cases he : u = c
    · subst he
      simp [vmaShare, setProc]
    have other : (s.proc c).vmaTable ≠ (s.proc u).vmaTable := fun eq =>
      he (sound.alone hl one mem eq.symm)
    simp [vmaShare, setProc, he, other]
  · rw [users, table]
    refine (sound.freed page).trans (and_congr_right fun _ => ?_)
    by_cases here : (s.proc c).vmaTable = page
    · have one' := sound.counts c hl
      rw [here, one] at one'
      simp [here, ← one']
    · simp [here]

theorem users_reap (hl : t ∈ s.all) :
    users (s.reap t) page + (decide ((s.proc t).vmaTable = page)).toNat = users s page := by
  rw [users, reap_fields.1, reap_fields.2.1]
  exact Tally.countP_erase hl

section
variable (sound : VmaSound s)
include sound

theorem VmaSound.reap (hl : t ∈ s.all) (one : (s.proc t).vmaRefcount = 1) :
    VmaSound (s.reap t) := by
  have users := fun page => @users_reap s t page hl
  have last : Process.users s (s.proc t).vmaTable = 1 := (sound.counts t hl).symm.trans one
  have hf : (s.reap t).freedVma = (s.proc t).vmaTable :: s.freedVma := by
    simp [System.reap, System.vmaFree, one]
  obtain ⟨proc, all, next, -, -, hn⟩ := @reap_fields s t
  refine ⟨⟨fun u mem => ?_, fun page => ?_, ?_⟩, all ▸ sound.nodup.erase t,
    fun u mem => ?_, fun u mem => ?_⟩
  · rw [all, sound.nodup.mem_erase_iff] at mem
    have other : (s.proc t).vmaTable ≠ (s.proc u).vmaTable := fun eq =>
      mem.1 (sound.alone hl one mem.2 eq.symm)
    have he := users (s.proc u).vmaTable
    rw [decide_eq_false other, Bool.toNat_false, add_zero] at he
    rw [proc, he]
    exact sound.counts u mem.2
  · have hc := users page
    rw [hf, mem_cons, hn, sound.freed page]
    by_cases here : (s.proc t).vmaTable = page
    · subst here
      have hb := sound.pages t hl
      rw [last, decide_eq_true rfl, Bool.toNat_true] at hc
      simp [hb]
      omega
    · rw [decide_eq_false here, Bool.toNat_false, add_zero] at hc
      simp [Ne.symm here, hc]
  · rw [hf]
    exact sound.once.cons fun hr => by simp [((sound.freed _).mp hr).2] at last
  · rw [next]
    exact sound.older u (mem_of_mem_erase (all ▸ mem))
  · rw [proc, hn]
    exact sound.pages u (mem_of_mem_erase (all ▸ mem))

theorem VmaSound.sysFork {r : ForkEnd} (ok : CountsKept s ⟨c, .fork r⟩) :
    VmaSound (s.sysFork c T r) := by
  unfold System.sysFork
  split
  · exact sound
  · rename_i room
    cases r with
    | noPcb => exact sound
    | noFdTable => exact sound
    | noMemory => exact absurd (ok.2.1 rfl) room
    | ok => exact sound.own rfl rfl

theorem VmaSound.sysSpawn {stdio : Option Nat} {r : SpawnEnd}
    (ok : CountsKept s ⟨c, .spawn stdio r⟩) : VmaSound (s.sysSpawn c T stdio r) := by
  unfold System.sysSpawn
  split
  · exact sound
  rename_i room
  cases r with
  | early => exact sound
  | late => exact absurd (ok.2.1 rfl) room
  | ok => exact sound.own rfl rfl

theorem VmaSound.sysClone {files thread : Bool} {r : CloneEnd}
    (ok : CountsKept s ⟨c, .clone files thread r⟩) (hl : c ∈ s.all) :
    VmaSound (s.sysClone c T files thread r) := by
  unfold System.sysClone
  split
  · exact sound
  rename_i room
  cases r with
  | refused => exact sound
  | noPcb => exact sound
  | noFdTable => exact sound
  | noStack => exact absurd (ok.2.1 rfl) room
  | ok => exact sound.share hl (ok.1 rfl (Nat.lt_of_not_le room)) rfl rfl

theorem VmaSound.schedExit : VmaSound (s.schedExit c T) := by
  refine sound.congr rfl rfl rfl rfl fun u => ?_
  by_cases eq : u = c
  · rw [eq, schedExit_self]
    exact ⟨rfl, rfl⟩
  · rw [schedExit_proc eq]
    exact ⟨rfl, rfl⟩

theorem VmaSound.reparent : VmaSound (s.reparent c) := by
  refine sound.congr rfl rfl rfl rfl fun u => ?_
  obtain ⟨ppid, hm⟩ := @reparent_proc s c u
  rw [hm]
  exact ⟨rfl, rfl⟩

theorem VmaSound.killGroup : VmaSound (s.killGroup c) := by
  refine sound.congr rfl rfl rfl rfl fun u => ?_
  obtain ⟨zombie, hk, -⟩ := @killGroup_proc s c u
  rw [hk]
  exact ⟨rfl, rfl⟩

theorem VmaSound.woken : VmaSound (s.setProc c fun p => { p with zombie := false }) := by
  refine sound.congr rfl rfl rfl rfl fun u => ?_
  by_cases eq : u = c
  · subst eq
    simp [setProc]
  · simp [setProc, eq]

theorem vmaSound_step (ok : CountsKept s call) (step : procStep s call = some s') :
    VmaSound s' := by
  obtain ⟨c, op⟩ := call
  obtain ⟨T, hl, -, hp⟩ := procStep_eq_some step
  cases op with
  | fork hr =>
    cases hp
    exact sound.sysFork ok
  | clone files thread hr =>
    cases hp
    exact sound.sysClone ok hl
  | spawn stdio hr =>
    cases hp
    exact sound.sysSpawn ok
  | execve hr =>
    cases hp
    cases hr with
    | ok => exact sound.congr rfl rfl rfl rfl fun _ => ⟨rfl, rfl⟩
    | failed => exact sound
    | fatal => exact sound.schedExit
  | exit =>
    cases hp
    exact sound.reparent.schedExit
  | exitGroup =>
    cases hp
    exact sound.killGroup.reparent.schedExit
  | fatalSignal =>
    cases hp
    exact sound.schedExit
  | waitpid t =>
    rw [perform] at hp
    split at hp
    · rename_i ha
      cases hp
      exact sound.reap ha.1 ok.2.2
    · cases hp
  | descriptor call =>
    cases hp
    exact sound.congr rfl rfl rfl rfl fun _ => ⟨rfl, rfl⟩
  | woken =>
    cases hp
    exact sound.woken

end

/-- In every run whose steps keep the counts, each stored count is the number of users, and a
page is given back exactly when its last user is gone, and once. -/
theorem vma_tables_counted {labels : List Call}
    (run : RunWhere procStep CountsKept boot labels s) : VmaCounted s :=
  (run.invariant vmaSound_boot fun _ _ _ sound ok step => vmaSound_step sound ok step).toVmaCounted

def threadLife : List Call :=
  [⟨0, .fork .ok⟩, ⟨1, .clone true true .ok⟩, ⟨0, .fork .ok⟩, ⟨3, .execve .ok⟩, ⟨3, .exit⟩,
    ⟨0, .waitpid 3⟩, ⟨2, .exit⟩]

theorem threadLife_ends : (exec (guarded procStep CountsKept) boot threadLife).any (fun s =>
    (s.proc 1).vmaTable = 1 ∧ (s.proc 1).vmaRefcount = 2 ∧ 2 ∈ s.freedVma ∧ 1 ∈ s.all) = true := by
  decide +kernel

theorem vma_tables_counted_thread : ∃ s, 1 ∈ s.all ∧ users s 1 = 2 ∧ users s 2 = 0 := by
  obtain ⟨enabled, facts⟩ := reached_of_any threadLife_ends
  rw [decide_eq_true_eq] at facts
  have counted := vma_tables_counted (runWhere_of_exec enabled)
  have count := counted.counts 1 facts.2.2.2
  rw [facts.1, facts.2.1] at count
  exact ⟨_, facts.2.2.2, count.symm, ((counted.freed 2).mp facts.2.2.1).2⟩

def threadReaped : List Call :=
  [⟨0, .fork .ok⟩, ⟨1, .clone true true .ok⟩, ⟨2, .exit⟩, ⟨1, .waitpid 2⟩]

/-- The only user left has a count of two, and its page is not given back when it is reaped. -/
theorem vma_count_stays_high : Run procStep boot threadReaped (reached procStep boot threadReaped) ∧
    users (reached procStep boot threadReaped) 1 = 1 ∧
    ((reached procStep boot threadReaped).proc 1).vmaRefcount = 2 ∧
    ∃ s, Run procStep boot (threadReaped ++ [⟨1, .exit⟩, ⟨0, .waitpid 1⟩]) s ∧
      users s 1 = 0 ∧ 1 < s.nextVma ∧ 1 ∉ s.freedVma := by
  have high : (exec procStep boot threadReaped).any (fun s =>
      users s 1 = 1 ∧ (s.proc 1).vmaRefcount = 2) = true := by
    decide +kernel
  obtain ⟨enabled, high⟩ := reached_of_any high
  rw [decide_eq_true_eq] at high
  exact ⟨run_of_exec enabled, high.1, high.2, exists_run⟩

end Aegis.Process
