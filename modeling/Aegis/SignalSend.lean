import Aegis.RunQueueRun
import Aegis.SignalState
import Aegis.Capability

/-! Sending signals: `signal_send_pid`, `signal_send_pgrp` and `sys_kill`, over the
scheduler's tasks with their pending sets and capability tables. A search by pid stops at
the first task with that pid and wakes it only if it is blocked; a send to a group visits
every member and also resumes the stopped ones, whatever the signal is. -/

namespace Aegis.SignalSend

open Sched SignalState Capability LabelledRun List

structure Signals where
  kernel : Kernel
  pending : TaskId → Word
  caps : TaskId → CapTable

def post (s : Signals) (t : TaskId) (signum : Nat) : Signals :=
  { s with pending := Function.update s.pending t (s.pending t ||| bit signum) }

def wake (s : Signals) (t : TaskId) : Signals :=
  { s with kernel := schedWake s.kernel t }

def named (k : Kernel) (pid : Nat) (t : TaskId) : Bool :=
  (k.task t).isUser && (k.task t).pid == pid

def signalSendPid (s : Signals) (c : TaskId) (pid signum : Nat) : Signals :=
  if pid = 0 ∨ signum = 0 ∨ 64 ≤ signum then s
  else
    match (c :: others s.kernel.all c).find? (named s.kernel pid) with
    | none => s
    | some t =>
      if (s.kernel.task t).state = .blocked then wake (post s t signum) t else post s t signum

def Member (k : Kernel) (pgid : Nat) (t : TaskId) : Prop :=
  (k.task t).isUser ∧ (k.task t).pgid = pgid ∧ (k.task t).pid ≠ 1
  deriving Decidable

def signalMember (pgid signum : Nat) (s : Signals) (t : TaskId) : Signals :=
  if Member s.kernel pgid t then
    if (s.kernel.task t).state = .stopped then wake (post s t signum) t
    else if (s.kernel.task t).state = .blocked then wake (post s t signum) t
    else post s t signum
  else s

def signalSendPgrp (s : Signals) (c : TaskId) (pgid signum : Nat) : Signals :=
  if pgid = 0 ∨ signum = 0 ∨ 64 ≤ signum then s
  else (c :: others s.kernel.all c).foldl (signalMember pgid signum) s

def int32 (arg : Word) : Int :=
  (arg.setWidth 32).toInt

def sysKill (s : Signals) (c : TaskId) (arg1 arg2 : Word) : Signals × Word :=
  let pid := int32 arg1
  let sig := int32 arg2
  if sig ≤ 0 ∨ 64 ≤ sig then (s, errno 22)
  else if capCheck (s.caps c) capKindProcRead capRightsWrite = false then (s, errno 1)
  else if pid = 1 ∧ (s.kernel.task c).pid ≠ 1 ∧
      capCheck (s.caps c) capKindPower capRightsRead = false then (s, errno 1)
  else if pid < 0 then (signalSendPgrp s c (-pid).toNat sig.toNat, 0)
  else if pid = 0 then (signalSendPgrp s c (s.kernel.task c).pgid sig.toNat, 0)
  else (signalSendPid s c pid.toNat sig.toNat, 0)

variable {s : Signals} {c p t : TaskId} {pid pgid signum : Nat}

@[simp] theorem post_kernel : (post s t signum).kernel = s.kernel := rfl

@[simp] theorem wake_kernel : (wake s t).kernel = schedWake s.kernel t := rfl

@[simp] theorem wake_pending : (wake s t).pending = s.pending := rfl

theorem signalMember_kernel :
    (signalMember pgid signum s t).kernel = Sched.signalMember pgid s.kernel t := by
  by_cases mem : Member s.kernel pgid t
  · rw [signalMember, if_pos mem]
    refine Eq.trans ?_ (if_pos mem).symm
    rw [schedResume]
    split_ifs <;> rfl
  · rw [signalMember, if_neg mem]
    exact (if_neg mem).symm

def Pends (s : Signals) (t : TaskId) (signum : Nat) : Prop :=
  (s.pending t).getLsbD signum = true
  deriving Decidable

theorem post_pends (range : signum < 64) : Pends (post s t signum) t signum := by
  simp [Pends, post, bit, range]

theorem post_pending_of_ne (other : p ≠ t) : (post s t signum).pending p = s.pending p :=
  Function.update_of_ne other ..

theorem mem_others (listed : c ∈ s.kernel.all) (mem : p ∈ s.kernel.all) :
    p ∈ c :: others s.kernel.all c := by
  obtain ⟨pre, after, split, out⟩ := eq_append_cons_of_mem listed
  rw [split, others_split out]
  rw [split] at mem
  simp only [mem_append, mem_cons] at mem ⊢
  tauto

theorem signalSendPid_stopped (c pid signum : Nat) (stopped : (s.kernel.task p).state = .stopped) :
    ((signalSendPid s c pid signum).kernel.task p).state = .stopped := by
  unfold signalSendPid
  split
  · exact stopped
  split
  · exact stopped
  next t hf =>
  split
  · next hb =>
    have other : p ≠ t := by
      intro eq
      rw [← eq, stopped] at hb
      cases hb
    rw [wake_kernel, schedWake_task_of_ne other]
    exact stopped
  · exact stopped

theorem signalSendPid_pends (valid : signum ≠ 0 ∧ signum < 64) (some_ : pid ≠ 0) :
    Pends (signalSendPid s c pid signum) p signum ↔
      (c :: others s.kernel.all c).find? (named s.kernel pid) = some p ∨ Pends s p signum := by
  have he : ¬ (pid = 0 ∨ signum = 0 ∨ 64 ≤ signum) := by omega
  rw [signalSendPid, if_neg he]
  cases (c :: others s.kernel.all c).find? (named s.kernel pid) with
  | none => simp
  | some t =>
    have both : (if (s.kernel.task t).state = .blocked then wake (post s t signum) t
        else post s t signum).pending = (post s t signum).pending := by
      split <;> rfl
    dsimp only
    rw [Pends, both, Option.some.injEq]
    by_cases eq : t = p
    · subst eq
      exact iff_of_true (post_pends valid.2) (.inl rfl)
    · rw [post_pending_of_ne (Ne.symm eq)]
      simp [eq, Pends]

theorem signalMember_of_ne (s : Signals) (pgid signum : Nat) (other : p ≠ t) :
    (signalMember pgid signum s t).kernel.task p = s.kernel.task p ∧
      (signalMember pgid signum s t).pending p = s.pending p := by
  unfold signalMember
  split_ifs <;> simp [schedWake_task_of_ne other, post_pending_of_ne other]

theorem signalMember_reaped : (signalMember pgid signum s t).kernel.reaped = s.kernel.reaped := by
  rw [signalMember_kernel]
  unfold Sched.signalMember schedResume schedWake
  split_ifs <;> rfl

theorem signalMember_self (mem : Member s.kernel pgid t) (live : t ∉ s.kernel.reaped)
    (range : signum < 64) (state : (s.kernel.task t).state ≠ .zombie) :
    (signalMember pgid signum s t).kernel.task t = { s.kernel.task t with state := .running } ∧
      Pends (signalMember pgid signum s t) t signum := by
  have hp := post_pends (s := s) (t := t) range
  have hw : (schedWake s.kernel t).task t = { s.kernel.task t with state := .running } := by
    simp [schedWake, live, makeRunnable, runListInsert, setState, updateTask]
  rw [signalMember, if_pos mem]
  split_ifs with stopped blocked
  · exact ⟨hw, hp⟩
  · exact ⟨hw, hp⟩
  refine ⟨?_, hp⟩
  have hr : (s.kernel.task t).state = .running := by
    cases now : (s.kernel.task t).state <;> simp_all
  rw [post_kernel, ← hr]

theorem signalMember_out (out : ¬ Member s.kernel pgid t) : signalMember pgid signum s t = s :=
  if_neg out

section Group
variable {ts : List TaskId}

theorem foldl_out (signum : Nat) (ts : List TaskId) (out : ¬ Member s.kernel pgid p) :
    (ts.foldl (signalMember pgid signum) s).kernel.task p = s.kernel.task p ∧
      (ts.foldl (signalMember pgid signum) s).pending p = s.pending p := by
  induction ts generalizing s with
  | nil => exact ⟨rfl, rfl⟩
  | cons t ts ih =>
    rw [foldl_cons]
    by_cases eq : p = t
    · subst eq
      rw [signalMember_out out]
      exact ih out
    · obtain ⟨task, hp⟩ := signalMember_of_ne s pgid signum eq
      rw [← task, ← hp]
      exact ih (by rwa [Member, task])

theorem foldl_member (mem : Member s.kernel pgid p) (live : p ∉ s.kernel.reaped)
    (range : signum < 64) (state : (s.kernel.task p).state ≠ .zombie)
    (hv : p ∈ ts ∨ (s.kernel.task p).state = .running ∧ Pends s p signum) :
    ((ts.foldl (signalMember pgid signum) s).kernel.task p).state = .running ∧
      Pends (ts.foldl (signalMember pgid signum) s) p signum := by
  induction ts generalizing s with
  | nil => exact hv.resolve_left (not_mem_nil)
  | cons t ts ih =>
    rw [foldl_cons]
    by_cases eq : p = t
    · subst eq
      obtain ⟨task, hn⟩ := signalMember_self mem live range state
      refine ih ?_ ?_ ?_ (.inr ⟨by rw [task], hn⟩)
      · rwa [Member, task]
      · rwa [signalMember_reaped]
      · rw [task]
        exact nofun
    · obtain ⟨task, hp⟩ := signalMember_of_ne s pgid signum eq
      refine ih ?_ ?_ ?_ ?_
      · rwa [Member, task]
      · rwa [signalMember_reaped]
      · rwa [task]
      · rw [task, Pends, hp]
        exact hv.imp_left fun listed => (mem_cons.mp listed).resolve_left eq

end Group

inductive Route where
  | pid
  | group

def Route.arg (task : Task) : Route → Word
  | .pid => BitVec.ofNat 64 task.pid
  | .group => BitVec.ofInt 64 (-(task.pgid : Int))

def Resumes (signum : Nat) : Prop :=
  signum = sigCont ∨ signum = sigKill
  deriving Decidable

def Obeyed (s : Signals) (p : TaskId) (signum : Nat) : Prop :=
  if Resumes signum then (s.kernel.task p).state = .running
  else (s.kernel.task p).state = .stopped ∧ Pends s p signum
  deriving Decidable

/-- The sends that do it: to the group if the signal resumes, by pid if it does not. A task
that the send does not reach may have the signal pending already. -/
def Suits (s : Signals) (c p : TaskId) (signum : Nat) : Route → Prop
  | .pid => ¬ Resumes signum ∧
      ((c :: others s.kernel.all c).find? (named s.kernel (s.kernel.task p).pid) = some p ∨
        Pends s p signum)
  | .group =>
    if Resumes signum then (s.kernel.task p).pid ≠ 1
    else (s.kernel.task p).pid = 1 ∧ Pends s p signum

instance (s : Signals) (c p : TaskId) (signum : Nat) (route : Route) :
    Decidable (Suits s c p signum route) := by
  rcases route <;> (dsimp only [Suits]; infer_instance)

theorem int32_ofNat {n : Nat} (range : n < 2 ^ 31) : int32 (BitVec.ofNat 64 n) = n := by
  simp only [int32, BitVec.toInt_eq_toNat_cond, BitVec.toNat_setWidth, BitVec.toNat_ofNat]
  have lt : n % 2 ^ 64 % 2 ^ 32 = n := by omega
  rw [lt, if_pos (by omega)]

theorem int32_neg {n : Nat} (pos : 0 < n) (range : n < 2 ^ 31) :
    int32 (BitVec.ofInt 64 (-(n : Int))) = -(n : Int) := by
  simp only [int32, BitVec.toInt_eq_toNat_cond, BitVec.toNat_setWidth, BitVec.toNat_ofInt]
  have hw : ((-(n : Int)) % ((2 ^ 64 : Nat) : Int)).toNat % 2 ^ 32 = 2 ^ 32 - n := by omega
  rw [hw, if_neg (by omega)]
  omega

theorem sysKill_sent {arg : Word} (valid : signum ≠ 0 ∧ signum < 64)
    (sent : (sysKill s c arg (BitVec.ofNat 64 signum)).2 = 0) :
    (sysKill s c arg (BitVec.ofNat 64 signum)).1 =
      if int32 arg < 0 then signalSendPgrp s c (-int32 arg).toNat signum
      else if int32 arg = 0 then signalSendPgrp s c (s.kernel.task c).pgid signum
      else signalSendPid s c (int32 arg).toNat signum := by
  have number : int32 (BitVec.ofNat 64 signum) = signum := int32_ofNat (by omega)
  have hi : ¬ ((signum : Int) ≤ 0 ∨ 64 ≤ (signum : Int)) := by omega
  have hr : errno 1 ≠ 0 := by decide
  simp only [sysKill, number, if_neg hi, Int.toNat_natCast] at sent ⊢
  split at sent
  · exact absurd sent hr
  next mayKill =>
  rw [if_neg mayKill]
  split at sent
  · exact absurd sent hr
  next mayKillInit =>
  rw [if_neg mayKillInit]
  split_ifs <;> rfl

section Stopped
variable (sender : c ∈ s.kernel.all) (listed : p ∈ s.kernel.all) (live : p ∉ s.kernel.reaped)
  (user : (s.kernel.task p).isUser = true) (stopped : (s.kernel.task p).state = .stopped)
  (valid : signum ≠ 0 ∧ signum < 64)
include stopped valid

theorem obeyed_by_pid (some_ : (s.kernel.task p).pid ≠ 0) :
    Obeyed (signalSendPid s c (s.kernel.task p).pid signum) p signum ↔ Suits s c p signum .pid := by
  have hs := signalSendPid_stopped c (s.kernel.task p).pid signum stopped
  rw [Obeyed, Suits, hs, signalSendPid_pends valid some_]
  by_cases hr : Resumes signum
  · simp [hr]
  · simp [hr]

include sender listed live user

theorem obeyed_by_group (some_ : (s.kernel.task p).pgid ≠ 0) :
    Obeyed (signalSendPgrp s c (s.kernel.task p).pgid signum) p signum ↔
      Suits s c p signum .group := by
  have enabled : ¬ ((s.kernel.task p).pgid = 0 ∨ signum = 0 ∨ 64 ≤ signum) := by omega
  rw [signalSendPgrp, if_neg enabled, Obeyed, Suits]
  by_cases init : (s.kernel.task p).pid = 1
  · have out : ¬ Member s.kernel (s.kernel.task p).pgid p := fun mem => mem.2.2 init
    obtain ⟨task, pending⟩ := foldl_out signum (c :: others s.kernel.all c) out
    rw [task, Pends, pending, stopped]
    simp [init, Pends]
  · obtain ⟨running, -⟩ := foldl_member ⟨user, rfl, init⟩ live valid.2
      (by rw [stopped]; exact nofun) (.inl (mem_others sender listed))
    rw [running]
    simp [init]

theorem kill_stopped_iff (route : Route)
    (pids : 0 < (s.kernel.task p).pid ∧ (s.kernel.task p).pid < 2 ^ 31)
    (groups : 0 < (s.kernel.task p).pgid ∧ (s.kernel.task p).pgid < 2 ^ 31)
    (sent : (sysKill s c (route.arg (s.kernel.task p)) (BitVec.ofNat 64 signum)).2 = 0) :
    Obeyed (sysKill s c (route.arg (s.kernel.task p)) (BitVec.ofNat 64 signum)).1 p signum ↔
      Suits s c p signum route := by
  rw [sysKill_sent valid sent]
  cases route with
  | pid =>
    have arg : int32 (Route.pid.arg (s.kernel.task p)) = (s.kernel.task p).pid := int32_ofNat pids.2
    rw [arg, if_neg (by omega), if_neg (by omega), Int.toNat_natCast]
    exact obeyed_by_pid stopped valid (by omega)
  | group =>
    have arg : int32 (Route.group.arg (s.kernel.task p)) = -((s.kernel.task p).pgid : Int) :=
      int32_neg groups.1 groups.2
    rw [arg, if_pos (by omega), Int.neg_neg, Int.toNat_natCast]
    exact obeyed_by_group sender listed live user stopped valid (by omega)

end Stopped

def stoppedChildRun : List KCall :=
  [.spawn, .fork (processTask 1 0), .tick 0, .fork (processTask 2 1), .tick 0, .stopSelf]

def stoppedChild : Signals where
  kernel := reached kstep schedInit stoppedChildRun
  pending := fun _ => 0
  caps := fun _ => capGrant emptyCaps capKindProcRead capRightsWrite

theorem kill_stopped_iff_group :
    Obeyed (sysKill stoppedChild 1 (Route.group.arg (stoppedChild.kernel.task 2)) 18).1 2 18 :=
  (@kill_stopped_iff stoppedChild 1 2 18 (by decide) (by decide) (by decide) (by decide)
    (by decide) (by decide) .group (by decide) (by decide) (by decide)).mpr (by decide)

/-- Neither `SIGCONT` nor `SIGKILL` sent to its pid resumes the child, and `SIGTERM` sent to
its group does. -/
theorem kill_leaves_stopped : Run kstep schedInit stoppedChildRun stoppedChild.kernel ∧
      (stoppedChild.kernel.task 2).state = .stopped ∧
      ((sysKill stoppedChild 1 2 18).2 = 0 ∧
        ((sysKill stoppedChild 1 2 18).1.kernel.task 2).state = .stopped) ∧
      ((sysKill stoppedChild 1 2 9).2 = 0 ∧
        ((sysKill stoppedChild 1 2 9).1.kernel.task 2).state = .stopped) ∧
      ((sysKill stoppedChild 1 (-2) 15).2 = 0 ∧
        ((sysKill stoppedChild 1 (-2) 15).1.kernel.task 2).state = .running) := by
  refine ⟨run_of_exec exec_eq_reached, ?_⟩
  decide

end Aegis.SignalSend
