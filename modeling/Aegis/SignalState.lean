import Mathlib.Data.List.Basic

/-! Per-process signal state of the x86-64 kernel: pending set, mask, dispositions.
`deliverDecision` is the part that `signal_deliver` and `signal_deliver_sysret`
have in common, statement for statement; the two differ only in where the user
registers come from. User pointers are checked as the source checks them, and
what `copy_from_user` yields is an argument. -/

namespace Aegis.SignalState

abbrev Word := BitVec 64

def userAddrMax : Nat := 0x00007FFFFFFFFFFF

def userPtrValid (addr : Word) (len : Nat) : Bool :=
  len ≤ userAddrMax && addr.toNat ≤ userAddrMax - len

def errno (e : Nat) : Word := -BitVec.ofNat 64 e

def sigKill : Nat := 9
def sigChld : Nat := 17
def sigCont : Nat := 18
def sigStop : Nat := 19
def sigTstp : Nat := 20
def sigTtin : Nat := 21
def sigTtou : Nat := 22

def sigDfl : Word := 0
def sigIgn : Word := 1

structure SigAction where
  handler : Word
  flags : Word
  restorer : Word
  mask : Word

structure SigProc where
  pending : Word
  mask : Word
  actions : Nat → SigAction
  stopSignum : Nat
  suspended : Option Word

def defaultAction : SigAction := ⟨sigDfl, 0, 0, 0⟩

def bit (signum : Nat) : Word := 1#64 <<< signum

def unmaskable : Word := bit sigKill ||| bit sigStop

def lowestSet (w : Word) : Option Nat := (List.range 64).find? fun i => w.getLsbD i

inductive Verdict
  | resume
  | stop
  | exit
  | caught (signum : Nat) (action : SigAction) (frame : Word)

def sigframeSize : Nat := 560

def newRsp (userRsp : Word) : Word :=
  ((userRsp - BitVec.ofNat 64 sigframeSize) &&& ~~~15#64) - 8#64

def deliverDecision (p : SigProc) (userRsp : Word) : SigProc × Verdict :=
  match lowestSet (p.pending &&& ~~~p.mask) with
  | none => (p, .resume)
  | some signum =>
    let taken := { p with pending := p.pending &&& ~~~bit signum }
    let sa := p.actions signum
    if sa.handler = sigDfl then
      if signum = sigChld ∨ signum = sigCont then (taken, .resume)
      else if signum = sigTstp ∨ signum = sigStop ∨ signum = sigTtin ∨ signum = sigTtou then
        ({ taken with stopSignum := signum }, .stop)
      else (taken, .exit)
    else if sa.handler = sigIgn then (taken, .resume)
    else if !userPtrValid sa.handler 1 then (taken, .exit)
    else if sa.restorer ≠ 0 ∧ !userPtrValid sa.restorer 1 then (taken, .exit)
    else if !userPtrValid (newRsp userRsp) sigframeSize then (taken, .exit)
    else
      ({ taken with mask := taken.mask ||| (sa.mask ||| bit signum) },
        .caught signum sa (newRsp userRsp))

structure Catches (p : SigProc) (userRsp : Word) (signum : Nat) : Prop where
  lowest : lowestSet (p.pending &&& ~~~p.mask) = some signum
  notDfl : (p.actions signum).handler ≠ sigDfl
  notIgn : (p.actions signum).handler ≠ sigIgn
  handler : userPtrValid (p.actions signum).handler 1 = true
  restorer : (p.actions signum).restorer = 0 ∨ userPtrValid (p.actions signum).restorer 1 = true
  frame : userPtrValid (newRsp userRsp) sigframeSize = true

variable {p : SigProc} {userRsp : Word}

theorem deliverDecision_of_catches {signum : Nat} (h : Catches p userRsp signum) :
    deliverDecision p userRsp =
      ({ p with pending := p.pending &&& ~~~bit signum
                mask := p.mask ||| ((p.actions signum).mask ||| bit signum) },
        .caught signum (p.actions signum) (newRsp userRsp)) := by
  have restorer : ¬ ((p.actions signum).restorer ≠ 0 ∧
      (!userPtrValid (p.actions signum).restorer 1) = true) := by
    rintro ⟨hn, hi⟩
    rcases h.restorer with zero | hv
    · exact hn zero
    · simp [hv] at hi
  simp only [deliverDecision, h.lowest, if_neg h.notDfl, if_neg h.notIgn, h.handler, h.frame,
    if_neg restorer, Bool.not_true, Bool.false_eq_true, if_false]

theorem deliverDecision_of_not_catches {p' : SigProc} {v : Verdict}
    (none : ∀ signum, ¬ Catches p userRsp signum) (h : deliverDecision p userRsp = (p', v)) :
    p'.mask = p.mask ∧ p'.actions = p.actions ∧ p'.suspended = p.suspended ∧
      ∀ signum sa frame, v ≠ .caught signum sa frame := by
  unfold deliverDecision at h
  split at h
  · cases h
    exact ⟨rfl, rfl, rfl, by simp⟩
  rename_i signum hl
  dsimp only at h
  split_ifs at h with dfl chld stop ign badHandler badRestorer badFrame
  any_goals
    cases h
    exact ⟨rfl, rfl, rfl, by simp⟩
  refine (none signum ⟨hl, dfl, ign, by simpa using badHandler, ?_,
    by simpa using badFrame⟩).elim
  by_cases zero : (p.actions signum).restorer = 0
  · exact .inl zero
  · exact .inr (by simpa using not_and.mp badRestorer zero)

theorem caught_spec {p' : SigProc} {frame : Word} {signum : Nat} {sa : SigAction}
    (h : deliverDecision p userRsp = (p', .caught signum sa frame)) :
    Catches p userRsp signum ∧ sa = p.actions signum ∧ frame = newRsp userRsp := by
  by_cases some : ∃ n, Catches p userRsp n
  · obtain ⟨n, hc⟩ := some
    rw [deliverDecision_of_catches hc, Prod.mk.injEq, Verdict.caught.injEq] at h
    obtain ⟨-, rfl, rfl, rfl⟩ := h
    exact ⟨hc, rfl, rfl⟩
  · exact ((deliverDecision_of_not_catches (not_exists.mp some) h).2.2.2 _ _ _ rfl).elim

/-- `signal_send_pid` and `signal_send_pgrp` on the process they select. -/
def signalSend (p : SigProc) (signum : Nat) : SigProc :=
  if signum = 0 ∨ 64 ≤ signum then p else { p with pending := p.pending ||| bit signum }

def sysRtSigaction (p : SigProc) (arg1 arg2 arg3 arg4 : Word) (sa : SigAction) :
    SigProc × Word :=
  let signum := (arg1.setWidth 32).toInt
  if arg4 ≠ 8 then (p, errno 22)
  else if signum ≤ 0 ∨ 64 ≤ signum then (p, errno 22)
  else if signum = sigKill ∨ signum = sigStop ∨ signum = sigCont then (p, errno 22)
  else if arg3 ≠ 0 ∧ !userPtrValid arg3 32 then (p, errno 14)
  else if arg2 = 0 then (p, 0)
  else if !userPtrValid arg2 32 then (p, errno 14)
  else if sa.handler ≠ sigDfl ∧ sa.handler ≠ sigIgn ∧ !userPtrValid sa.handler 1 then
    (p, errno 14)
  else if sa.restorer ≠ 0 ∧ !userPtrValid sa.restorer 1 then (p, errno 14)
  else ({ p with actions := Function.update p.actions signum.toNat sa }, 0)

def sysRtSigprocmask (p : SigProc) (arg1 arg2 arg3 arg4 newset : Word) : SigProc × Word :=
  if arg4 ≠ 8 then (p, errno 22)
  else if arg3 ≠ 0 ∧ !userPtrValid arg3 8 then (p, errno 14)
  else if arg2 = 0 then (p, 0)
  else if !userPtrValid arg2 8 then (p, errno 14)
  else
    let apply (mask : Word) : SigProc × Word := ({ p with mask := mask &&& ~~~unmaskable }, 0)
    match arg1.toNat with
    | 0 => apply (p.mask ||| newset)
    | 1 => apply (p.mask &&& ~~~newset)
    | 2 => apply newset
    | _ => (p, errno 22)

/-- The call up to `sched_block`, or to its end when a signal is already pending. -/
def sysRtSigsuspend (p : SigProc) (arg1 arg2 newmask : Word) : SigProc × Word :=
  if arg2 ≠ 8 then (p, errno 22)
  else if !userPtrValid arg1 8 then (p, errno 14)
  else
    let mask := newmask &&& ~~~unmaskable
    if p.pending &&& ~~~mask = 0 then ({ p with mask := mask, suspended := some p.mask }, 0)
    else (p, errno 4)

/-- The rest of a blocked `sys_rt_sigsuspend`, once it has been woken. -/
def sigsuspendReturn (p : SigProc) : Option (SigProc × Word) :=
  p.suspended.map fun old => ({ p with mask := old, suspended := none }, errno 4)

def forkSignals (p : SigProc) : SigProc := { p with pending := 0, stopSignum := 0 }

def execSignals (p : SigProc) : SigProc :=
  { p with pending := 0, mask := 0, actions := fun _ => defaultAction }

def bootSignals : SigProc := ⟨0, 0, fun _ => defaultAction, 0, none⟩

end Aegis.SignalState
