import Aegis.LabelledRun
import Aegis.SignalFrame

/-! A pool of processes under the signal system calls, both deliveries, fork,
execve and spawn, and which of its runs keep SIGKILL and SIGSTOP out of every
signal mask. All writers of `signal_mask` strip the two bits except the two
deliveries, which add the `sa_mask` of the caught action as the user gave it. -/

namespace Aegis.SignalMask
open SignalState SignalFrame LabelledRun List Option

inductive SigCall
  | sigaction (arg1 arg2 arg3 arg4 : Word) (sa : SigAction)
  | sigprocmask (arg1 arg2 arg3 arg4 newset : Word)
  | sigsuspend (arg1 arg2 newmask : Word)
  | sigsuspendReturn
  | sigreturn (st : SysretState) (m : UserMem)
  | deliver (s : CpuState)
  | deliverSysret (st : SysretState)
  | send (signum : Nat)
  | fork
  | execve
  | spawn

def deliverTo (p : SigProc) (userRsp : Word) : List SigProc :=
  match deliverDecision p userRsp with
  | (_, .exit) => []
  | (p', _) => [p']

/-- A process blocked in `sys_rt_sigsuspend` only receives signals until it is woken. -/
def whenRunning (p : SigProc) (next : List SigProc) : Option (List SigProc) :=
  if p.suspended.isSome then none else some next

def sigCall (p : SigProc) : SigCall → Option (List SigProc)
  | .sigaction arg1 arg2 arg3 arg4 sa =>
    whenRunning p [(sysRtSigaction p arg1 arg2 arg3 arg4 sa).1]
  | .sigprocmask arg1 arg2 arg3 arg4 newset =>
    whenRunning p [(sysRtSigprocmask p arg1 arg2 arg3 arg4 newset).1]
  | .sigsuspend arg1 arg2 newmask => whenRunning p [(sysRtSigsuspend p arg1 arg2 newmask).1]
  | .sigsuspendReturn => (SignalState.sigsuspendReturn p).map fun r => [r.1]
  | .sigreturn st m => whenRunning p ((sysRtSigreturn st p m).map fun r => r.2).toList
  | .deliver s => whenRunning p (if s.cs ≠ archUserCs then [p] else deliverTo p s.regs.rsp)
  | .deliverSysret st =>
    whenRunning p (if st.rax = sigreturnMagic then [p] else deliverTo p st.frame.userRsp)
  | .send signum => some [signalSend p signum]
  | .fork => whenRunning p [p, forkSignals p]
  | .execve => whenRunning p [execSignals p]
  | .spawn => whenRunning p [p, bootSignals]

def sigStep (pool : List SigProc) (a : Nat × SigCall) : Option (List SigProc) := do
  let p ← pool[a.1]?
  let next ← sigCall p a.2
  return pool.take a.1 ++ next ++ pool.drop (a.1 + 1)

/-- Neither bit 9 nor bit 19. -/
def Open (mask : Word) : Prop := mask.getLsbD sigKill = false ∧ mask.getLsbD sigStop = false
  deriving Decidable

/-- The pending signal `p` is about to catch runs with a mask that holds bit 9 or 19. -/
def CatchesWithKillOrStop (p : SigProc) (userRsp : Word) : Prop :=
  ∃ signum, Catches p userRsp signum ∧ ¬ Open (p.actions signum).mask

/-- The call delivers no caught signal whose `sa_mask` holds bit 9 or 19. -/
def OpenCatch (p : SigProc) : SigCall → Prop
  | .deliver s => s.cs = archUserCs → ¬ CatchesWithKillOrStop p s.regs.rsp
  | .deliverSysret st => st.rax ≠ sigreturnMagic → ¬ CatchesWithKillOrStop p st.frame.userRsp
  | _ => True

def OpenCatchStep (pool : List SigProc) (a : Nat × SigCall) : Prop :=
  ∀ p, pool[a.1]? = some p → OpenCatch p a.2

@[simp] theorem open_or (a b : Word) : Open (a ||| b) ↔ Open a ∧ Open b := by
  simp only [Open, BitVec.getLsbD_or, Bool.or_eq_false_iff]
  tauto

@[simp] theorem open_zero : Open 0 := by decide

@[simp] theorem open_and_not_unmaskable (a : Word) : Open (a &&& ~~~unmaskable) := by
  have kill : (~~~unmaskable).getLsbD sigKill = false := by decide
  have stop : (~~~unmaskable).getLsbD sigStop = false := by decide
  simp only [Open, BitVec.getLsbD_and, kill, stop, Bool.and_false, and_self]

theorem open_bit {signum : Nat} (kill : signum ≠ sigKill) (stop : signum ≠ sigStop) :
    Open (bit signum) := by
  have other {k : Nat} (hk : k < 64) (ne : signum ≠ k) : (bit signum).getLsbD k = false := by
    simp only [bit, BitVec.getLsbD_shiftLeft, BitVec.getLsbD_one, hk]
    simp; omega
  exact ⟨other (by decide) kill, other (by decide) stop⟩

/-- What every process of the pool keeps. The actions of 9 and 19 stay default
because `sys_rt_sigaction` rejects them, so neither is ever caught. -/
structure Unblocked (p : SigProc) : Prop where
  mask : Open p.mask
  saved : ∀ old, p.suspended = some old → Open old
  kill : (p.actions sigKill).handler = sigDfl
  stop : (p.actions sigStop).handler = sigDfl

theorem bootSignals_unblocked : Unblocked bootSignals :=
  ⟨open_zero, by simp [bootSignals], rfl, rfl⟩

variable {p p' : SigProc} {m : UserMem} {next : List SigProc}

section
variable (h : Unblocked p)
include h

theorem Unblocked.of_mask (mask : Open p'.mask) (hs : p'.suspended = p.suspended)
    (ha : p'.actions = p.actions) : Unblocked p' :=
  ⟨mask, fun old some => h.saved old (hs ▸ some), ha ▸ h.kill, ha ▸ h.stop⟩

theorem forkSignals_unblocked : Unblocked (forkSignals p) := h.of_mask h.mask rfl rfl

theorem execSignals_unblocked : Unblocked (execSignals p) := ⟨open_zero, h.saved, rfl, rfl⟩

theorem sysRtSigaction_unblocked (arg1 arg2 arg3 arg4 : Word) (sa : SigAction) :
    Unblocked (sysRtSigaction p arg1 arg2 arg3 arg4 sa).1 := by
  unfold sysRtSigaction
  dsimp only
  split_ifs with size range reserved
  any_goals exact h
  have kept {k : Nat} (ne : (arg1.setWidth 32).toInt ≠ k) (pos : 0 < k) :
      Function.update p.actions (arg1.setWidth 32).toInt.toNat sa k = p.actions k :=
    Function.update_of_ne (by omega) _ _
  refine ⟨h.mask, h.saved, ?_, ?_⟩
  · exact (congrArg _ (kept (fun eq => reserved (.inl eq)) (by decide))).trans h.kill
  · exact (congrArg _ (kept (fun eq => reserved (.inr (.inl eq))) (by decide))).trans h.stop

theorem sysRtSigprocmask_unblocked (arg1 arg2 arg3 arg4 hn : Word) :
    Unblocked (sysRtSigprocmask p arg1 arg2 arg3 arg4 hn).1 := by
  have stripped (mask : Word) : Unblocked { p with mask := mask &&& ~~~unmaskable } :=
    h.of_mask (open_and_not_unmaskable mask) rfl rfl
  unfold sysRtSigprocmask
  split_ifs
  any_goals exact h
  dsimp only
  split
  any_goals exact stripped _
  exact h

theorem sysRtSigsuspend_unblocked (arg1 arg2 hn : Word) :
    Unblocked (sysRtSigsuspend p arg1 arg2 hn).1 := by
  unfold sysRtSigsuspend
  dsimp only
  split_ifs
  any_goals exact h
  exact ⟨open_and_not_unmaskable hn, fun old some => Option.some.inj some ▸ h.mask, h.kill, h.stop⟩

theorem sysRtSigreturn_unblocked {st st' : SysretState}
    (ret : sysRtSigreturn st p m = some (st', p')) : Unblocked p' := by
  unfold sysRtSigreturn at ret
  dsimp only at ret
  split_ifs at ret
  cases ret
  exact h.of_mask (open_and_not_unmaskable _) rfl rfl

theorem sigsuspendReturn_unblocked {r : Word} (hw : sigsuspendReturn p = some (p', r)) :
    Unblocked p' := by
  rw [sigsuspendReturn, map_eq_some_iff] at hw
  obtain ⟨old, hs, eq⟩ := hw
  cases eq
  exact ⟨h.saved old hs, by simp, h.kill, h.stop⟩

theorem signalSend_unblocked (signum : Nat) : Unblocked (signalSend p signum) := by
  unfold signalSend
  split_ifs
  · exact h
  · exact h.of_mask h.mask rfl rfl

/-- A delivery keeps the invariant exactly when it catches no signal whose
`sa_mask` holds one of the two bits. -/
theorem deliverTo_unblocked {userRsp : Word} (open' : ¬ CatchesWithKillOrStop p userRsp) :
    ∀ q ∈ deliverTo p userRsp, Unblocked q := by
  intro q mem
  have outcome : ∃ v, deliverDecision p userRsp = (q, v) := by
    unfold deliverTo at mem
    split at mem
    · simp at mem
    rename_i p' v _ hd
    obtain rfl := mem_singleton.mp mem
    exact ⟨v, hd⟩
  obtain ⟨v, hd⟩ := outcome
  by_cases hg : ∃ signum, Catches p userRsp signum
  · obtain ⟨signum, hc⟩ := hg
    have mask : Open (p.actions signum).mask := not_not.mp fun hl =>
      open' ⟨signum, hc, hl⟩
    have number : Open (bit signum) :=
      open_bit (fun eq => hc.notDfl (eq ▸ h.kill)) (fun eq => hc.notDfl (eq ▸ h.stop))
    rw [deliverDecision_of_catches hc] at hd
    cases hd
    exact h.of_mask (by simp [h.mask, mask, number]) rfl rfl
  · obtain ⟨mask, ha, hs, -⟩ := deliverDecision_of_not_catches (not_exists.mp hg) hd
    exact h.of_mask (mask ▸ h.mask) hs ha

end

theorem deliverTo_not_open {userRsp : Word} (hl : CatchesWithKillOrStop p userRsp) :
    ∃ q ∈ deliverTo p userRsp, ¬ Open q.mask := by
  obtain ⟨signum, hc, mask⟩ := hl
  refine ⟨_, by rw [deliverTo, deliverDecision_of_catches hc]; exact .head _, ?_⟩
  simp [mask]

theorem whenRunning_some {result : List SigProc} (call : whenRunning p next = some result) :
    next = result := by
  simp [whenRunning] at call
  exact call.2

theorem sigCall_unblocked {c : SigCall} (h : Unblocked p) (call : sigCall p c = some next)
    (allowed : OpenCatch p c) : ∀ q ∈ next, Unblocked q := by
  cases c with
  | sigaction arg1 arg2 arg3 arg4 sa =>
    obtain rfl := whenRunning_some call
    simpa using sysRtSigaction_unblocked h arg1 arg2 arg3 arg4 sa
  | sigprocmask arg1 arg2 arg3 arg4 newset =>
    obtain rfl := whenRunning_some call
    simpa using sysRtSigprocmask_unblocked h arg1 arg2 arg3 arg4 newset
  | sigsuspend arg1 arg2 newmask =>
    obtain rfl := whenRunning_some call
    simpa using sysRtSigsuspend_unblocked h arg1 arg2 newmask
  | sigsuspendReturn =>
    rw [sigCall, map_eq_some_iff] at call
    obtain ⟨⟨p', result⟩, woken, rfl⟩ := call
    simpa using sigsuspendReturn_unblocked h woken
  | sigreturn st m =>
    obtain rfl := whenRunning_some call
    intro q mem
    rw [mem_toList, map_eq_some_iff] at mem
    obtain ⟨⟨st', p'⟩, ret, rfl⟩ := mem
    exact sysRtSigreturn_unblocked h ret
  | deliver s =>
    obtain rfl := whenRunning_some call
    split_ifs with user
    · simpa using h
    · exact deliverTo_unblocked h (allowed (not_not.mp user))
  | deliverSysret st =>
    obtain rfl := whenRunning_some call
    split_ifs with magic
    · simpa using h
    · exact deliverTo_unblocked h (allowed magic)
  | send signum =>
    cases call
    simpa using signalSend_unblocked h signum
  | fork =>
    obtain rfl := whenRunning_some call
    simpa using And.intro h (forkSignals_unblocked h)
  | execve =>
    obtain rfl := whenRunning_some call
    simpa using execSignals_unblocked h
  | spawn =>
    obtain rfl := whenRunning_some call
    simpa using And.intro h bootSignals_unblocked

/-- A step outside the condition is one of the two deliveries, and it closes a mask. -/
theorem sigCall_not_open {c : SigCall} (call : sigCall p c = some next) (closed : ¬ OpenCatch p c) :
    ∃ q ∈ next, ¬ Open q.mask := by
  cases c with
  | deliver s =>
    obtain rfl := whenRunning_some call
    obtain ⟨user, catches⟩ := Classical.not_imp.mp closed
    rw [if_neg (not_not.mpr user)]
    exact deliverTo_not_open (not_not.mp catches)
  | deliverSysret st =>
    obtain rfl := whenRunning_some call
    obtain ⟨notMagic, catches⟩ := Classical.not_imp.mp closed
    rw [if_neg notMagic]
    exact deliverTo_not_open (not_not.mp catches)
  | _ => exact (closed trivial).elim

theorem sigStep_spec {pool pool' : List SigProc} {a : Nat × SigCall}
    (h : sigStep pool a = some pool') :
    ∃ p next, pool[a.1]? = some p ∧ sigCall p a.2 = some next ∧
      (∀ q ∈ next, q ∈ pool') ∧ ∀ q ∈ pool', q ∈ next ∨ q ∈ pool := by
  simp only [sigStep, Option.bind_eq_bind, Option.bind_eq_some_iff, Option.pure_def,
    Option.some.injEq] at h
  obtain ⟨p, hf, next, call, rfl⟩ := h
  refine ⟨p, next, hf, call, fun q mem => by simp [mem], fun q mem => ?_⟩
  simp only [mem_append] at mem
  rcases mem with (pre | new) | after
  · exact .inr (mem_of_mem_take pre)
  · exact .inl new
  · exact .inr (mem_of_mem_drop after)

theorem sigStep_unblocked {pool pool' : List SigProc} {a : Nat × SigCall}
    (h : ∀ p ∈ pool, Unblocked p) (ha : OpenCatchStep pool a)
    (step : sigStep pool a = some pool') : ∀ p ∈ pool', Unblocked p := by
  obtain ⟨p, next, hf, call, -, from'⟩ := sigStep_spec step
  intro q mem
  rcases from' q mem with new | old
  · exact sigCall_unblocked (h p (mem_of_getElem? hf)) call (ha p hf) q new
  · exact h q old

/-- In every run from boot whose deliveries catch no signal with bit 9 or 19 in its
`sa_mask`, no mask holds bit 9 or 19; and the first step outside that condition
closes a mask. -/
theorem masks_open_of_open_catches {labels : List (Nat × SigCall)} {pool : List SigProc}
    (run : RunWhere sigStep OpenCatchStep [bootSignals] labels pool) :
    (∀ p ∈ pool, Open p.mask) ∧ ∀ a pool', sigStep pool a = some pool' →
        ((∀ p ∈ pool', Open p.mask) ↔ OpenCatchStep pool a) := by
  have all : ∀ q ∈ pool, Unblocked q :=
    run.invariant (by simpa using bootSignals_unblocked) fun _ _ _ => sigStep_unblocked
  refine ⟨fun p member => (all p member).mask, fun a pool' step => ⟨?_, ?_⟩⟩
  · intro masks
    obtain ⟨p, next, found, call, into, -⟩ := sigStep_spec step
    by_contra closed
    have closed' : ¬ OpenCatch p a.2 := fun holds => closed fun q same =>
      some.inj (found.symm.trans same) ▸ holds
    obtain ⟨q, member, mask⟩ := sigCall_not_open call closed'
    exact mask (masks q (into q member))
  · intro allowed p member
    exact (sigStep_unblocked all allowed step p member).mask

def killMasked : SigAction := ⟨0x2000, 0, 0x3000, bit sigKill⟩

def userCpu : CpuState :=
  ⟨⟨0, 0, 0, 0, 0, 0, 0, 0x7000, 0, 0, 0, 0, 0, 0, 0, 0, 0x1000, 0x202⟩, archUserCs⟩

def catchTen (sa : SigAction) : List (Nat × SigCall) :=
  [(0, .sigaction 10 0x5000 0 8 sa), (0, .send 10), (0, .deliver userCpu)]

theorem sigaction_then_deliver_masks_kill :
    ∃ pool, Run sigStep [bootSignals] (catchTen killMasked) pool ∧
      ∃ p ∈ pool, p.mask.getLsbD sigKill = true :=
  ⟨_, run_of_exec rfl, _, .head _, by decide⟩

theorem masks_open_of_open_catches_signal_ten :
    ∃ pool, RunWhere sigStep OpenCatchStep [bootSignals] (catchTen ⟨0x2000, 0, 0x3000, 0⟩) pool ∧
      ∀ p ∈ pool, Open p.mask := by
  have last : OpenCatchStep
      [signalSend (sysRtSigaction bootSignals 10 0x5000 0 8 ⟨0x2000, 0, 0x3000, 0⟩).1 10]
      (0, .deliver userCpu) := by
    rintro p ⟨⟩ - ⟨signum, catches, closed⟩
    obtain rfl : 10 = signum := some.inj (Eq.trans (by decide) catches.lowest)
    exact closed (by decide)
  have run : RunWhere sigStep OpenCatchStep [bootSignals] (catchTen _) _ :=
    .head (fun _ _ => trivial) rfl (.head (fun _ _ => trivial) rfl (.head last rfl .nil))
  exact ⟨_, run, (masks_open_of_open_catches run).1⟩

end Aegis.SignalMask
