import Aegis.SignalFrame

/-! What a caught signal leaves of the interrupted context once its handler has
returned through `sys_rt_sigreturn`, for both delivery paths.
The frame lies directly below RSP, so every delivery writes into the 128 bytes
below RSP that the ABI reserves; and the restore path keeps its own RAX, RCX,
RDI and R11 instead of the saved ones. -/

namespace Aegis.SignalRoundTrip
open SignalState SignalFrame BitVec

def arithFlags : Word := 0x8D5

def SameUserState (before after : UserRegs) : Prop :=
  { after with rflags := before.rflags } = before ∧
    after.rflags &&& arithFlags = before.rflags &&& arithFlags

def KeepsRedZone (rsp : Word) (d : Delivered) : Prop :=
  ∀ a, d.wroteAt ≤ a → a < d.wroteAt + d.wroteLen → a + 128 < rsp.toNat

def InterruptTransparent (s : CpuState) (p : SigProc) (d : Delivered) (next : Word) : Prop :=
  ∃ after p', roundTrip d next = some (after, p') ∧ SameUserState s.regs after ∧
    p'.mask = p.mask &&& ~~~unmaskable ∧ KeepsRedZone s.regs.rsp d

/-- The user state a system call returns to; RCX and R11 are the ABI's. -/
def SysretTransparent (st : SysretState) (p : SigProc) (d : Delivered) (next : Word) : Prop :=
  ∃ after p', roundTrip d next = some (after, p') ∧
    SameUserState (sysretExit st)
      { after with rcx := (sysretExit st).rcx, r11 := (sysretExit st).r11 } ∧
    p'.mask = p.mask &&& ~~~unmaskable ∧ KeepsRedZone st.frame.userRsp d

/-- The user context a delivery finds, on its way out of an interrupt or of a system call. -/
inductive Returning
  | interrupt (s : CpuState)
  | sysret (st : SysretState)

def Returning.deliver : Returning → SigProc → UserMem → Option Delivered
  | .interrupt s => signalDeliver s
  | .sysret st => signalDeliverSysret st

def Returning.Transparent : Returning → SigProc → Delivered → Word → Prop
  | .interrupt s => InterruptTransparent s
  | .sysret st => SysretTransparent st

theorem toNat_and_not_fifteen (x : Word) : (x &&& ~~~15#64).toNat = x.toNat / 16 * 16 := by
  have shifts : x &&& ~~~15#64 = (x >>> 4) <<< 4 := by
    have ones : 15#64 = (allOnes 4).setWidth 64 := by decide
    rw [ones]
    apply eq_of_getLsbD_eq
    intro i hi
    simp only [getLsbD_and, getLsbD_not, getLsbD_setWidth,
      getLsbD_allOnes, getLsbD_shiftLeft, getLsbD_ushiftRight]
    by_cases low : i < 4
    · simp [hi, low]
    · simp [hi, low, show 4 + (i - 4) = i by omega]
  rw [shifts, toNat_shiftLeft, toNat_ushiftRight, Nat.shiftRight_eq_div_pow, Nat.shiftLeft_eq]
  have hb := x.isLt
  omega

variable {rsp : Word} {p : SigProc} {m : UserMem}

/-- A frame address that passes `user_ptr_valid` did not wrap, so the frame ends
between 23 and 8 bytes below RSP. -/
theorem newRsp_toNat (hv : userPtrValid (newRsp rsp) sigframeSize = true) :
    576 ≤ rsp.toNat ∧ (newRsp rsp).toNat = (rsp.toNat - 560) / 16 * 16 - 8 := by
  have fits : (newRsp rsp).toNat ≤ 0x00007FFFFFFFFFFF - 560 :=
    of_decide_eq_true (Bool.and_eq_true_iff.mp hv).2
  have ha := toNat_and_not_fifteen (rsp - BitVec.ofNat 64 560)
  have hb := rsp.isLt
  have value : (newRsp rsp).toNat =
      ((2 ^ 64 - 8) + ((2 ^ 64 - 560 + rsp.toNat) % 2 ^ 64) / 16 * 16) % 2 ^ 64 := by
    rw [newRsp, sigframeSize, BitVec.toNat_sub, ha, BitVec.toNat_sub]
    simp
  omega

theorem signalDeliver_spec {s : CpuState} {d : Delivered} (h : signalDeliver s p m = some d) :
    ∃ signum p', userPtrValid (newRsp s.regs.rsp) sigframeSize = true ∧
      d = pushFrame
        { s.regs with rip := (p.actions signum).handler, rsp := newRsp s.regs.rsp
                      rdi := BitVec.ofNat 64 signum, rax := 0 }
        p' m (newRsp s.regs.rsp) (interruptFrame s (p.actions signum) p.mask) := by
  unfold signalDeliver at h
  split_ifs at h
  split at h
  · rename_i p' signum sa frame hg
    obtain ⟨hc, rfl, rfl⟩ := caught_spec hg
    exact ⟨signum, p', hc.frame, (Option.some.inj h).symm⟩
  · simp at h

theorem signalDeliverSysret_spec {st : SysretState} {d : Delivered}
    (h : signalDeliverSysret st p m = some d) :
    ∃ signum p', userPtrValid (newRsp st.frame.userRsp) sigframeSize = true ∧
      d = pushFrame (sysretExit { st with
            frame := { st.frame with rip := (p.actions signum).handler
                                     userRsp := newRsp st.frame.userRsp }
            rdi := BitVec.ofNat 64 signum
            rax := 0 })
        p' m (newRsp st.frame.userRsp) (sysretFrame st (p.actions signum) p.mask) := by
  unfold signalDeliverSysret at h
  split_ifs at h
  split at h
  · rename_i p' signum sa frame hg
    obtain ⟨hc, rfl, rfl⟩ := caught_spec hg
    exact ⟨signum, p', hc.frame, (Option.some.inj h).symm⟩
  · simp at h

theorem redZone_written {regs : UserRegs} {sf : RtSigframe}
    (hv : userPtrValid (newRsp rsp) sigframeSize = true) :
    ¬ KeepsRedZone rsp (pushFrame regs p m (newRsp rsp) sf) := by
  intro hk
  obtain ⟨hl, value⟩ := newRsp_toNat hv
  have size : sf.bytes.length = 560 := bytes_length sf
  have last := hk ((newRsp rsp).toNat + 559) (by simp [pushFrame]) (by simp [pushFrame, size])
  omega

/-- The context that returns from any pushed frame: what `sys_rt_sigreturn` copies
comes from the frame; RDX, RSI and RDI are still the handler's, and RAX, RCX and
R11 are what the system call exit leaves in them. -/
theorem roundTrip_pushFrame {next : Word} {regs : UserRegs} {sf : RtSigframe}
    (hv : userPtrValid (newRsp rsp) sigframeSize = true) (stack : regs.rsp = newRsp rsp)
    (user : sf.gregs.rip.toNat ≤ userAddrMax) :
    roundTrip (pushFrame regs p m (newRsp rsp) sf) next = some
        ({ rax := sigreturnMagic, rbx := sf.gregs.rbx, rcx := sf.gregs.rip, rdx := regs.rdx
           rsi := regs.rsi, rdi := regs.rdi, rbp := sf.gregs.rbp, rsp := sf.gregs.rsp
           r8 := sf.gregs.r8, r9 := sf.gregs.r9, r10 := sf.gregs.r10
           r11 := (sf.gregs.efl &&& 0xCD5) ||| 0x202, r12 := sf.gregs.r12
           r13 := sf.gregs.r13, r14 := sf.gregs.r14, r15 := sf.gregs.r15, rip := sf.gregs.rip
           rflags := (((sf.gregs.efl &&& 0xCD5) ||| 0x202) &&& 0x3C7FD7) ||| 2 },
          { p with mask := sf.ucSigmask &&& ~~~unmaskable }) := by
  have back : (handlerReturn (pushFrame regs p m (newRsp rsp) sf)).rsp - 8 = newRsp rsp := by
    rw [handlerReturn]
    exact (congrArg (· + 8 - 8) stack).trans (add_sub_cancel _ _)
  have frame : readFrame (pushFrame regs p m (newRsp rsp) sf).mem (newRsp rsp).toNat = sf :=
    readFrame_storeBytes m _ sf
  simp only [roundTrip, sysRtSigreturn, syscallEntry, back, frame, hv]
  simp [not_lt.mpr user, sysretExit, handlerReturn, pushFrame]

def catching : SigProc :=
  { bootSignals with
    pending := bit 10
    actions := Function.update bootSignals.actions 10 ⟨0x2000, 0, 0x3000, 0⟩ }

def idleRegs : UserRegs :=
  ⟨7, 0, 0, 0, 0, 0, 0, 0x7000, 0, 0, 0, 0, 0, 0, 0, 0, 0x1000, 0x202⟩

/-- No delivery of a caught signal is transparent, on either path. -/
theorem caught_signal_not_transparent (context : Returning) (p : SigProc) (m : UserMem)
    (d : Delivered) (next : Word) (delivered : context.deliver p m = some d) :
    ¬ context.Transparent p d next := by
  cases context with
  | interrupt s =>
    rintro ⟨-, -, -, -, -, keeps⟩
    obtain ⟨signum, p', valid, rfl⟩ := signalDeliver_spec delivered
    exact redZone_written valid keeps
  | sysret st =>
    rintro ⟨-, -, -, -, -, keeps⟩
    obtain ⟨signum, p', valid, rfl⟩ := signalDeliverSysret_spec delivered
    exact redZone_written valid keeps

theorem caught_signal_not_transparent_signal_ten :
    (∃ d, signalDeliver ⟨idleRegs, archUserCs⟩ catching (fun _ => 0) = some d ∧
      ¬ InterruptTransparent ⟨idleRegs, archUserCs⟩ catching d 0x3009) ∧
    ∃ d, signalDeliverSysret (syscallEntry idleRegs 0x1000) catching (fun _ => 0) = some d ∧
      ¬ SysretTransparent (syscallEntry idleRegs 0x1000) catching d 0x3009 :=
  ⟨⟨_, rfl, caught_signal_not_transparent (.interrupt _) _ _ _ _ rfl⟩,
    ⟨_, rfl, caught_signal_not_transparent (.sysret _) _ _ _ _ rfl⟩⟩

/-- Interrupted at RSP 0x7000 with RAX 7: the frame ends 8 bytes below RSP, and the
code resumes with another RAX. -/
theorem interrupt_clobbers_red_zone_and_rax :
    ∃ d, signalDeliver ⟨idleRegs, archUserCs⟩ catching (fun _ => 0) = some d ∧
      d.wroteAt = 0x6DC8 ∧ d.wroteLen = 560 ∧
      (∃ after p', roundTrip d 0x3009 = some (after, p') ∧ after.rax = sigreturnMagic) ∧
      ¬ InterruptTransparent ⟨idleRegs, archUserCs⟩ catching d 0x3009 := by
  refine ⟨_, rfl, by decide, bytes_length _, ?_, ?_⟩
  · exact ⟨_, _, roundTrip_pushFrame (by decide) rfl (by decide), rfl⟩
  · rintro ⟨-, -, -, -, -, keeps⟩
    exact redZone_written (by decide) keeps

end Aegis.SignalRoundTrip
