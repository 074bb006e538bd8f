import Aegis.SignalState
import Mathlib.Data.List.GetD
import Mathlib.Tactic.IntervalCases

/-! The x86-64 signal frame from delivery to `sys_rt_sigreturn`.
Registers, the 560-byte `rt_sigframe_t` in user memory, both delivery paths, the
return of a handler through its restorer, and the register half of
`syscall_entry`: the frame it pushes and the pops before SYSRET. -/

namespace Aegis.SignalFrame
open SignalState List

abbrev Byte := BitVec 8
abbrev UserMem := Nat → Byte

structure UserRegs where
  (rax rbx rcx rdx rsi rdi rbp rsp : Word)
  (r8 r9 r10 r11 r12 r13 r14 r15 : Word)
  (rip rflags : Word)

def leBytes (w : Word) : List Byte := (List.range 8).map fun i => w.extractLsb' (8 * i) 8

def loadWord (m : UserMem) (a : Nat) : Word :=
  m (a + 7) ++ m (a + 6) ++ m (a + 5) ++ m (a + 4) ++ m (a + 3) ++ m (a + 2) ++ m (a + 1) ++ m a

def storeBytes (m : UserMem) (a : Nat) (bytes : List Byte) : UserMem :=
  fun x => if x < a then m x else bytes.getD (x - a) (m x)

/-- `gregs[]` in the order of the `REG_*` indices. Entries 19 to 22 are never
written after the frame is zeroed. -/
structure Gregs where
  (r8 r9 r10 r11 r12 r13 r14 r15 rdi rsi rbp rbx rdx rax rcx rsp rip efl csgsfs : Word)

def Gregs.words (g : Gregs) : List Word :=
  [g.r8, g.r9, g.r10, g.r11, g.r12, g.r13, g.r14, g.r15, g.rdi, g.rsi, g.rbp, g.rbx, g.rdx,
    g.rax, g.rcx, g.rsp, g.rip, g.efl, g.csgsfs, 0, 0, 0, 0]

structure RtSigframe where
  pretcode : Word
  gregs : Gregs
  ucSigmask : Word

/-- `siginfo`, `uc_flags`, `uc_link` and `uc_stack` precede `gregs`; `fpregs` and
the reserved words follow it. -/
def RtSigframe.words (f : RtSigframe) : List Word :=
  f.pretcode :: (List.replicate 21 0 ++ (f.gregs.words ++
    (List.replicate 9 0 ++ f.ucSigmask :: List.replicate 15 0)))

def RtSigframe.bytes (f : RtSigframe) : List Byte := f.words.flatMap leBytes

def readFrame (m : UserMem) (a : Nat) : RtSigframe :=
  let greg (i : Nat) : Word := loadWord m (a + 8 * (22 + i))
  { pretcode := loadWord m a
    gregs := ⟨greg 0, greg 1, greg 2, greg 3, greg 4, greg 5, greg 6, greg 7, greg 8, greg 9,
      greg 10, greg 11, greg 12, greg 13, greg 14, greg 15, greg 16, greg 17, greg 18⟩
    ucSigmask := loadWord m (a + 8 * 54) }

@[simp] theorem leBytes_length (w : Word) : (leBytes w).length = 8 := by simp [leBytes]

theorem bytes_length (f : RtSigframe) : f.bytes.length = sigframeSize := by
  simp [RtSigframe.bytes, RtSigframe.words, Gregs.words, sigframeSize]

theorem flatMap_leBytes_getD (words : List Word) (i j : Nat) (d : Byte)
    (hi : i < words.length) (hj : j < 8) :
    (words.flatMap leBytes).getD (8 * i + j) d = words[i].extractLsb' (8 * j) 8 := by
  induction words generalizing i with
  | nil => simp at hi
  | cons w words ih =>
    rw [flatMap_cons]
    cases i with
    | zero =>
      rw [getD_append _ _ _ _ (by simpa using hj)]
      simp [leBytes, getD_eq_getElem?_getD, hj]
    | succ i =>
      rw [getD_append_right _ _ _ _ (by simp; omega)]
      have shift : 8 * (i + 1) + j - (leBytes w).length = 8 * i + j := by simp; omega
      rw [shift, ih i (by simpa using hi)]
      rfl

theorem loadWord_storeBytes (m : UserMem) (a : Nat) (words : List Word) (i : Nat)
    (hi : i < words.length) :
    loadWord (storeBytes m a (words.flatMap leBytes)) (a + 8 * i) = words[i] := by
  have byte (j : Nat) (hj : j < 8) :
      storeBytes m a (words.flatMap leBytes) (a + 8 * i + j) = words[i].extractLsb' (8 * j) 8 := by
    rw [storeBytes, if_neg (by omega), show a + 8 * i + j - a = 8 * i + j by omega,
      flatMap_leBytes_getD words i j _ hi hj]
  have low := byte 0 (by omega)
  rw [add_zero] at low
  rw [loadWord, byte 7 (by omega), byte 6 (by omega), byte 5 (by omega), byte 4 (by omega),
    byte 3 (by omega), byte 2 (by omega), byte 1 (by omega), low]
  apply BitVec.eq_of_getLsbD_eq
  intro k hk
  simp only [BitVec.getLsbD_append, BitVec.getLsbD_extractLsb']
  interval_cases k <;> simp

theorem readFrame_storeBytes (m : UserMem) (a : Nat) (f : RtSigframe) :
    readFrame (storeBytes m a f.bytes) a = f := by
  have word (i : Nat) (hi : i < f.words.length) :
      loadWord (storeBytes m a f.bytes) (a + 8 * i) = f.words[i] :=
    loadWord_storeBytes m a f.words i hi
  have h1 := word 0 (by simp [RtSigframe.words])
  rw [Nat.mul_zero, add_zero] at h1
  have size : f.words.length = 70 := by simp [RtSigframe.words, Gregs.words]
  simp only [readFrame, h1, Nat.reduceAdd]
  rw [word 54 (by omega), word 22 (by omega), word 23 (by omega), word 24 (by omega),
    word 25 (by omega), word 26 (by omega), word 27 (by omega), word 28 (by omega),
    word 29 (by omega), word 30 (by omega), word 31 (by omega), word 32 (by omega),
    word 33 (by omega), word 34 (by omega), word 35 (by omega), word 36 (by omega),
    word 37 (by omega), word 38 (by omega), word 39 (by omega), word 40 (by omega)]
  rfl

def archUserCs : Word := 0x23

structure CpuState where
  regs : UserRegs
  cs : Word

/-- What a delivery leaves behind: the registers the handler starts with, the
process, user memory, and the range of user bytes that `copy_to_user` wrote. -/
structure Delivered where
  regs : UserRegs
  proc : SigProc
  mem : UserMem
  wroteAt : Nat
  wroteLen : Nat

def pushFrame (regs : UserRegs) (p : SigProc) (m : UserMem) (frame : Word) (sf : RtSigframe) :
    Delivered :=
  { regs := regs
    proc := p
    mem := storeBytes m frame.toNat sf.bytes
    wroteAt := frame.toNat
    wroteLen := sf.bytes.length }

def interruptFrame (s : CpuState) (sa : SigAction) (mask : Word) : RtSigframe :=
  let r := s.regs
  { pretcode := sa.restorer
    gregs := ⟨r.r8, r.r9, r.r10, r.r11, r.r12, r.r13, r.r14, r.r15, r.rdi, r.rsi, r.rbp,
      r.rbx, r.rdx, r.rax, r.rcx, r.rsp, r.rip, r.rflags, s.cs⟩
    ucSigmask := mask }

def signalDeliver (s : CpuState) (p : SigProc) (m : UserMem) : Option Delivered :=
  if s.cs ≠ archUserCs then none
  else
    match deliverDecision p s.regs.rsp with
    | (p', .caught signum sa frame) =>
      let redirected :=
        { s.regs with rip := sa.handler, rsp := frame, rdi := BitVec.ofNat 64 signum, rax := 0 }
      some (pushFrame redirected p' m frame (interruptFrame s sa p.mask))
    | _ => none

structure SyscallFrame where
  (r10 r9 r8 rbx rbp r12 r13 r14 r15 rflags rip userRsp : Word)

/-- The kernel stack of a system call between `syscall_dispatch` and SYSRET: the
frame, the saved rdi, rsi, rdx slots above it, and RAX. -/
structure SysretState where
  frame : SyscallFrame
  (rdi rsi rdx rax : Word)

def sigreturnMagic : Word := 0xdeadbeefcafebabe

/-- SYSCALL at an instruction whose successor is `next`, then the pushes of
`syscall_entry`. The CPU leaves `next` in RCX and RFLAGS in R11. -/
def syscallEntry (r : UserRegs) (next : Word) : SysretState :=
  { frame := ⟨r.r10, r.r9, r.r8, r.rbx, r.rbp, r.r12, r.r13, r.r14, r.r15, r.rflags, next, r.rsp⟩
    rdi := r.rdi, rsi := r.rsi, rdx := r.rdx, rax := r.rax }

/-- The pops of `syscall_entry` and SYSRET: RIP from RCX, RFLAGS from R11 without
RF and VM and with bit 1 set. -/
def sysretExit (st : SysretState) : UserRegs :=
  let f := st.frame
  { rax := st.rax, rbx := f.rbx, rcx := f.rip, rdx := st.rdx, rsi := st.rsi, rdi := st.rdi
    rbp := f.rbp, rsp := f.userRsp, r8 := f.r8, r9 := f.r9, r10 := f.r10, r11 := f.rflags
    r12 := f.r12, r13 := f.r13, r14 := f.r14, r15 := f.r15, rip := f.rip
    rflags := (f.rflags &&& 0x3C7FD7) ||| 2 }

def sysretFrame (st : SysretState) (sa : SigAction) (mask : Word) : RtSigframe :=
  let f := st.frame
  { pretcode := sa.restorer
    gregs := ⟨f.r8, f.r9, f.r10, f.rflags, f.r12, f.r13, f.r14, f.r15, st.rdi, st.rsi,
      f.rbp, f.rbx, st.rdx, st.rax, f.rip, f.userRsp, f.rip, f.rflags, 0⟩
    ucSigmask := mask }

/-- The signal part of `syscall_entry`: nothing is delivered after a sigreturn. -/
def signalDeliverSysret (st : SysretState) (p : SigProc) (m : UserMem) : Option Delivered :=
  if st.rax = sigreturnMagic then none
  else
    match deliverDecision p st.frame.userRsp with
    | (p', .caught signum sa frame) =>
      let patched : SysretState :=
        { st with
          frame := { st.frame with rip := sa.handler, userRsp := frame }
          rdi := BitVec.ofNat 64 signum
          rax := 0 }
      some (pushFrame (sysretExit patched) p' m frame (sysretFrame st sa p.mask))
    | _ => none

/-- `none` is `sched_exit`: the frame address or the restored RIP is not a user address. -/
def sysRtSigreturn (st : SysretState) (p : SigProc) (m : UserMem) :
    Option (SysretState × SigProc) :=
  let addr := st.frame.userRsp - 8
  if !userPtrValid addr sigframeSize then none
  else
    let sf := readFrame m addr.toNat
    let g := sf.gregs
    if userAddrMax < g.rip.toNat then none
    else
      some
        ({ st with
            frame :=
              { r10 := g.r10, r9 := g.r9, r8 := g.r8, rbx := g.rbx, rbp := g.rbp, r12 := g.r12
                r13 := g.r13, r14 := g.r14, r15 := g.r15, rflags := (g.efl &&& 0xCD5) ||| 0x202
                rip := g.rip, userRsp := g.rsp }
            rax := sigreturnMagic },
          { p with mask := sf.ucSigmask &&& ~~~unmaskable })

def handlerReturn (d : Delivered) : UserRegs :=
  { d.regs with rip := loadWord d.mem d.regs.rsp.toNat, rsp := d.regs.rsp + 8 }

/-- The handler returns, its restorer issues system call 15 from the instruction
before `next`, and the kernel returns to the interrupted code. -/
def roundTrip (d : Delivered) (next : Word) : Option (UserRegs × SigProc) :=
  (sysRtSigreturn (syscallEntry { handlerReturn d with rax := 15 } next) d.proc d.mem).map
    fun result => (sysretExit result.1, result.2)

end Aegis.SignalFrame
