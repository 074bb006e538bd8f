import Aegis.LabelledRun
import Aegis.RingBuffer

/-! Pipes (kernel/fs/pipe.c).
One label of a run is one pass of a call through the critical section under the
lock of the pipe: a call that blocks returns later from another pass, so a run is
any interleaving of the calls of any number of tasks. `accepted` and `delivered`
are history variables, and so are the counts of open ends. -/

namespace Aegis.Pipes

open LabelledRun RingBuffer List

def pipeBufSize : Nat := 4024

structure Pipe where
  buf : Nat → UInt8
  readPos : Nat
  writePos : Nat
  count : Nat
  readRefs : Nat
  writeRefs : Nat
  readerWaiting : Option Nat
  writerWaiting : Option Nat

def newPipe : Pipe := ⟨fun _ => 0, 0, 0, 0, 1, 1, none, none⟩

def Pipe.reset (p : Pipe) : Pipe :=
  { p with
    readPos := if p.readPos ≥ pipeBufSize then 0 else p.readPos
    writePos := if p.writePos ≥ pipeBufSize then 0 else p.writePos }

def Pipe.contents (p : Pipe) : List UInt8 := stored pipeBufSize p.buf p.readPos p.count

/-- One pass of `pipe_read_fn`: the value returned and the bytes copied out, or `none`
when the task `caller` goes to sleep. The length is cut to 32 bits. -/
def pipeReadFn (p : Pipe) (caller len : Nat) : Pipe × Option (Nat × List UInt8) :=
  let p := p.reset
  if p.count = 0 ∧ p.writeRefs = 0 then (p, some (0, []))
  else if p.count = 0 then ({ p with readerWaiting := some caller }, none)
  else
    let n := if len % 2 ^ 32 > p.count then p.count else len % 2 ^ 32
    ({ p with
        readPos := (p.readPos + n) % pipeBufSize
        count := p.count - n
        writerWaiting := none },
      some (n, takeOut pipeBufSize p.buf p.readPos n))

/-- One pass of `pipe_write_fn` on the user buffer `data`; -32 is EPIPE. -/
def pipeWriteFn (p : Pipe) (caller : Nat) (data : Nat → UInt8) (len : Nat) : Pipe × Option Int :=
  let p := p.reset
  if p.readRefs = 0 then (p, some (-32))
  else if p.count = pipeBufSize then ({ p with writerWaiting := some caller }, none)
  else
    let avail := pipeBufSize - p.count
    let n := if len % 2 ^ 32 > avail then avail else len % 2 ^ 32
    ({ p with
        buf := putIn pipeBufSize p.buf p.writePos data n
        writePos := (p.writePos + n) % pipeBufSize
        count := p.count + n
        readerWaiting := none },
      some n)

def lessRef (refs : Nat) : Nat := (refs + 0xFFFFFFFF) % 2 ^ 32

def moreRef (refs : Nat) : Nat := (refs + 1) % 2 ^ 32

def pipeReadCloseFn (p : Pipe) : Pipe :=
  { p with readRefs := lessRef p.readRefs, writerWaiting := none }

def pipeWriteCloseFn (p : Pipe) : Pipe :=
  { p with writeRefs := lessRef p.writeRefs, readerWaiting := none }

def pipeDupReadFn (p : Pipe) : Pipe := { p with readRefs := moreRef p.readRefs }

def pipeDupWriteFn (p : Pipe) : Pipe := { p with writeRefs := moreRef p.writeRefs }

inductive PipeCall
  | read (caller len : Nat)
  | write (caller : Nat) (data : Nat → UInt8) (len : Nat)
  | closeRead
  | closeWrite
  | dupRead
  | dupWrite

/-- A pipe with its history: the bytes its writes accepted, the bytes its reads
returned, and how many ends of each kind are open. -/
structure PipeState where
  pipe : Pipe
  accepted : List UInt8
  delivered : List UInt8
  readers : Nat
  writers : Nat

def pipeStart : PipeState := ⟨newPipe, [], [], 1, 1⟩

def PipeState.afterWrite (s : PipeState) (data : Nat → UInt8) (pass : Pipe × Option Int) :
    PipeState :=
  { s with pipe := pass.1, accepted := s.accepted ++ slice data 0 (pass.2.getD 0).toNat }

def PipeState.afterRead (s : PipeState) (pass : Pipe × Option (Nat × List UInt8)) : PipeState :=
  { s with pipe := pass.1, delivered := s.delivered ++ (pass.2.getD (0, [])).2 }

def PipeState.after (s : PipeState) : PipeCall → PipeState
  | .read caller len => s.afterRead (pipeReadFn s.pipe caller len)
  | .write caller data len => s.afterWrite data (pipeWriteFn s.pipe caller data len)
  | .closeRead => { s with pipe := pipeReadCloseFn s.pipe, readers := s.readers - 1 }
  | .closeWrite => { s with pipe := pipeWriteCloseFn s.pipe, writers := s.writers - 1 }
  | .dupRead => { s with pipe := pipeDupReadFn s.pipe, readers := s.readers + 1 }
  | .dupWrite => { s with pipe := pipeDupWriteFn s.pipe, writers := s.writers + 1 }

/-- The pipe is given back once both counters are zero: no call finds it any more. -/
def pipeStep (s : PipeState) (call : PipeCall) : Option PipeState :=
  if s.pipe.readRefs = 0 ∧ s.pipe.writeRefs = 0 then none else some (s.after call)

/-- Descriptors close and duplicate open ends, and there are fewer than `2 ^ 32` of them. -/
def EndsOpen (s : PipeState) : PipeCall → Prop
  | .closeRead => 0 < s.readers
  | .closeWrite => 0 < s.writers
  | .dupRead => 0 < s.readers ∧ s.readers + 1 < 2 ^ 32
  | .dupWrite => 0 < s.writers ∧ s.writers + 1 < 2 ^ 32
  | .read .. | .write .. => True

instance (s : PipeState) (call : PipeCall) : Decidable (EndsOpen s call) := by
  cases call <;> unfold EndsOpen <;> infer_instance

structure Pipe.Ring (p : Pipe) : Prop where
  inside : p.readPos < pipeBufSize
  fits : p.count ≤ pipeBufSize
  behind : p.writePos = (p.readPos + p.count) % pipeBufSize

variable {p : Pipe} {s : PipeState}

theorem Pipe.Ring.reset_eq (ring : p.Ring) : p.reset = p := by
  have hb : p.writePos < pipeBufSize := by
    rw [ring.behind]
    exact Nat.mod_lt _ (by decide)
  simp [Pipe.reset, Nat.not_le.mpr ring.inside, Nat.not_le.mpr hb]

theorem Pipe.Ring.ends (ring : p.Ring) (r w : Nat) (reader writer : Option Nat) :
    Pipe.Ring { p with
      readRefs := r
      writeRefs := w
      readerWaiting := reader
      writerWaiting := writer } :=
  ⟨ring.inside, ring.fits, ring.behind⟩

/-- The three ways a pass of a read ends: end of file, sleep, or a block from the front
of the queue. -/
theorem pipeReadFn_cases (ring : p.Ring) (caller len : Nat) :
    (p.count = 0 ∧ p.writeRefs = 0 ∧ pipeReadFn p caller len = (p, some (0, []))) ∨
      (p.count = 0 ∧ p.writeRefs ≠ 0 ∧
        pipeReadFn p caller len = ({ p with readerWaiting := some caller }, none)) ∨
      (p.count ≠ 0 ∧ ∃ n, n = min (len % 2 ^ 32) p.count ∧ pipeReadFn p caller len = ({ p with
              readPos := (p.readPos + n) % pipeBufSize
              count := p.count - n
              writerWaiting := none },
            some (n, stored pipeBufSize p.buf p.readPos n))) := by
  by_cases he : p.count = 0
  · by_cases hc : p.writeRefs = 0
    · exact .inl ⟨he, hc, by simp [pipeReadFn, ring.reset_eq, he, hc]⟩
    · exact .inr (.inl ⟨he, hc, by simp [pipeReadFn, ring.reset_eq, he, hc]⟩)
  · have block : (if len % 2 ^ 32 > p.count then p.count else len % 2 ^ 32) =
        min (len % 2 ^ 32) p.count := by
      rw [Nat.min_def]
      split <;> split <;> omega
    have lt : min (len % 2 ^ 32) p.count ≤ pipeBufSize :=
      Nat.le_trans (Nat.min_le_right ..) ring.fits
    refine .inr (.inr ⟨he, _, rfl, ?_⟩)
    simp only [pipeReadFn, ring.reset_eq, he, false_and, if_false, block,
      takeOut_eq p.buf ring.inside lt]

theorem pipeReadFn_spec (ring : p.Ring) (caller len : Nat) : (pipeReadFn p caller len).1.Ring ∧
      (pipeReadFn p caller len).1.readRefs = p.readRefs ∧
      (pipeReadFn p caller len).1.writeRefs = p.writeRefs ∧
      ((pipeReadFn p caller len).2.getD (0, [])).2 ++ (pipeReadFn p caller len).1.contents =
        p.contents := by
  obtain ⟨-, -, eof⟩ | ⟨-, -, hs⟩ | ⟨-, n, size, hc⟩ := pipeReadFn_cases ring caller len
  · rw [eof]
    exact ⟨ring, rfl, rfl, rfl⟩
  · rw [hs]
    exact ⟨ring.ends .., rfl, rfl, rfl⟩
  have lt : n ≤ p.count := size ▸ Nat.min_le_right ..
  rw [hc]
  refine ⟨⟨Nat.mod_lt _ (by decide), Nat.le_trans (Nat.sub_le ..) ring.fits, ?_⟩, rfl, rfl, ?_⟩
  · rw [ring.behind, Nat.mod_add_mod, Nat.add_assoc, Nat.add_sub_cancel' lt]
  · rw [Pipe.contents, Pipe.contents, Option.getD_some, ← stored_split, Nat.add_sub_cancel' lt]

theorem pipeWriteFn_spec (ring : p.Ring) (caller : Nat) (data : Nat → UInt8) (len : Nat) :
    (pipeWriteFn p caller data len).1.Ring ∧
      (pipeWriteFn p caller data len).1.readRefs = p.readRefs ∧
      (pipeWriteFn p caller data len).1.writeRefs = p.writeRefs ∧
      (pipeWriteFn p caller data len).1.contents =
        p.contents ++ slice data 0 ((pipeWriteFn p caller data len).2.getD 0).toNat := by
  simp only [pipeWriteFn, ring.reset_eq]
  split
  · exact ⟨ring, rfl, rfl, by simp⟩
  split
  · exact ⟨ring.ends .., rfl, rfl, by simp [Pipe.contents]⟩
  have room : p.count + (if len % 2 ^ 32 > pipeBufSize - p.count then pipeBufSize - p.count
      else len % 2 ^ 32) ≤ pipeBufSize := by
    have := ring.fits
    split <;> omega
  revert room
  generalize (if len % 2 ^ 32 > pipeBufSize - p.count then pipeBufSize - p.count
    else len % 2 ^ 32) = n
  intro room
  refine ⟨⟨ring.inside, room, ?_⟩, rfl, rfl, ?_⟩
  · rw [ring.behind, Nat.mod_add_mod, Nat.add_assoc]
  · rw [Pipe.contents, Pipe.contents, Option.getD_some, Int.toNat_natCast, ring.behind]
    exact stored_putIn p.buf data ring.inside room

structure PipeState.Sound (s : PipeState) : Prop where
  ring : s.pipe.Ring
  lossless : s.delivered ++ s.pipe.contents = s.accepted
  readRefs : s.pipe.readRefs = s.readers
  writeRefs : s.pipe.writeRefs = s.writers
  readersFit : s.readers < 2 ^ 32
  writersFit : s.writers < 2 ^ 32

theorem lessRef_eq {refs : Nat} (pos : 0 < refs) (fits : refs < 2 ^ 32) :
    lessRef refs = refs - 1 := by
  unfold lessRef
  omega

theorem moreRef_eq {refs : Nat} (fits : refs + 1 < 2 ^ 32) : moreRef refs = refs + 1 :=
  Nat.mod_eq_of_lt fits

theorem PipeState.Sound.ends (hs : s.Sound) {r w : Nat} {reader writer : Option Nat}
    (readersFit : r < 2 ^ 32) (writersFit : w < 2 ^ 32) :
    PipeState.Sound ⟨⟨s.pipe.buf, s.pipe.readPos, s.pipe.writePos, s.pipe.count, r, w, reader,
        writer⟩, s.accepted, s.delivered, r, w⟩ :=
  ⟨hs.ring.ends .., hs.lossless, rfl, rfl, readersFit, writersFit⟩

theorem PipeState.Sound.after {call : PipeCall} (hs : s.Sound) (ha : EndsOpen s call) :
    (s.after call).Sound := by
  cases call with
  | read caller len =>
    obtain ⟨ring, hr, hw, queue⟩ := pipeReadFn_spec hs.ring caller len
    refine ⟨ring, ?_, hr.trans hs.readRefs, hw.trans hs.writeRefs, hs.readersFit, hs.writersFit⟩
    simp only [PipeState.after, PipeState.afterRead, append_assoc, queue, hs.lossless]
  | write caller data len =>
    obtain ⟨ring, hr, hw, queue⟩ := pipeWriteFn_spec hs.ring caller data len
    refine ⟨ring, ?_, hr.trans hs.readRefs, hw.trans hs.writeRefs, hs.readersFit, hs.writersFit⟩
    simp only [PipeState.after, PipeState.afterWrite, queue, ← hs.lossless, append_assoc]
  | closeRead =>
    have hf : s.readers - 1 < 2 ^ 32 := by have := hs.readersFit; omega
    simp only [PipeState.after, pipeReadCloseFn, hs.readRefs, hs.writeRefs,
      lessRef_eq ha hs.readersFit]
    exact hs.ends hf hs.writersFit
  | closeWrite =>
    have hf : s.writers - 1 < 2 ^ 32 := by have := hs.writersFit; omega
    simp only [PipeState.after, pipeWriteCloseFn, hs.readRefs, hs.writeRefs,
      lessRef_eq ha hs.writersFit]
    exact hs.ends hs.readersFit hf
  | dupRead =>
    simp only [PipeState.after, pipeDupReadFn, hs.readRefs, hs.writeRefs, moreRef_eq ha.2]
    exact hs.ends ha.2 hs.writersFit
  | dupWrite =>
    simp only [PipeState.after, pipeDupWriteFn, hs.readRefs, hs.writeRefs, moreRef_eq ha.2]
    exact hs.ends hs.readersFit ha.2

theorem PipeState.Sound.step {t : PipeState} {call : PipeCall} (hs : s.Sound)
    (ha : EndsOpen s call) (hm : pipeStep s call = some t) : t.Sound := by
  unfold pipeStep at hm
  split at hm
  · cases hm
  · rw [Option.some.injEq] at hm
    exact hm ▸ hs.after ha

theorem pipeStart_sound : pipeStart.Sound :=
  ⟨⟨by decide, by decide, rfl⟩, rfl, rfl, rfl, by decide, by decide⟩

theorem read_zero (ring : p.Ring) {caller len : Nat} {bytes : List UInt8}
    (pos : 0 < len % 2 ^ 32) (hr : (pipeReadFn p caller len).2 = some (0, bytes)) :
    p.count = 0 ∧ p.writeRefs = 0 := by
  obtain ⟨hd, hl, -⟩ | ⟨-, -, hs⟩ | ⟨hw, n, size, hc⟩ := pipeReadFn_cases ring caller len
  · exact ⟨hd, hl⟩
  · rw [hs] at hr
    cases hr
  · rw [hc, Option.some.injEq, Prod.mk.injEq] at hr
    omega

theorem read_value (ring : p.Ring) {caller len n : Nat} {bytes : List UInt8}
    (hr : (pipeReadFn p caller len).2 = some (n, bytes)) : bytes.length = n := by
  obtain ⟨-, -, ends⟩ | ⟨-, -, ends⟩ | ⟨-, m, -, ends⟩ := pipeReadFn_cases ring caller len
  · rw [ends] at hr
    cases hr
    rfl
  · rw [ends] at hr
    cases hr
  · rw [ends, Option.some.injEq, Prod.mk.injEq] at hr
    rw [← hr.1, ← hr.2, length_stored]

/-- A pipe is a loss-free queue of at most `pipeBufSize` bytes in every run of reads
and writes of any length, and end of file is seen only when all of it was read and the
last write end was closed. -/
theorem pipe_is_fifo {calls : List PipeCall} {s : PipeState}
    (run : RunWhere pipeStep EndsOpen pipeStart calls s) :
    s.pipe.writePos = (s.pipe.readPos + s.pipe.count) % 4024 ∧ s.pipe.count ≤ 4024 ∧
      s.delivered ++ s.pipe.contents = s.accepted ∧
      ∀ caller len n bytes, (pipeReadFn s.pipe caller len).2 = some (n, bytes) → bytes.length = n ∧
          (n = 0 → 0 < len % 2 ^ 32 → s.delivered = s.accepted ∧ s.writers = 0) := by
  have sound : s.Sound := run.invariant pipeStart_sound fun _ _ _ => PipeState.Sound.step
  refine ⟨sound.ring.behind, sound.ring.fits, sound.lossless, ?_⟩
  intro caller len n bytes returns
  refine ⟨read_value sound.ring returns, ?_⟩
  rintro rfl positive
  obtain ⟨drained, closed⟩ := read_zero sound.ring positive returns
  refine ⟨?_, sound.writeRefs.symm.trans closed⟩
  rw [← sound.lossless, Pipe.contents, drained]
  exact (append_nil _).symm

def wrapCalls : List PipeCall :=
  [.write 1 (fun i => UInt8.ofNat i) 4000, .read 2 4000, .write 1 (fun i => UInt8.ofNat i) 100,
    .closeWrite, .read 2 70, .read 2 70]

theorem pipe_is_fifo_wrapped :
    (reached (guarded pipeStep EndsOpen) pipeStart wrapCalls).pipe.readPos = 76 ∧
      (reached (guarded pipeStep EndsOpen) pipeStart wrapCalls).delivered =
        (reached (guarded pipeStep EndsOpen) pipeStart wrapCalls).accepted := by
  have run := runWhere_of_exec (exec_eq_reached
    (by decide +kernel : (exec (guarded pipeStep EndsOpen) pipeStart wrapCalls).isSome))
  have fifo := pipe_is_fifo run
  have drained : (reached (guarded pipeStep EndsOpen) pipeStart wrapCalls).pipe.count = 0 := by
    decide +kernel
  refine ⟨by decide +kernel, ?_⟩
  rw [← fifo.2.2.1, Pipe.contents, drained]
  exact (append_nil _).symm

/-- The ring has 4024 cells, not 4060, and a length that is a multiple of `2 ^ 32` is
read as 0 although bytes are waiting. -/
theorem write_pos_wraps_at_4024 : ∃ s, RunWhere pipeStep EndsOpen pipeStart (wrapCalls.take 3) s ∧
      s.pipe.writePos ≠ (s.pipe.readPos + s.pipe.count) % 4060 ∧
      (pipeReadFn s.pipe 2 (2 ^ 32)).2 = some (0, []) ∧ s.pipe.count = 100 ∧ s.writers = 1 :=
  exists_runWhere

end Aegis.Pipes
