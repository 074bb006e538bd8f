import Aegis.ByteLayout
import Aegis.LabelledRun

/-! The canonical line discipline: `tty_read` of `tty.c` against a reference editor. A call
is given with what `read_raw` returned to it, so that a sequence of calls splits an input
stream at any point. `tty_read` keeps an unfinished line in the buffer when it is interrupted
and takes it for a finished one in the next call; `Kept` says which calls start and which
bytes come where the two editors agree. -/

namespace Aegis.LineDiscipline

open LabelledRun ByteLayout List Option

structure Termios where
  icanon : Bool
  isig : Bool
  icrnl : Bool
  vintr : Byte
  vsusp : Byte
  vquit : Byte
  veof : Byte
  verase : Byte
  vkill : Byte
  vmin : Byte

def initDefaults : Termios where
  icanon := true
  isig := true
  icrnl := true
  vintr := 0x03
  vsusp := 0x1A
  vquit := 0x1C
  veof := 0x04
  verase := 0x7F
  vkill := 0
  vmin := 1

def newline : Byte := 0x0A

def carriageReturn : Byte := 0x0D

def backspace : Byte := 0x08

def lineMax : Nat := 512

/-- The bytes of `linebuf` below `line_len`, with `line_pos` and `line_ready`. -/
structure Tty where
  line : List Byte
  linePos : Nat
  lineReady : Bool

inductive Raw
  | byte (b : Byte)
  | interrupted
  | failed (rc : Int)
  | noData

inductive Ret
  | data (bytes : List Byte)
  | endOfFile
  | code (rc : Int)

namespace Termios

variable (c : Termios)

def mapChar (b : Byte) : Byte :=
  if c.icrnl ∧ b = carriageReturn then newline else b

def isSignal (ch : Byte) : Bool :=
  c.isig && (ch == c.vintr || ch == c.vsusp || ch == c.vquit)

end Termios

inductive After
  | again (t : Tty)
  | signal (t : Tty)
  | endOfFile
  | ready (t : Tty)

namespace Tty

variable (t : Tty)

def empty : Tty := ⟨[], 0, false⟩

def feed (c : Termios) (b : Byte) : After :=
  let ch := c.mapChar b
  if c.isSignal ch then .signal { t with line := [] }
  else if ch = newline then
    .ready { t with
      line := if t.line.length < lineMax then t.line ++ [ch] else t.line
      lineReady := true }
  else if ch = c.veof then
    if t.line = [] then .endOfFile else .ready { t with lineReady := true }
  else if ch = c.verase ∨ ch = backspace then .again { t with line := t.line.dropLast }
  else if 0x20 ≤ ch.toNat ∧ t.line.length < lineMax then .again { t with line := t.line ++ [ch] }
  else .again t

def copyOut (len : Nat) : Tty × List Byte :=
  let data := (t.line.drop t.linePos).take len
  if t.line.length ≤ t.linePos + data.length then (empty, data)
  else ({ t with linePos := t.linePos + data.length }, data)

/-- The loop over `read_raw`; none for a call that does not return, or returned before. -/
def fill (c : Termios) (len : Nat) : Tty → List Raw → Option (Tty × Ret)
  | _, [] => none
  | t, .byte b :: rest =>
    match t.feed c b with
    | .again t' => fill c len t' rest
    | .signal t' => if rest = [] then some (t', .code (-4)) else none
    | .endOfFile => if rest = [] then some (t, .endOfFile) else none
    | .ready t' =>
      if rest = [] then
        let out := copyOut { t' with linePos := 0 } len
        some (out.1, .data out.2)
      else none
  | t, .interrupted :: rest => if rest = [] then some (t, .code (-4)) else none
  | t, .failed rc :: rest => if rest = [] then some (t, .code rc) else none
  | _, .noData :: _ => none

def rawRead (c : Termios) : List Raw → Option Ret
  | [] => none
  | .byte b :: rest =>
    if c.isSignal (c.mapChar b) then rawRead c rest
    else if rest = [] then some (.data [c.mapChar b]) else none
  | .interrupted :: rest => if rest = [] then some (.code (-4)) else none
  | .failed rc :: rest => if rest = [] then some (.code rc) else none
  | .noData :: rest => if rest = [] ∧ c.vmin = 0 then some (.code 0) else none

end Tty

/-- A call of `tty_read`: `background` for a caller that is stopped by `SIGTTIN`, and what
`read_raw` returns to it, one after the other. -/
structure ReadCall where
  termios : Termios
  len : Nat
  background : Bool
  raws : List Raw

def ttyRead (t : Tty) (call : ReadCall) : Option (Tty × Ret) :=
  if call.len = 0 then if call.raws = [] then some (t, .code 0) else none
  else if call.background then if call.raws = [] then some (t, .code (-4)) else none
  else if call.termios.icanon = false then
    (Tty.rawRead call.termios call.raws).map fun ret => (t, ret)
  else if t.linePos < t.line.length then
    if call.raws = [] then some ((t.copyOut call.len).1, .data (t.copyOut call.len).2) else none
  else Tty.fill call.termios call.len .empty call.raws

structure Editor where
  line : List Byte
  lines : List (List Byte)

def Editor.edit (c : Termios) (e : Editor) : Raw → Editor
  | .byte b =>
    let ch := c.mapChar b
    if c.isSignal ch then { e with line := [] }
    else if ch = newline then ⟨[], e.lines ++ [e.line ++ [ch]]⟩
    else if ch = c.veof then ⟨[], e.lines ++ [e.line]⟩
    else if ch = c.verase then { e with line := e.line.dropLast }
    else if ch = c.vkill then { e with line := [] }
    else { e with line := e.line ++ [ch] }
  | _ => e

structure Session where
  tty : Tty
  editor : Editor
  out : List (List Byte)

def Session.start : Session :=
  ⟨.empty, ⟨[], []⟩, []⟩

def Ret.add (out : List (List Byte)) : Ret → List (List Byte)
  | .data bytes => out ++ [bytes]
  | .endOfFile => out ++ [[]]
  | .code _ => out

def readStep (s : Session) (call : ReadCall) : Option Session :=
  if call.termios.icanon = false then none
  else (ttyRead s.tty call).map fun (t, ret) =>
    ⟨t, call.raws.foldl (Editor.edit call.termios) s.editor, ret.add s.out⟩

def Tty.pending (t : Tty) : List Byte :=
  if t.lineReady then t.line.drop t.linePos else []

/-- The reads fall into groups, one for each line, and each line is what its group returned;
of the last one `pending` is still to come. -/
def ReadsLines (out lines : List (List Byte)) (pending : List Byte) : Prop :=
  out = [] ∧ lines = [] ∧ pending = [] ∨
  ∃ (groups : List (List (List Byte))) (part : List (List Byte)), out = groups.flatten ++ part ∧
    lines = groups.map List.flatten ++ [part.flatten ++ pending]

def Agrees (c : Termios) (line : List Byte) : Raw → Prop
  | .byte b =>
    let ch := c.mapChar b
    c.isSignal ch = false →
      if ch = newline then line.length < lineMax
      else if ch = c.veof ∨ ch = c.verase then True
      else if ch = c.vkill then
        line = [] ∧ ch.toNat < 0x20 ∨ ch = backspace ∧ line.length = 1
      else 0x20 ≤ ch.toNat ∧ line.length < lineMax
  | _ => True

instance (c : Termios) (line : List Byte) (raw : Raw) : Decidable (Agrees c line raw) := by
  rcases raw <;> (dsimp only [Agrees]; infer_instance)

def AgreesAll (c : Termios) : Editor → List Raw → Prop
  | _, [] => True
  | e, raw :: rest => Agrees c e.line raw ∧ AgreesAll c (e.edit c raw) rest

instance (c : Termios) : (e : Editor) → (raws : List Raw) → Decidable (AgreesAll c e raws)
  | _, [] => .isTrue trivial
  | e, raw :: rest =>
    have := instDecidableAgreesAll c (e.edit c raw) rest
    inferInstanceAs (Decidable (_ ∧ _))

/-- No read starts on an unfinished line, and the bytes are edited alike. -/
def Kept (s : Session) (call : ReadCall) : Prop :=
  (call.len ≠ 0 ∧ call.background = false → s.tty.lineReady = true ∨ s.tty.line = []) ∧
  AgreesAll call.termios s.editor call.raws
  deriving Decidable

section Reads
variable {out lines : List (List Byte)} {pending line data rest : List Byte}

theorem ReadsLines.newLine (hr : ReadsLines out lines []) :
    ReadsLines out (lines ++ [line]) line := by
  obtain ⟨rfl, rfl, -⟩ | ⟨groups, part, rfl, rfl⟩ := hr
  · exact .inr ⟨[], [], rfl, rfl⟩
  · exact .inr ⟨groups ++ [part], [], by simp, by simp⟩

theorem ReadsLines.read (hr : ReadsLines out lines (data ++ rest)) (hs : lines ≠ []) :
    ReadsLines (out ++ [data]) lines rest := by
  obtain ⟨-, none, -⟩ | ⟨groups, part, rfl, rfl⟩ := hr
  · exact absurd none hs
  · exact .inr ⟨groups, part ++ [data], by simp, by simp⟩

theorem ReadsLines.flatten_eq (hr : ReadsLines out lines pending) :
    out.flatten ++ pending = lines.flatten := by
  obtain ⟨rfl, rfl, rfl⟩ | ⟨groups, part, rfl, rfl⟩ := hr
  · rfl
  · simp [flatten_flatten]

end Reads

/-- Between calls: a finished line that is not read to its end, or the reference's own
unfinished line. -/
def Settled (t : Tty) (line : List Byte) : Prop :=
  t.lineReady = true ∧ t.linePos < t.line.length ∧ line = [] ∨
  t.lineReady = false ∧ t.linePos = 0 ∧ t.line = line

def Filling (t : Tty) (line : List Byte) : Prop :=
  t = ⟨line, 0, false⟩

variable {c : Termios} {t : Tty} {e : Editor} {len : Nat} {b : Byte}

theorem copyOut_eq (hr : t.lineReady = true) :
    t.line.drop t.linePos = (t.copyOut len).2 ++ (t.copyOut len).1.pending ∧
      Settled (t.copyOut len).1 [] := by
  unfold Tty.copyOut
  dsimp only
  have split := take_append_drop len (t.line.drop t.linePos)
  split
  · next done =>
    have all : ((t.line.drop t.linePos).take len).length = (t.line.drop t.linePos).length := by
      simp only [length_take, length_drop] at done ⊢
      omega
    refine ⟨?_, .inr ⟨rfl, rfl, rfl⟩⟩
    have hw : (t.line.drop t.linePos).take len = t.line.drop t.linePos :=
      ( take_prefix _ _).eq_of_length all
    simp [Tty.pending, Tty.empty, hw]
  · next more =>
    refine ⟨?_, .inl ⟨hr, by simpa using more, rfl⟩⟩
    have hs : len ≤ (t.line.drop t.linePos).length := by
      by_contra long
      rw [take_of_length_le (by omega)] at more
      simp only [length_drop] at more
      omega
    simp only [Tty.pending, hr, if_true, length_take, min_eq_left hs]
    rw [← drop_drop]
    exact split.symm

def Alike (e e' : Editor) (t : Tty) : After → Prop
  | .again t' | .signal t' => Filling t' e'.line ∧ e'.lines = e.lines
  | .endOfFile => t = .empty ∧ e' = ⟨[], e.lines ++ [[]]⟩
  | .ready t' => t'.lineReady = true ∧ e' = ⟨[], e.lines ++ [t'.line]⟩

theorem feed_agrees (agrees : Agrees c e.line (.byte b)) (filling : Filling t e.line) :
    Alike e (e.edit c (.byte b)) t (t.feed c b) := by
  subst filling
  simp only [Tty.feed, Editor.edit, Agrees] at agrees ⊢
  generalize c.mapChar b = ch at agrees ⊢
  by_cases signal : c.isSignal ch = true
  · rw [if_pos signal, if_pos signal]
    exact ⟨rfl, rfl⟩
  replace agrees := agrees (by simpa using signal)
  rw [if_neg signal, if_neg signal]
  by_cases line : ch = newline
  · rw [if_pos line] at agrees
    rw [if_pos line, if_pos line, if_pos agrees]
    exact ⟨rfl, rfl⟩
  rw [if_neg line] at agrees
  rw [if_neg line, if_neg line]
  by_cases eof : ch = c.veof
  · rw [if_pos eof, if_pos eof]
    by_cases blank : e.line = []
    · rw [if_pos blank, blank]
      exact ⟨rfl, rfl⟩
    · rw [if_neg blank]
      exact ⟨rfl, rfl⟩
  rw [if_neg eof, if_neg eof]
  by_cases erase : ch = c.verase
  · rw [if_pos erase, if_pos (.inl erase)]
    exact ⟨rfl, rfl⟩
  rw [if_neg (not_or.mpr ⟨eof, erase⟩)] at agrees
  rw [if_neg erase]
  by_cases kill : ch = c.vkill
  · -- a kill character is dropped, or erases when it is a backspace
    rw [if_pos kill] at agrees
    rw [if_pos kill]
    by_cases back : ch = backspace
    · have short : e.line.dropLast = [] := by
        obtain ⟨blank, -⟩ | ⟨-, one⟩ := agrees
        · rw [blank, dropLast_nil]
        · obtain ⟨only, same⟩ := length_eq_one_iff.mp one
          rw [same, dropLast_singleton]
      rw [if_pos (.inr back), short]
      exact ⟨rfl, rfl⟩
    · obtain ⟨blank, control⟩ := agrees.resolve_right fun other => back other.1
      rw [if_neg (not_or.mpr ⟨erase, back⟩), if_neg (by omega), blank]
      exact ⟨rfl, rfl⟩
  · rw [if_neg kill] at agrees
    have notBack : ch ≠ backspace := by
      rintro rfl
      exact absurd agrees.1 (by decide)
    rw [if_neg kill, if_neg (not_or.mpr ⟨erase, notBack⟩), if_pos agrees]
    exact ⟨rfl, rfl⟩

/-- What a call that fills the buffer leaves, and what the reference has by then. -/
inductive Filled (e e' : Editor) (t : Tty) : Ret → Prop
  | code {rc : Int} (filling : Filling t e'.line) (lines : e'.lines = e.lines) :
      Filled e e' t (.code rc)
  | endOfFile (tty : t = .empty) (edited : e' = ⟨[], e.lines ++ [[]]⟩) : Filled e e' t .endOfFile
  | data {bytes : List Byte} (edited : e' = ⟨[], e.lines ++ [bytes ++ t.pending]⟩)
      (settled : Settled t []) : Filled e e' t (.data bytes)

theorem fill_agrees {raws : List Raw} {t' : Tty} {ret : Ret} (ha : AgreesAll c e raws)
    (hf : Filling t e.line) (hr : Tty.fill c len t raws = some (t', ret)) :
    Filled e (raws.foldl (Editor.edit c) e) t' ret := by
  induction raws generalizing t e with
  | nil => cases hr
  | cons raw rest ih =>
    obtain ⟨h1, hl⟩ := ha
    cases raw with
    | byte b =>
      have he := feed_agrees h1 hf
      rw [Tty.fill] at hr
      cases fed : t.feed c b with
      | again next =>
        rw [fed] at he hr
        have hd := ih hl he.1 hr
        rw [foldl_cons]
        cases hd with
        | code hf lines => exact .code hf (lines.trans he.2)
        | endOfFile tty last => exact .endOfFile tty (by rw [last, he.2])
        | data last hs => exact .data (by rw [last, he.2]) hs
      | signal next =>
        rw [fed] at he hr
        obtain ⟨rfl, ⟨⟩⟩ := ite_none_right_eq_some.mp hr
        exact .code he.1 he.2
      | endOfFile =>
        rw [fed] at he hr
        obtain ⟨rfl, ⟨⟩⟩ := ite_none_right_eq_some.mp hr
        exact .endOfFile he.1 he.2
      | ready next =>
        rw [fed] at he hr
        obtain ⟨rfl, ⟨⟩⟩ := ite_none_right_eq_some.mp hr
        obtain ⟨hc, hs⟩ := @copyOut_eq { next with linePos := 0 } len he.1
        refine .data ?_ hs
        rw [foldl_cons, foldl_nil, he.2, ← hc, drop_zero]
    | interrupted | failed _ =>
      obtain ⟨rfl, ⟨⟩⟩ := ite_none_right_eq_some.mp hr
      exact .code hf rfl
    | noData => cases hr

structure Follows (s : Session) : Prop where
  reads : ReadsLines s.out s.editor.lines s.tty.pending
  settled : Settled s.tty s.editor.line

theorem pending_of_filling {line : List Byte} (hf : Filling t line) : t.pending = [] := by
  rw [hf]
  rfl

theorem Filling.settled {line : List Byte} (hf : Filling t line) : Settled t line := by
  rw [hf]
  exact .inr ⟨rfl, rfl, rfl⟩

variable {s : Session}

theorem follows_fill {t' : Tty} {ret : Ret} (hl : Follows s)
    (hd : Filled s.editor e t' ret) (none : s.tty.pending = []) :
    Follows ⟨t', e, ret.add s.out⟩ := by
  have hr := hl.reads
  rw [none] at hr
  cases hd with
  | code hf lines =>
    refine ⟨?_, hf.settled⟩
    simpa only [Ret.add, lines, pending_of_filling hf] using hr
  | endOfFile tty he =>
    subst tty he
    exact ⟨hr.newLine.read (by simp), .inr ⟨rfl, rfl, rfl⟩⟩
  | data he hs =>
    subst he
    exact ⟨hr.newLine.read (by simp), hs⟩

theorem follows_drain (hf : Follows s) (hd : s.tty.lineReady = true)
    (more : s.tty.linePos < s.tty.line.length) :
    Follows ⟨(s.tty.copyOut len).1, s.editor, s.out ++ [(s.tty.copyOut len).2]⟩ := by
  obtain ⟨hc, ht⟩ := @copyOut_eq s.tty len hd
  have hr := hf.reads
  rw [Tty.pending, if_pos hd] at hr
  have hs : s.editor.lines ≠ [] := by
    obtain ⟨-, -, none⟩ | ⟨groups, part, -, lines⟩ := hr
    · exact absurd (drop_eq_nil_iff.mp none) (not_le.mpr more)
    · simp [lines]
  rw [hc] at hr
  refine ⟨hr.read hs, ?_⟩
  obtain ⟨-, -, hb⟩ | ⟨hn, -⟩ := hf.settled
  · rwa [hb]
  · rw [hd] at hn
    cases hn

theorem follows_step {s' : Session} {call : ReadCall} (hf : Follows s) (kept : Kept s call)
    (step : readStep s call = some s') : Follows s' := by
  obtain ⟨hs, ha⟩ := kept
  obtain ⟨canon, step⟩ := ite_none_left_eq_some.mp step
  obtain ⟨⟨t', ret⟩, hr, rfl⟩ := map_eq_some_iff.mp step
  unfold ttyRead at hr
  split at hr
  · obtain ⟨none, ⟨⟩⟩ := ite_none_right_eq_some.mp hr
    rw [none]
    exact hf
  next some =>
  split at hr
  · obtain ⟨none, ⟨⟩⟩ := ite_none_right_eq_some.mp hr
    rw [none]
    exact hf
  next foreground =>
  have hc := hs ⟨some, by simpa using foreground⟩
  split at hr
  · next more =>
    obtain ⟨none, ⟨⟩⟩ := ite_none_right_eq_some.mp hr
    rw [none]
    refine follows_drain hf (hc.resolve_right fun hb => ?_) more
    rw [hb] at more
    cases more
  · next done =>
    obtain ⟨-, more, -⟩ | ⟨hn, -, line⟩ := hf.settled
    · exact absurd more done
    have hb : s.tty.line = [] := hc.resolve_left (by simp [hn])
    have hl : Filling .empty s.editor.line := by
      rw [← line, hb]
      rfl
    exact follows_fill hf (fill_agrees ha hl hr) (by rw [Tty.pending, hn]; rfl)

theorem follows_start : Follows .start := ⟨.inl ⟨rfl, rfl, rfl⟩, .inr ⟨rfl, rfl, rfl⟩⟩

/-- In every sequence of reads that meets `Kept`, what was returned, and what is left of the
last line, is what the reference completed on the same input, line by line. -/
theorem canonical_reads {calls : List ReadCall} {s : Session}
    (run : RunWhere readStep Kept .start calls s) :
    ReadsLines s.out s.editor.lines s.tty.pending ∧
      s.out.flatten ++ s.tty.pending = s.editor.lines.flatten := by
  have follows : Follows s := run.invariant follows_start fun _ _ _ => follows_step
  exact ⟨follows.reads, follows.reads.flatten_eq⟩

/-- A line that is corrected and read in two pieces, an interrupted wait, a line that the
user throws away, a line ended without newline, and an end of file. -/
def typedLines : List ReadCall :=
  [⟨initDefaults, 2, false, [.byte 0x61, .byte 0x62, .byte 0x7F, .byte 0x63, .byte 0x0D]⟩,
    ⟨initDefaults, 9, false, []⟩,
    ⟨initDefaults, 9, false, [.interrupted]⟩,
    ⟨initDefaults, 9, false, [.byte 0x64, .byte 0x03]⟩,
    ⟨initDefaults, 9, false, [.byte 0x65, .byte 0x04]⟩,
    ⟨initDefaults, 9, false, [.byte 0x04]⟩]

theorem canonical_reads_typed : ∃ s, RunWhere readStep Kept .start typedLines s ∧
      s.out = [[0x61, 0x63], [0x0A], [0x65], []] ∧
      s.editor.lines = [[0x61, 0x63, 0x0A], [0x65], []] ∧
      s.out.flatten ++ s.tty.pending = s.editor.lines.flatten := by
  refine exists_runWhere_of (fun s => s.out = [[0x61, 0x63], [0x0A], [0x65], []] ∧
    s.editor.lines = [[0x61, 0x63, 0x0A], [0x65], []]) ?_
  rintro s run ⟨out, lines⟩
  exact ⟨out, lines, (canonical_reads run).2⟩

/-- An interrupted read leaves its unfinished line to the next one, which returns it. A tab is
dropped, a backspace erases though `VERASE` is another character, `VKILL` does nothing, and a
line of 512 characters loses its newline. -/
theorem canonical_reads_differ :
    (∃ s, Run readStep .start [⟨initDefaults, 9, false, [.byte 0x61, .interrupted]⟩,
        ⟨initDefaults, 9, false, []⟩] s ∧ s.out = [[0x61]] ∧ s.editor.lines = []) ∧
    (∃ s, Run readStep .start [⟨initDefaults, 9, false, [.byte 0x61, .byte 0x09, .byte 0x0A]⟩] s ∧
      s.out = [[0x61, 0x0A]] ∧ s.editor.lines = [[0x61, 0x09, 0x0A]]) ∧
    (∃ s, Run readStep .start [⟨initDefaults, 9, false, [.byte 0x61, .byte 0x08, .byte 0x0A]⟩] s ∧
      s.out = [[0x0A]] ∧ s.editor.lines = [[0x61, 0x08, 0x0A]]) ∧
    (∃ s, Run readStep .start [⟨{ initDefaults with vkill := 0x15 }, 9, false,
        [.byte 0x61, .byte 0x15, .byte 0x0A]⟩] s ∧
      s.out = [[0x61, 0x0A]] ∧ s.editor.lines = [[0x0A]]) ∧
    ∃ s, Run readStep .start [⟨initDefaults, 1024, false,
        List.replicate 512 (.byte 0x61) ++ [.byte 0x0A]⟩] s ∧
      s.out = [List.replicate 512 0x61] ∧ s.editor.lines = [List.replicate 512 0x61 ++ [0x0A]] :=
  ⟨exists_run, exists_run, exists_run, exists_run, exists_run⟩

end Aegis.LineDiscipline
