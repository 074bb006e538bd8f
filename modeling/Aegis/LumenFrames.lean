import Aegis.LabelledRun

/-! The window server reads messages from a socket that does not block. `lumen_server_read` is cut
at its calls of `read`: between two of them more bytes may arrive. -/

namespace Aegis.LumenFrames

open LabelledRun List

abbrev Bytes := List UInt8

abbrev Message := Nat × Bytes

def word (b : Bytes) : Nat := (b.take 4).foldr (fun x n => x.toNat + 256 * n) 0

def headerOp (b : Bytes) : Nat := word b

def headerLen (b : Bytes) : Nat := word (b.drop 4)

def requestSize : Nat → Option Nat
  | 1 => some 68
  | 2 => some 4
  | 3 => some 68
  | 4 => some 4
  | 5 => some 4
  | 6 => some 32
  | _ => none

inductive Phase where
  | header
  | request (op size : Nat)
  | drain (rem : Nat)
  deriving DecidableEq

/-- `sent` is what the client has sent so far, `sock` the part that was not read yet. -/
structure Client where
  sock : Bytes
  phase : Phase
  serving : Bool
  closed : Bool
  log : List Message
  sent : Bytes

def fresh : Client := ⟨[], .header, true, false, [], []⟩

def hangup (s : Client) : Client := { s with serving := false }

def readHeader (s : Client) : Client :=
  let rest := s.sock.drop 8
  if (s.sock.take 8).length ≠ 8 then hangup s
  else
    match requestSize (headerOp s.sock) with
    | some size => { s with sock := rest, phase := .request (headerOp s.sock) size }
    | none =>
      if headerLen s.sock = 0 then { s with sock := rest }
      else { s with sock := rest, phase := .drain (headerLen s.sock) }

/-- One call of `read`. A poll comes before the header is read. -/
def lumenServerRead (s : Client) : Client :=
  match s.phase with
  | .header =>
    if s.sock = [] then if s.closed then hangup s else s
    else readHeader s
  | .request op size =>
    if (s.sock.take size).length ≠ size then hangup s
    else { s with
      sock := s.sock.drop size, phase := .header, log := s.log ++ [(op, s.sock.take size)] }
  | .drain rem =>
    let r := min (min rem 256) s.sock.length
    if s.sock = [] then hangup s
    else { s with sock := s.sock.drop r, phase := if rem = r then .header else .drain (rem - r) }

inductive Event where
  | send (bytes : Bytes)
  | close
  | read
  deriving DecidableEq

def step (s : Client) : Event → Option Client
  | .send bytes =>
    if s.closed then none else some { s with sock := s.sock ++ bytes, sent := s.sent ++ bytes }
  | .close => some { s with closed := true }
  | .read => if s.serving then some (lumenServerRead s) else none

/-! ### The messages of a stream -/

theorem drop_shorter {b : Bytes} {n : Nat} (long : ¬b.length < 8) :
    ((b.drop 8).drop n).length < b.length := by
  rw [length_drop, length_drop]
  omega

/-- The complete messages of a stream. One with a size that its opcode does not have ends it. -/
def messages (b : Bytes) : List Message :=
  if b.length < 8 then []
  else
    let rest := b.drop 8
    match requestSize (headerOp b) with
    | some size =>
      if headerLen b ≠ size ∨ rest.length < size then []
      else (headerOp b, rest.take size) :: messages (rest.drop size)
    | none => if rest.length < headerLen b then [] else messages (rest.drop (headerLen b))
  termination_by b.length
  decreasing_by all_goals exact drop_shorter ‹_›

def left : Phase → Bytes → List Message
  | .header, b => messages b
  | .request op size, b =>
    if b.length < size then [] else (op, b.take size) :: messages (b.drop size)
  | .drain rem, b => if b.length < rem then [] else messages (b.drop rem)

/-- What is read at once has arrived: the whole header, and the whole request with the size of its
opcode. -/
def Arrived : Phase → Bytes → Prop
  | .header, b => b = [] ∨
      8 ≤ b.length ∧ ∀ size ∈ requestSize (headerOp b), headerLen b = size
  | .request _ size, b => size ≤ b.length
  | .drain _, b => b ≠ []

instance (phase : Phase) (b : Bytes) : Decidable (Arrived phase b) := by
  rcases phase <;> (dsimp only [Arrived]; infer_instance)

def Whole (s : Client) (event : Event) : Prop := event = .read → Arrived s.phase s.sock
  deriving Decidable

structure Framed (s : Client) : Prop where
  same : ∀ more, messages (s.sent ++ more) = s.log ++ left s.phase (s.sock ++ more)
  served : s.serving = false → s.closed = true

variable {s t : Client} {event : Event} {b more : Bytes}

theorem messages_header (long : 8 ≤ b.length)
    (hs : ∀ size ∈ requestSize (headerOp b), headerLen b = size) :
    messages (b ++ more) = match requestSize (headerOp b) with
      | some size => left (.request (headerOp b) size) (b.drop 8 ++ more)
      | none => left (.drain (headerLen b)) (b.drop 8 ++ more) := by
  have op : headerOp (b ++ more) = headerOp b := by
    rw [headerOp, headerOp, word, word, take_append_of_le_length (by omega)]
  have len : headerLen (b ++ more) = headerLen b := by
    rw [headerLen, headerLen, word, word, drop_append_of_le_length (by omega),
      take_append_of_le_length (by rw [length_drop]; omega)]
  rw [messages, if_neg (by rw [length_append]; omega), op, len, drop_append_of_le_length long]
  cases hk : requestSize (headerOp b) with
  | some size => simp [left, hs size hk]
  | none => rfl

theorem left_request {op size : Nat} (ha : size ≤ b.length) :
    left (.request op size) (b ++ more) = (op, b.take size) :: messages (b.drop size ++ more) := by
  rw [left, if_neg (by rw [length_append]; omega), take_append_of_le_length ha,
    drop_append_of_le_length ha]

theorem left_drain {rem r : Nat} (part : r ≤ rem) (ht : r ≤ b.length) :
    left (.drain rem) (b ++ more) = left (.drain (rem - r)) (b.drop r ++ more) := by
  have hs : (b.drop r ++ more).length < rem - r ↔ (b ++ more).length < rem := by
    simp only [length_append, length_drop]
    omega
  rw [left, left, ← drop_append_of_le_length ht, drop_drop, Nat.add_sub_cancel' part,
    drop_append_of_le_length ht]
  exact if_congr hs.symm rfl rfl

theorem framed_readHeader (hf : Framed s) (header : s.phase = .header) (long : 8 ≤ s.sock.length)
    (hs : ∀ size ∈ requestSize (headerOp s.sock), headerLen s.sock = size) :
    Framed (readHeader s) := by
  have eq := hf.same
  simp only [header, left, messages_header long hs] at eq
  unfold readHeader
  rw [if_neg (by simp; omega)]
  cases hk : requestSize (headerOp s.sock) with
  | some size =>
    simp only [hk] at eq
    exact ⟨eq, hf.served⟩
  | none =>
    simp only [hk] at eq
    dsimp only
    split_ifs with none
    · refine ⟨fun more => ?_, hf.served⟩
      rw [eq, none, header]
      simp [left]
    · exact ⟨eq, hf.served⟩

theorem framed_read (hf : Framed s) (ha : Arrived s.phase s.sock) : Framed (lumenServerRead s) := by
  have eq := hf.same
  unfold lumenServerRead
  split
  · next header =>
    rw [header] at ha
    split_ifs with none closed
    · exact ⟨eq, fun _ => closed⟩
    · exact hf
    · obtain ⟨long, hs⟩ := ha.resolve_left none
      exact framed_readHeader hf header long hs
  · next op size request =>
    rw [request] at ha eq
    rw [if_neg (by simp [Nat.min_eq_left ha])]
    refine ⟨fun more => ?_, hf.served⟩
    rw [eq, left_request ha]
    simp [left]
  · next rem drain =>
    rw [drain] at ha eq
    rw [if_neg ha]
    refine ⟨fun more => ?_, hf.served⟩
    have part : min (min rem 256) s.sock.length ≤ rem := by omega
    rw [eq, left_drain part (Nat.min_le_right _ _)]
    dsimp only
    split_ifs with all
    · rw [← all, Nat.sub_self]
      simp [left]
    · rfl

theorem framed_step (hf : Framed s) (hw : Whole s event) (ht : step s event = some t) :
    Framed t := by
  cases event with
  | send bytes =>
    obtain ⟨-, ⟨⟩⟩ := Option.ite_none_left_eq_some.mp ht
    exact ⟨fun more => by simpa using hf.same (bytes ++ more), hf.served⟩
  | close =>
    cases ht
    exact ⟨hf.same, fun _ => rfl⟩
  | read =>
    obtain ⟨-, ⟨⟩⟩ := Option.ite_none_right_eq_some.mp ht
    exact framed_read hf (hw rfl)

/-- What was dispatched and what is left of the bytes that arrived are the messages of the stream,
however it was cut. -/
theorem frames_of_stream {events : List Event} (run : RunWhere step Whole fresh events s) :
    messages s.sent = s.log ++ left s.phase s.sock ∧ (s.serving = false → s.closed = true) := by
  have start : Framed fresh := ⟨fun _ => rfl, nofun⟩
  have framed : Framed s := run.invariant start fun _ _ _ => framed_step
  exact ⟨by simpa using framed.same [], framed.served⟩

theorem frames_of_stream_damage :
    ∃ s, RunWhere step Whole fresh [.send [2, 0, 0, 0, 4, 0, 0, 0], .read, .send [7, 0, 0, 0, 9],
        .read, .send [0, 0, 0, 1, 0, 0, 0, 5], .read, .read, .read] s ∧
      (messages s.sent = s.log ++ left s.phase s.sock ∧ (s.serving = false → s.closed = true)) ∧
      s.log = [(2, [7, 0, 0, 0])] ∧ s.phase = .header ∧ s.sock = [] :=
  exists_runWhere_with (fun _ => frames_of_stream)

/-- The client is cut off when half a header has arrived. A damage message that declares 16 bytes
is not refused: the rest of its payload is taken for a message that destroys a window. -/
theorem frames_depend_on_cuts :
    (∃ s, Run step fresh [.send [2, 0, 0, 0], .read] s ∧ s.serving = false ∧ s.closed = false) ∧
      ∃ s, Run step fresh [.send [2, 0, 0, 0, 16, 0, 0, 0, 7, 0, 0, 0, 4, 0, 0, 0, 4, 0, 0, 0,
          1, 0, 0, 0], .read, .read, .read, .read] s ∧
        s.log = [(2, [7, 0, 0, 0]), (4, [1, 0, 0, 0])] ∧ s.serving = true :=
  ⟨exists_run, exists_run⟩

end Aegis.LumenFrames
