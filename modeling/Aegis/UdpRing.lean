import Aegis.Udp

/-! The receive ring of a UDP socket, one memory access at a time. `udp_rx` runs under
`udp_lock`: it fills the slot at the tail and then moves the tail. The UDP branch of
`sys_recvfrom` takes no lock: it moves the head first and reads the slot afterwards. What keeps
the slot is that the ring is full at seven, so that the slot just behind the head stays free
until the head moves again (`Inv.room`). -/

namespace Aegis.UdpRing

open LabelledRun Function List Udp

/-- What a slot holds: the bytes of `data`, and its other fields. -/
inductive Cell where
  | data (j : Nat)
  | len
  | srcIp
  | srcPort
  deriving DecidableEq

def payloadLen (d : Datagram) : Nat := min d.payload.length udpRxMaxbuf

def valueOf (d : Datagram) : Cell → Nat
  | .data j => d.payload.getD j 0
  | .len => payloadLen d
  | .srcIp => d.addr
  | .srcPort => d.srcPort

def written (d : Datagram) : List Cell :=
  (range (payloadLen d)).map .data ++ [.len, .srcIp, .srcPort]

/-- The cells `sys_recvfrom` reads after `slot->len`, in its order: `copy_len` bytes, with the
caller's length cast to 32 bits, and the source. -/
def wanted (slotLen len : Nat) : List Cell :=
  (range (min slotLen (len % 2 ^ 32))).map .data ++ [.srcPort, .srcIp]

inductive Reader where
  | idle
  | found (len : Nat)
  | freed (slot len : Nat)
  | copying (slot len : Nat) (todo : List Cell) (got : List Nat)

/-- A ring with the call at each of its ends. The last three are histories: the datagrams the
tail was moved over, how often the head was moved, and what each finished call with a buffer of
`len` bytes read: the bytes, the source port and the source address. -/
structure Ring where
  head : Nat
  tail : Nat
  slots : Nat → Cell → Nat
  writer : Option (Datagram × List Cell)
  reader : Reader
  accepted : List Datagram
  taken : Nat
  answers : List (Nat × List Nat)

def start (slots : Nat → Cell → Nat) : Ring := ⟨0, 0, slots, none, .idle, [], 0, []⟩

inductive Event where
  | udpRx (d : Datagram)
  | fill
  | recvfrom (len : Nat)
  | copy

def step (s : Ring) : Event → Option Ring
  | .udpRx d =>
    if s.writer.isSome then none
    else if (s.tail + 1) % udpRxSlots = s.head then some s
    else some { s with writer := some (d, written d) }
  | .fill =>
    match s.writer with
    | none => none
    | some (d, c :: todo) => some { s with
        slots := update s.slots s.tail (update (s.slots s.tail) c (valueOf d c))
        writer := some (d, todo) }
    | some (d, []) => some { s with
        tail := (s.tail + 1) % udpRxSlots, writer := none, accepted := s.accepted ++ [d] }
  | .recvfrom len =>
    match s.reader with
    | .idle => some (if s.head = s.tail then s else { s with reader := .found len })
    | _ => none
  | .copy =>
    match s.reader with
    | .idle => none
    | .found len => some { s with
        head := (s.head + 1) % udpRxSlots, reader := .freed s.head len, taken := s.taken + 1 }
    | .freed slot len => some { s with
        reader := .copying slot len (wanted (s.slots slot .len) len) [] }
    | .copying slot len (c :: todo) got => some { s with
        reader := .copying slot len todo (got ++ [s.slots slot c]) }
    | .copying _ len [] got => some { s with
        reader := .idle, answers := s.answers ++ [(len, got)] }

def answer (d : Datagram) (len : Nat) : List Nat := (wanted (payloadLen d) len).map (valueOf d)

/-- The payload cut to the buffer, the source port and the source address. -/
def intact (d : Datagram) (len : Nat) : List Nat := d.payload.take len ++ [d.srcPort, d.addr]

/-- What the buffer could take of the payload fits a slot and the 32-bit length. -/
def Fits (d : Datagram) (len : Nat) : Prop :=
  min d.payload.length len ≤ min udpRxMaxbuf (len % 2 ^ 32)
  deriving Decidable

variable {d : Datagram} {len k : Nat} {c : Cell} {todo : List Cell}

theorem map_data (le : k ≤ d.payload.length) :
    ((range k).map Cell.data).map (valueOf d) = d.payload.take k := by
  refine ext_getElem (by simp [le]) fun i hi _ => ?_
  have hb : i < d.payload.length := by simp at hi; omega
  simp [valueOf, hb]

theorem answer_intact_iff : answer d len = intact d len ↔ Fits d len := by
  have le : min (payloadLen d) (len % 2 ^ 32) ≤ d.payload.length := by
    rw [payloadLen]
    omega
  show map _ (_ ++ _) = _ ++ map (valueOf d) [.srcPort, .srcIp] ↔ _
  rw [map_append, map_data le, append_left_inj, take_eq_take_iff, Fits, payloadLen]
  omega

/-- A slot holds a datagram, but for the cells that are still to be written. -/
def Holds (cells : Cell → Nat) (d : Datagram) (todo : List Cell) : Prop :=
  ∀ c ∈ written d, c ∉ todo → cells c = valueOf d c

theorem Holds.write {cells : Cell → Nat} (h : Holds cells d (c :: todo)) :
    Holds (update cells c (valueOf d c)) d todo := by
  intro other hi hn
  by_cases eq : other = c
  · rw [eq, update_self]
  · rw [update_of_ne eq]
    exact h other hi (by simp [eq, hn])

theorem wanted_subset : wanted (payloadLen d) len ⊆ written d := by
  intro c h
  simp only [wanted, written, mem_append, mem_map, mem_range] at h ⊢
  rcases h with ⟨j, hi, rfl⟩ | h
  · exact .inl ⟨j, by omega, rfl⟩
  · exact .inr (by grind)

/-- Where the reader can be after `returned` answers. -/
def Reading (accepted : List Datagram) (returned taken : Nat) : Reader → Prop
  | .idle => taken = returned ∧ returned ≤ accepted.length
  | .found _ => taken = returned ∧ returned < accepted.length
  | .freed slot _ => taken = returned + 1 ∧ slot = returned % udpRxSlots ∧
      returned < accepted.length
  | .copying slot len todo got => taken = returned + 1 ∧ slot = returned % udpRxSlots ∧
      ∃ d, accepted[returned]? = some d ∧ todo ⊆ written d ∧
        got ++ todo.map (valueOf d) = answer d len

structure Inv (s : Ring) : Prop where
  head : s.head = s.taken % udpRxSlots
  tail : s.tail = s.accepted.length % udpRxSlots
  room : s.accepted.length + s.writer.toList.length ≤ s.taken + 7
  filled : ∀ d todo, s.writer = some (d, todo) → Holds (s.slots s.tail) d todo
  stored : ∀ k d, s.answers.length ≤ k → s.accepted[k]? = some d →
    Holds (s.slots (k % udpRxSlots)) d []
  reading : Reading s.accepted s.answers.length s.taken s.reader
  returned : ∀ (k len : Nat) got, s.answers[k]? = some (len, got) →
    ∃ d, s.accepted[k]? = some d ∧ got = answer d len

section

variable {accepted : List Datagram} {returned taken : Nat} {reader : Reader}
  (h : Reading accepted returned taken reader)
include h

theorem Reading.bounds : taken ≤ accepted.length ∧ taken ≤ returned + 1 := by
  cases reader <;> grind [Reading]

theorem Reading.accept : Reading (accepted ++ [d]) returned taken reader := by
  cases reader <;> grind [Reading]

end

theorem Inv.start (slots : Nat → Cell → Nat) : Inv (start slots) := by
  constructor <;> simp [UdpRing.start, Reading]

variable {s t : Ring} (h : Inv s)
include h

theorem Inv.udpRx (hs : step s (.udpRx d) = some t) : Inv t := by
  have room := h.room
  rw [step] at hs
  split_ifs at hs with busy full <;> cases hs
  · exact h
  rw [h.head, h.tail, udpRxSlots] at full
  refine ⟨h.head, h.tail, ?_, ?_, h.stored, h.reading, h.returned⟩
  · simp only [Option.toList_some, length_singleton]
    omega
  · rintro _ _ ⟨⟩ c hi hn
    exact absurd hi hn

theorem Inv.fill (steps : step s .fill = some t) : Inv t := by
  have room := h.room
  rw [step] at steps
  split at steps <;> cases steps
  next d c todo filling =>
    rw [filling] at room
    refine ⟨h.head, h.tail, room, ?_, ?_, h.reading, h.returned⟩
    · rintro _ _ ⟨⟩
      simpa using (h.filled d _ filling).write
    intro k other since found
    -- the slot being filled is not one that may still be read
    have apart : k % udpRxSlots ≠ s.tail := by
      have inside : k < s.accepted.length := (List.getElem?_eq_some_iff.mp found).1
      have behind := h.reading.bounds
      rw [h.tail, udpRxSlots]
      simp only [Option.toList_some, length_singleton] at room since
      omega
    simpa [apart] using h.stored k other since found
  next d filling =>
    rw [filling] at room
    refine ⟨h.head, ?_, ?_, nofun, ?_, h.reading.accept, ?_⟩
    · simp [h.tail, udpRxSlots]
    · rw [length_append]
      exact room
    · intro k other since found
      rw [getElem?_append] at found
      split at found
      next => exact h.stored k other since found
      next beyond =>
        obtain ⟨rfl, rfl⟩ : k = s.accepted.length ∧ other = d := by grind
        exact h.tail ▸ h.filled other [] filling
    · intro k len got isAnswer
      obtain ⟨first, found, same⟩ := h.returned k len got isAnswer
      exact ⟨first, by grind, same⟩

theorem Inv.copy (steps : step s .copy = some t) : Inv t := by
  have reading := h.reading
  have held := h.stored s.answers.length
  rw [step] at steps
  split at steps <;> cases steps
  next len found =>
    rw [found] at reading
    refine ⟨?_, h.tail, ?_, h.filled, h.stored, ?_, h.returned⟩
    · simp [h.head, udpRxSlots]
    · exact Nat.le_succ_of_le h.room
    · exact ⟨by rw [reading.1], by rw [h.head, reading.1], reading.2⟩
  next slot len freed =>
    rw [freed] at reading
    obtain ⟨moved, same, inside⟩ := reading
    have oldest := getElem?_eq_getElem inside
    have size := held _ Nat.le.refl oldest .len (by simp [written]) not_mem_nil
    refine ⟨h.head, h.tail, h.room, h.filled, h.stored, ⟨moved, same, _, oldest, ?_⟩, h.returned⟩
    rw [same, size]
    exact ⟨wanted_subset, rfl⟩
  next slot len c todo got copying =>
    rw [copying] at reading
    obtain ⟨moved, same, d, oldest, sub, rest⟩ := reading
    obtain ⟨isWritten, sub⟩ := cons_subset.mp sub
    have value := held d Nat.le.refl oldest c isWritten not_mem_nil
    refine ⟨h.head, h.tail, h.room, h.filled, h.stored, ⟨moved, same, d, oldest, sub, ?_⟩,
      h.returned⟩
    rw [same, value, append_assoc]
    exact rest
  next slot len got copying =>
    rw [copying] at reading
    obtain ⟨moved, same, d, oldest, _, rest⟩ := reading
    refine ⟨h.head, h.tail, h.room, h.filled, ?_, ?_, ?_⟩
    · exact fun k other since => h.stored k other (by simp at since; omega)
    · rw [length_append]
      exact ⟨moved, (List.getElem?_eq_some_iff.mp oldest).1⟩
    intro k size bytes isAnswer
    rw [getElem?_append] at isAnswer
    split at isAnswer
    next => exact h.returned k size bytes isAnswer
    next beyond =>
      obtain ⟨rfl, rfl, rfl⟩ : k = s.answers.length ∧ size = len ∧ bytes = got := by grind
      exact ⟨d, oldest, by simpa using rest⟩

theorem Inv.step {e : Event} (hs : step s e = some t) : Inv t := by
  cases e with
  | udpRx d => exact h.udpRx hs
  | fill => exact h.fill hs
  | copy => exact h.copy hs
  | recvfrom len =>
    rw [UdpRing.step] at hs
    split at hs <;> cases hs
    next idle =>
      split_ifs with isEmpty
      · exact h
      have hr := h.reading
      rw [idle] at hr
      refine ⟨h.head, h.tail, h.room, h.filled, h.stored, ⟨hr.1, ?_⟩, h.returned⟩
      refine Nat.lt_of_le_of_ne hr.2 fun eq => isEmpty ?_
      rw [h.head, h.tail, hr.1, eq]

omit h

/-- For one reader and one writer at a time, whatever the order of their accesses: the answers
are the accepted datagrams in their order, and the ring drops one only with seven queued. -/
theorem recvfrom_delivers {slots : Nat → Cell → Nat} {events : List Event}
    (run : Run step (start slots) events s) :
    (∀ (k len : Nat) got, s.answers[k]? = some (len, got) →
      ∃ d, s.accepted[k]? = some d ∧ (got = intact d len ↔ Fits d len)) ∧
    ∀ d, step s (.udpRx d) = some s → s.accepted.length = s.taken + 7 := by
  have inv : Inv s := RunWhere.invariant run (.start slots) fun _ _ _ h _ => h.step
  refine ⟨?_, fun d hd => ?_⟩
  · intro k len got hi
    obtain ⟨d, hf, rfl⟩ := inv.returned k len got hi
    exact ⟨d, hf, answer_intact_iff⟩
  · have full : (s.tail + 1) % udpRxSlots = s.head := by
      grind [step]
    have hb := inv.reading.bounds
    have room := inv.room
    rw [inv.head, inv.tail, udpRxSlots] at full
    omega

def query : Datagram := ⟨10, 53, 68, [7]⟩

/-- A datagram of one byte is received into a buffer of `len` bytes; its slot is read while the
next one is filled. -/
def overlapped (len : Nat) : List Event :=
  .udpRx query :: replicate 5 .fill ++ [.recvfrom len, .copy, .udpRx query] ++
    (replicate 4 [.fill, .copy]).flatten

theorem recvfrom_delivers_overlapped :
    ∃ s, Run step (start fun _ _ => 0) (overlapped 4 ++ [.copy]) s ∧
      s.answers = [(4, intact query 4)] ∧ Fits query 4 ∧
      ∀ d, step s (.udpRx d) = some s → s.accepted.length = s.taken + 7 :=
  exists_run_of (fun s => s.answers = [(4, intact query 4)])
    fun _ run hd => ⟨hd, by decide, (recvfrom_delivers run).2⟩

/-- A length of 2^32 is accepted and cast to 0: the datagram is consumed and its byte is lost. -/
theorem recvfrom_long_buffer : ∃ s, Run step (start fun _ _ => 0) (overlapped (2 ^ 32)) s ∧
    s.accepted[0]? = some query ∧ s.answers = [(2 ^ 32, [53, 10])] ∧
    [53, 10] ≠ intact query (2 ^ 32) :=
  exists_run

end Aegis.UdpRing
