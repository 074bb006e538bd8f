import Aegis.LabelledRun
import Aegis.RingBuffer
import Aegis.Tcp

/-! The receive buffer of an established connection. `rbuf_tail` runs freely and `rbuf_head` wraps
around at the size of the buffer, so a buffer that is filled to the last byte looks empty. -/

namespace Aegis.Tcp

open LabelledRun RingBuffer List Nat TcpConn
open ByteLayout (Byte)

structure Stream where
  conn : TcpConn
  delivered : List Byte
  received : Nat

/-- A data segment is named by its position in the peer's stream. -/
inductive StreamEvent
  | segment (now pos len : Nat) (flags : Flags) (ack window : Nat)
  | recv (maxLen : Nat)

def peerBytes (peer : Nat → Byte) (pos n : Nat) : List Byte :=
  (List.range n).map fun i => peer (pos + i)

def dataSegment (peer : Nat → Byte) (isn : Nat) (c : TcpConn) (pos len : Nat) (flags : Flags)
    (ack window : Nat) : Segment where
  srcIp := c.remoteIp
  dstIp := c.localIp
  srcPort := c.remotePort
  dstPort := c.localPort
  seq := (isn + pos) % 2 ^ 32
  ack := ack
  flags := flags
  window := window
  payload := peerBytes peer pos len

def streamStep (peer : Nat → Byte) (isn : Nat) (s : Stream) : StreamEvent → Option Stream
  | .segment now pos len flags ack window =>
    if flags.fin || flags.rst then none
    else
      let c := (s.conn.rx now (dataSegment peer isn s.conn pos len flags ack window)).conn
      some { s with conn := c, received := s.received + seqSub c.rcvNxt s.conn.rcvNxt }
  | .recv maxLen =>
    let r := s.conn.recv maxLen
    some { s with conn := r.2.2, delivered := s.delivered ++ r.2.1 }

/-- The bytes still in the buffer, as `tcp_conn_recv` counts them. -/
def TcpConn.buffered (c : TcpConn) : List Byte := stored rbufSize c.rbuf c.rbufHead c.used

/-- The delivered bytes followed by the buffered ones are the peer's bytes up to `rcv_nxt`, and a
call takes the next ones. -/
structure Delivers (peer : Nat → Byte) (isn : Nat) (s : Stream) : Prop where
  next : s.conn.rcvNxt = (isn + s.received) % 2 ^ 32
  bytes : s.delivered ++ s.conn.buffered = peerBytes peer 0 s.received
  takes : ∀ maxLen, 0 < maxLen → (s.conn.recv maxLen).2.1 = s.conn.buffered.take maxLen

/-- The segment with the expected number has the expected position, and it does not fill the
buffer to the last byte. -/
def LeavesRoom (s : Stream) : StreamEvent → Prop
  | .segment _ pos len _ _ _ =>
    (pos % 2 ^ 32 = s.received % 2 ^ 32 → pos = s.received) ∧
      (pos = s.received → len ≠ s.conn.space)
  | .recv _ => True

instance (s : Stream) (event : StreamEvent) : Decidable (LeavesRoom s event) := by
  rcases event <;> (dsimp only [LeavesRoom]; infer_instance)

section
variable {c : TcpConn} {n : Nat}

structure TcpConn.InRing (c : TcpConn) : Prop where
  head : c.rbufHead < rbufSize
  tail : c.rbufTail < 2 ^ 32

theorem TcpConn.InRing.tail_eq (ring : c.InRing) :
    c.rbufTail % rbufSize = (c.rbufHead + c.used) % rbufSize := by
  have head := ring.head
  have tail := ring.tail
  unfold used seqSub rbufSize at *
  omega

theorem used_lt (c : TcpConn) : c.used < rbufSize := mod_lt _ (by decide)

theorem storeByte_ring (ring : c.InRing) (room : c.used + 1 < rbufSize) (b : Byte) :
    (c.storeByte b).InRing ∧ (c.storeByte b).used = c.used + 1 ∧
      (c.storeByte b).buffered = c.buffered ++ [b] := by
  have hp := ring.tail_eq
  have count : (c.storeByte b).used = c.used + 1 := by
    have head := ring.head
    have tail := ring.tail
    simp only [used, storeByte, seqSub, rbufSize] at *
    omega
  refine ⟨⟨ring.head, mod_lt _ (by decide)⟩, count, ?_⟩
  rw [buffered, count]
  change stored _ (Function.update c.rbuf (c.rbufTail % rbufSize) b) c.rbufHead _ = _
  rw [hp, stored_update _ (by omega)]
  rfl

theorem storePayload_ring (ring : c.InRing) (payload : List Byte)
    (room : c.used + payload.length < rbufSize) :
    (c.storePayload payload).InRing ∧ (c.storePayload payload).used = c.used + payload.length ∧
      (c.storePayload payload).buffered = c.buffered ++ payload := by
  induction payload generalizing c with
  | nil => exact ⟨ring, (Nat.add_zero _).symm, (append_nil _).symm⟩
  | cons b rest ih =>
    rw [length_cons] at room
    obtain ⟨ring', count, bytes⟩ := storeByte_ring ring (by omega) b
    obtain ⟨ringAll, countAll, bytesAll⟩ := ih ring' (by omega)
    refine ⟨ringAll, ?_, ?_⟩
    · rw [length_cons, storePayload, foldl_cons]
      exact countAll.trans (by omega)
    · rw [storePayload, foldl_cons]
      exact bytesAll.trans (by rw [bytes, append_assoc, singleton_append])

theorem storePayload_tail (payload : List Byte) (hi : c.rbufTail < 2 ^ 32) :
    (c.storePayload payload).rbufTail = (c.rbufTail + payload.length) % 2 ^ 32 := by
  induction payload generalizing c with
  | nil => exact (mod_eq_of_lt hi).symm
  | cons b rest ih =>
    have next : (c.storeByte b).rbufTail < 2 ^ 32 := mod_lt _ (by decide)
    refine (ih next).trans ?_
    rw [storeByte, mod_add_mod, length_cons, Nat.add_assoc, Nat.add_comm 1]

theorem storePayload_fields (payload : List Byte) :
    ∃ rbuf tail, c.storePayload payload = { c with rbuf := rbuf, rbufTail := tail } := by
  induction payload generalizing c with
  | nil => exact ⟨c.rbuf, c.rbufTail, rfl⟩
  | cons b rest ih =>
    obtain ⟨rbuf, tail, hs⟩ := @ih (c.storeByte b)
    exact ⟨rbuf, tail, hs⟩

theorem takeBytes_eq (inside : c.rbufHead < rbufSize) :
    c.takeBytes n = (stored rbufSize c.rbuf c.rbufHead n,
      { c with rbufHead := (c.rbufHead + n) % rbufSize }) := by
  induction n generalizing c with
  | zero => simp [takeBytes, stored, mod_eq_of_lt inside]
  | succ n ih =>
    have next : (c.rbufHead + 1) % rbufSize < rbufSize := mod_lt _ (by decide)
    rw [takeBytes, ih next, Nat.add_comm n 1, stored_split]
    simp only [mod_add_mod, Nat.add_assoc]
    simp [stored, mod_eq_of_lt inside]

theorem recv_eq (ring : c.InRing) : ∃ k ≤ c.used, (0 < n → k = min c.used n) ∧
      (c.recv n).2.1 = stored rbufSize c.rbuf c.rbufHead k ∧
      (c.recv n).2.2 = { c with rbufHead := (c.rbufHead + k) % rbufSize } := by
  have head := ring.head
  have tail := ring.tail
  have avail : c.avail = c.used := by
    unfold avail used seqSub rbufSize at *
    omega
  have hs : ({ c with rbufHead := (c.rbufHead + 0) % rbufSize } : TcpConn) = c := by
    rw [Nat.add_zero, mod_eq_of_lt head]
  rw [recv, avail]
  by_cases he : c.used = 0
  · rw [if_pos he]
    exact ⟨0, Nat.zero_le _, fun _ => by omega, rfl, hs.symm⟩
  rw [if_neg he]
  by_cases peek : n = 0
  · rw [if_pos peek]
    exact ⟨0, Nat.zero_le _, fun _ => by omega, rfl, hs.symm⟩
  rw [if_neg peek, takeBytes_eq head]
  exact ⟨min c.used n, Nat.min_le_left _ _, fun _ => rfl, rfl, rfl⟩

theorem buffered_split {k : Nat} (fits : k ≤ c.used) :
    c.buffered = stored rbufSize c.rbuf c.rbufHead k ++
      stored rbufSize c.rbuf ((c.rbufHead + k) % rbufSize) (c.used - k) := by
  rw [buffered, ← stored_split, Nat.add_sub_cancel' fits]

structure SameBuffer (c d : TcpConn) : Prop where
  state : d.state = c.state
  rbuf : d.rbuf = c.rbuf
  head : d.rbufHead = c.rbufHead
  tail : d.rbufTail = c.rbufTail
  next : d.rcvNxt = c.rcvNxt

variable {d : TcpConn}

theorem SameBuffer.used (eq : SameBuffer c d) : d.used = c.used := by
  rw [TcpConn.used, TcpConn.used, eq.head, eq.tail]

theorem SameBuffer.buffered (eq : SameBuffer c d) : d.buffered = c.buffered := by
  rw [TcpConn.buffered, TcpConn.buffered, eq.used, eq.rbuf, eq.head]

theorem SameBuffer.ring (eq : SameBuffer c d) (ring : c.InRing) : d.InRing :=
  ⟨eq.head ▸ ring.head, eq.tail ▸ ring.tail⟩

theorem rx_data (now : Nat) (g : Segment) (hr : c.state = .established)
    (fin : g.flags.fin = false) (rst : g.flags.rst = false) :
    ∃ d, SameBuffer c d ∧ (c.Stores g ∧ (c.rx now g).conn =
          { d.storePayload g.payload with rcvNxt := (c.rcvNxt + g.payload.length) % 2 ^ 32 } ∨
        ¬ c.Stores g ∧ (c.rx now g).conn = d) := by
  have eq : SameBuffer c (rxAck { c with sndWnd := g.window } g) := by
    obtain ⟨-, ha⟩ | ⟨-, ha⟩ := rxAck_conn { c with sndWnd := g.window } g <;>
      rw [ha] <;> exact ⟨rfl, rfl, rfl, rfl, rfl⟩
  have hs : (rxAck { c with sndWnd := g.window } g).Stores g ↔ c.Stores g := by
    rw [TcpConn.Stores, TcpConn.Stores, space, space, eq.used, eq.next]
  have hb : c.rx now g = rxData (rxAck { c with sndWnd := g.window } g) g := by
    rw [rx, hr]
    simp [rxEstablished, rxEnd, fin, rst]
  generalize rxAck { c with sndWnd := g.window } g = d at eq hs hb
  refine ⟨d, eq, ?_⟩
  rw [hb, ← hs, ← eq.next]
  exact rxData_conn d g

end

section
variable {peer : Nat → Byte} {isn : Nat} {s t : Stream}

theorem peerBytes_append (m n : Nat) :
    peerBytes peer 0 (m + n) = peerBytes peer 0 m ++ peerBytes peer m n := by
  simp [peerBytes, range_add, Function.comp_def]

structure StreamInv (peer : Nat → Byte) (isn : Nat) (s : Stream) : Prop where
  state : s.conn.state = .established
  ring : s.conn.InRing
  next : s.conn.rcvNxt = (isn + s.received) % 2 ^ 32
  bytes : s.delivered ++ s.conn.buffered = peerBytes peer 0 s.received

section
variable (inv : StreamInv peer isn s)
include inv

theorem StreamInv.delivers : Delivers peer isn s := by
  refine ⟨inv.next, inv.bytes, fun maxLen pos => ?_⟩
  obtain ⟨k, fits, count, bytes, -⟩ := recv_eq (n := maxLen) inv.ring
  rw [bytes, buffered_split fits, take_append]
  rcases le_total s.conn.used maxLen with all | some
  · have hw : k = s.conn.used := (count pos).trans (min_eq_left all)
    rw [take_of_length_le (by rw [length_stored]; omega), hw, Nat.sub_self]
    simp [stored]
  · have part : k = maxLen := (count pos).trans (min_eq_right some)
    rw [part, take_of_length_le (by rw [length_stored]), length_stored, Nat.sub_self,
      take_zero, append_nil]

theorem StreamInv.recv (maxLen : Nat) : StreamInv peer isn { s with
      conn := (s.conn.recv maxLen).2.2, delivered := s.delivered ++ (s.conn.recv maxLen).2.1 } := by
  obtain ⟨k, fits, -, bytes, conn⟩ := recv_eq (n := maxLen) inv.ring
  have head := inv.ring.head
  have tail := inv.ring.tail
  have used : ({ s.conn with rbufHead := (s.conn.rbufHead + k) % rbufSize } : TcpConn).used =
      s.conn.used - k := by
    simp only [used, seqSub, rbufSize] at *
    omega
  rw [conn, bytes]
  refine ⟨inv.state, ⟨mod_lt _ (by decide), tail⟩, inv.next, ?_⟩
  rw [← inv.bytes, buffered_split fits, append_assoc, buffered]
  dsimp only
  rw [used]

theorem StreamInv.segment {now pos len ack window : Nat} {flags : Flags} (fin : flags.fin = false)
    (rst : flags.rst = false) (room : LeavesRoom s (.segment now pos len flags ack window))
    {d : TcpConn}
    (conn : d = (s.conn.rx now (dataSegment peer isn s.conn pos len flags ack window)).conn) :
    StreamInv peer isn { s with
      conn := d, received := s.received + seqSub d.rcvNxt s.conn.rcvNxt } := by
  obtain ⟨e, same, result⟩ := rx_data now (dataSegment peer isn s.conn pos len flags ack window)
    inv.state fin rst
  rw [← conn] at result
  have length : (peerBytes peer pos len).length = len := by simp [peerBytes]
  have small : s.conn.rcvNxt < 2 ^ 32 := by
    rw [inv.next]
    exact mod_lt _ (by decide)
  rcases result with ⟨⟨-, expected, fits⟩, result⟩ | ⟨-, result⟩
  swap
  · -- Nothing is stored and nothing is expected that was not before.
    have none : seqSub d.rcvNxt s.conn.rcvNxt = 0 := by
      rw [result, same.next, seqSub]
      omega
    rw [none, Nat.add_zero, result]
    exact ⟨same.state.trans inv.state, same.ring inv.ring, same.next.trans inv.next,
      same.buffered ▸ inv.bytes⟩
  · dsimp only [dataSegment] at expected fits result
    rw [length] at fits
    have here : pos = s.received := by
      apply room.1
      rw [inv.next] at expected
      omega
    have more := room.2 here
    have used := used_lt s.conn
    have space : s.conn.used + len < rbufSize := by
      rw [space] at fits more
      omega
    obtain ⟨ring, count, bytes⟩ := storePayload_ring (same.ring inv.ring)
      (peerBytes peer pos len) (by rw [same.used, length]; exact space)
    obtain ⟨rbuf, tail, fields⟩ := @storePayload_fields e (peerBytes peer pos len)
    have advance : seqSub d.rcvNxt s.conn.rcvNxt = len := by
      have next : d.rcvNxt = (s.conn.rcvNxt + len) % 2 ^ 32 := by
        rw [result]
        exact congrArg (fun n => (s.conn.rcvNxt + n) % 2 ^ 32) length
      rw [next, seqSub]
      rw [rbufSize] at space
      omega
    rw [advance, result]
    refine ⟨?_, ⟨ring.head, ring.tail⟩, ?_, ?_⟩
    · change (e.storePayload (peerBytes peer pos len)).state = _
      rw [fields]
      exact same.state.trans inv.state
    · change (s.conn.rcvNxt + (peerBytes peer pos len).length) % 2 ^ 32 = _
      rw [length, inv.next, mod_add_mod, Nat.add_assoc]
    · change s.delivered ++ (e.storePayload (peerBytes peer pos len)).buffered = _
      rw [bytes, same.buffered, ← append_assoc, inv.bytes, here, peerBytes_append]

theorem StreamInv.step {event : StreamEvent} (room : LeavesRoom s event)
    (hs : streamStep peer isn s event = some t) :
    StreamInv peer isn t := by
  cases event with
  | segment now pos len flags ack window =>
    rw [streamStep] at hs
    split at hs
    · cases hs
    next data =>
    cases hs
    rw [Bool.or_eq_true, not_or, Bool.not_eq_true, Bool.not_eq_true] at data
    exact inv.segment data.1 data.2 room rfl
  | recv maxLen =>
    cases hs
    exact inv.recv maxLen

end

/-- Whatever data segments arrive and whatever is read, as long as the buffer is not filled to the
last byte and no segment is from 4 GiB before or after, the stream is delivered. -/
theorem stream_delivered {c : TcpConn} {events : List StreamEvent} (ready : c.state = .established)
    (empty : c.rbufHead = 0 ∧ c.rbufTail = 0) (number : c.rcvNxt < 2 ^ 32)
    (run : RunWhere (streamStep peer c.rcvNxt) LeavesRoom ⟨c, [], 0⟩ events s) :
    Delivers peer c.rcvNxt s := by
  have start : StreamInv peer c.rcvNxt ⟨c, [], 0⟩ := by
    refine ⟨ready, ⟨?_, ?_⟩, (mod_eq_of_lt number).symm, ?_⟩
    · rw [empty.1]
      decide
    · rw [empty.2]
      decide
    have none : c.used = 0 := by
      rw [TcpConn.used, empty.1, empty.2]
      rfl
    simp [TcpConn.buffered, none, stored, peerBytes]
  exact (run.invariant start fun _ _ _ inv room steps => inv.step room steps).delivers

end

/-- The first `n` bytes of the stream have come and none was read. -/
structure Filled (isn n : Nat) (s : Stream) : Prop where
  state : s.conn.state = .established
  head : s.conn.rbufHead = 0
  tail : s.conn.rbufTail = n
  next : s.conn.rcvNxt = (isn + n) % 2 ^ 32
  received : s.received = n
  delivered : s.delivered = []

section
variable {isn n len : Nat} {s : Stream}

theorem Filled.segment (peer : Nat → Byte) (filled : Filled isn n s) (data : 0 < len)
    (fits : n + len ≤ rbufSize) :
    ∃ t, streamStep peer isn s (.segment 0 n len ackOnly 0 0) = some t ∧
      Filled isn (n + len) t := by
  have length : (peerBytes peer n len).length = len := by simp [peerBytes]
  have space : s.conn.space = rbufSize - n := by
    rw [space, used, filled.head, filled.tail, seqSub]
    rw [rbufSize] at *
    omega
  obtain ⟨e, same, ⟨-, conn⟩ | ⟨refused, -⟩⟩ := rx_data 0
    (dataSegment peer isn s.conn n len ackOnly 0 0) filled.state rfl rfl
  swap
  · refine absurd ⟨fun none => ?_, filled.next.symm, ?_⟩ refused
    · exact absurd (length.symm.trans (congrArg List.length none)) (Nat.ne_of_gt data)
    · rw [space]
      exact le_trans (le_of_eq length) (by omega)
  obtain ⟨rbuf, tail, fields⟩ := @storePayload_fields e (peerBytes peer n len)
  have advance : seqSub ((s.conn.rcvNxt + len) % 2 ^ 32) s.conn.rcvNxt = len := by
    rw [filled.next, seqSub]
    rw [rbufSize] at fits
    omega
  have tailSmall : e.rbufTail < 2 ^ 32 := by
    rw [same.tail, filled.tail]
    rw [rbufSize] at fits
    omega
  refine ⟨_, rfl, ?_⟩
  rw [conn]
  constructor
  · change (e.storePayload (peerBytes peer n len)).state = _
    rw [fields]
    exact same.state.trans filled.state
  · change (e.storePayload (peerBytes peer n len)).rbufHead = _
    rw [fields]
    exact same.head.trans filled.head
  · change (e.storePayload (peerBytes peer n len)).rbufTail = _
    rw [storePayload_tail _ tailSmall, same.tail, filled.tail, length]
    rw [rbufSize] at fits
    omega
  · change (s.conn.rcvNxt + (peerBytes peer n len).length) % 2 ^ 32 = _
    rw [length, filled.next, mod_add_mod, Nat.add_assoc]
  · change s.received + seqSub ((s.conn.rcvNxt + (peerBytes peer n len).length) % 2 ^ 32) _ = _
    rw [length, advance, filled.received]
  · exact filled.delivered

def segments : Nat → List Nat → List StreamEvent
  | _, [] => []
  | n, len :: rest => .segment 0 n len ackOnly 0 0 :: segments (n + len) rest

theorem Filled.segments (peer : Nat → Byte) {lens : List Nat} (filled : Filled isn n s)
    (data : ∀ len ∈ lens, 0 < len) (fits : n + lens.sum ≤ rbufSize) :
    ∃ t, Run (streamStep peer isn) s (segments n lens) t ∧ Filled isn (n + lens.sum) t := by
  induction lens generalizing n s with
  | nil => exact ⟨s, .nil, filled⟩
  | cons len rest ih =>
    rw [sum_cons, ← Nat.add_assoc] at fits ⊢
    obtain ⟨mid, step, more⟩ := filled.segment peer (data len mem_cons_self) (by omega)
    obtain ⟨t, run, all⟩ := ih more (fun k mem => data k (mem_cons_of_mem _ mem)) fits
    exact ⟨t, .head trivial step run, all⟩

/-- A buffer filled to the last byte counts as empty: a call finds no data. -/
theorem Filled.lost (filled : Filled isn rbufSize s) :
    (s.conn.recv 1).1 = -11 ∧ s.conn.buffered = [] := by
  constructor
  · rw [TcpConn.recv, TcpConn.avail, filled.head, filled.tail, filled.state]
    rfl
  · rw [TcpConn.buffered, TcpConn.used, filled.head, filled.tail]
    rfl

end

def openConn : TcpConn := { zeroConn with state := .established, rcvNxt := 1000 }

def countingPeer (i : Nat) : Byte := BitVec.ofNat 8 i

theorem stream_delivered_dup : ∃ s, Delivers countingPeer openConn.rcvNxt s ∧ s.delivered = [0, 1] ∧
      s.conn.buffered = [2, 3] := by
  have passes : (exec (guarded (streamStep countingPeer openConn.rcvNxt) LeavesRoom)
      ⟨openConn, [], 0⟩ [.segment 0 0 3 ackOnly 0 0, .recv 2, .segment 0 1 2 ackOnly 0 0,
        .segment 0 3 1 ackOnly 0 0]).any
      (fun s => s.delivered == [0, 1] && s.conn.buffered == [2, 3]) = true := by
    decide +kernel
  obtain ⟨s, ends, facts⟩ := (Option.any_eq_true ..).mp passes
  rw [Bool.and_eq_true_iff] at facts
  have run := runWhere_of_exec ends
  have empty : openConn.rbufHead = 0 ∧ openConn.rbufTail = 0 := ⟨rfl, rfl⟩
  have number : openConn.rcvNxt < 2 ^ 32 := by decide
  exact ⟨s, stream_delivered rfl empty number run, eq_of_beq facts.1, eq_of_beq facts.2⟩

/-- Eleven full Ethernet segments and one that just fits. -/
def fillingSegments : List StreamEvent := segments 0 (replicate 11 1460 ++ [324])

/-- All segments are stored and acknowledged, and the buffer is empty again: the bytes are never
delivered. -/
theorem full_buffer_lost :
    ∃ s, Run (streamStep countingPeer openConn.rcvNxt) ⟨openConn, [], 0⟩ fillingSegments s ∧
      s.received = rbufSize ∧ s.delivered = [] ∧ (s.conn.recv 1).1 = -11 ∧
      ¬ Delivers countingPeer openConn.rcvNxt s := by
  have start : Filled openConn.rcvNxt 0 ⟨openConn, [], 0⟩ := ⟨rfl, rfl, rfl, rfl, rfl, rfl⟩
  have whole : 0 + (replicate 11 1460 ++ [324]).sum = rbufSize := by decide
  obtain ⟨s, run, filled⟩ := start.segments countingPeer (by decide) (le_of_eq whole)
  rw [whole] at filled
  refine ⟨s, run, filled.received, filled.delivered, filled.lost.1, fun delivers => ?_⟩
  have lengths := congrArg List.length delivers.bytes
  rw [filled.lost.2, filled.delivered, filled.received, peerBytes, length_map, length_range]
    at lengths
  exact absurd lengths (by decide)

end Aegis.Tcp
