import Aegis.LabelledRun
import Aegis.Tcp

/-! One slot of the connection table over its whole life: everything that can happen to it, in any
order. `tcp_connect` releases its lock before it sends the SYN, so the SYN is counted in a step of
its own. -/

namespace Aegis.Tcp

open LabelledRun Nat TcpConn
open ByteLayout (Byte)

def Segment.Wire (g : Segment) : Prop := g.seq < 2 ^ 32 ∧ g.ack < 2 ^ 32
  deriving Decidable

/-- The connection and the calls of `tcp_connect` that have not counted their SYN. History: the
number of the first SYN and the SYNs that the timer sent again. -/
structure TcpSlot where
  conn : TcpConn
  connecting : Nat
  isn : Nat
  resent : List Sent

def zeroSlot : TcpSlot := ⟨zeroConn, 0, 0, []⟩

inductive TcpEvent
  | listen (port sockId : Nat)
  | syn (now : Nat) (g : Segment) (listenerId : Nat)
  | connect (now myIp sockId dstIp dstPort : Nat)
  | counted (now : Nat)
  | rx (now : Nat) (g : Segment)
  | tick (now : Nat)
  | send (data : List Byte) (sends : Bool)
  | close
  | recv (maxLen : Nat)
  | setSock (sockId : Nat)

def slotStep (s : TcpSlot) : TcpEvent → Option TcpSlot
  | .listen port sockId =>
    if s.conn.state = .closed then some { s with conn := listenConn port sockId } else none
  | .syn now g listenerId =>
    if s.conn.state = .closed ∧ g.Wire then
      some { s with
        conn := (passiveOpen now g listenerId).1, isn := now % 2 ^ 32, resent := [] }
    else none
  | .connect now myIp sockId dstIp dstPort =>
    if s.conn.state = .closed then
      some { s with
        conn := connectConn now myIp sockId dstIp dstPort
        connecting := s.connecting + 1
        isn := now % 2 ^ 32
        resent := [] }
    else none
  | .counted now =>
    if s.connecting = 0 then none
    else some { s with conn := s.conn.countSyn now, connecting := s.connecting - 1 }
  | .rx now g =>
    if s.conn.state ≠ .closed ∧ g.Wire then some { s with conn := (s.conn.rx now g).conn }
    else none
  | .tick now =>
    some { s with
      conn := (s.conn.tick now).conn
      resent := s.resent ++ (s.conn.tick now).sent.filter fun r => r.flags.syn }
  | .send data sends => some { s with conn := (s.conn.send data sends).2.1 }
  | .close => some { s with conn := s.conn.close.1 }
  | .recv maxLen => some { s with conn := (s.conn.recv maxLen).2.2 }
  | .setSock sockId => some { s with conn := { s.conn with sockId := sockId } }

theorem conn_of_some {s t : TcpSlot} {c : TcpConn} (hs : some { s with conn := c } = some t) :
    t.conn = c := by
  rw [← Option.some.inj hs]

/-! ### What the steps do to the numbers -/

structure TcpConn.Numbers (c : TcpConn) : Prop where
  nxt : c.sndNxt < 2 ^ 32
  una : c.sndUna < 2 ^ 32
  rcv : c.rcvNxt < 2 ^ 32

structure SameNumbers (c d : TcpConn) : Prop where
  state : d.state = c.state
  nxt : d.sndNxt = c.sndNxt
  una : d.sndUna = c.sndUna
  rcv : d.rcvNxt = c.rcvNxt
  timer : d.retransmitAt = c.retransmitAt
  count : d.retransmitCount = c.retransmitCount

structure SameEnds (c d : TcpConn) : Prop where
  localIp : d.localIp = c.localIp
  remoteIp : d.remoteIp = c.remoteIp
  localPort : d.localPort = c.localPort
  remotePort : d.remotePort = c.remotePort
  sockId : d.sockId = c.sockId

theorem SameEnds.refl (c : TcpConn) : SameEnds c c := ⟨rfl, rfl, rfl, rfl, rfl⟩

theorem SameEnds.trans {c d e : TcpConn} (h1 : SameEnds c d) (h2 : SameEnds d e) : SameEnds c e :=
  ⟨h2.localIp.trans h1.localIp, h2.remoteIp.trans h1.remoteIp,
    h2.localPort.trans h1.localPort, h2.remotePort.trans h1.remotePort,
    h2.sockId.trans h1.sockId⟩

section
variable (c : TcpConn)

theorem SameNumbers.refl : SameNumbers c c := ⟨rfl, rfl, rfl, rfl, rfl, rfl⟩

theorem takeBytes_same (n : Nat) : SameNumbers c (c.takeBytes n).2 := by
  induction n generalizing c with
  | zero => exact .refl c
  | succ n ih =>
    obtain ⟨state, nxt, una, rcv, timer, count⟩ :=
      ih { c with rbufHead := (c.rbufHead + 1) % rbufSize }
    exact ⟨state, nxt, una, rcv, timer, count⟩

theorem recv_same (maxLen : Nat) : SameNumbers c (c.recv maxLen).2.2 := by
  rw [recv]
  by_cases he : c.avail = 0
  · rw [if_pos he]
    exact .refl c
  rw [if_neg he]
  by_cases peek : maxLen = 0
  · rw [if_pos peek]
    exact .refl c
  rw [if_neg peek]
  exact takeBytes_same c _

theorem storePayload_ends (payload : List Byte) :
    SameEnds c (c.storePayload payload) := by
  induction payload generalizing c with
  | nil => exact .refl c
  | cons b rest ih =>
    obtain ⟨hc, hm, hl, hr, sockId⟩ := ih (c.storeByte b)
    exact ⟨hc, hm, hl, hr, sockId⟩

theorem storePayload_same (payload : List Byte) :
    SameNumbers c (c.storePayload payload) := by
  induction payload generalizing c with
  | nil => exact .refl c
  | cons b rest ih =>
    obtain ⟨state, nxt, una, rcv, timer, count⟩ := ih (c.storeByte b)
    exact ⟨state, nxt, una, rcv, timer, count⟩

def TcpConn.Sends (data : List Byte) (sends : Bool) : Prop :=
  c.state = .established ∧ (c.segment pshAck data).isSome = true ∧ sends = true
  deriving Decidable

theorem send_conn (data : List Byte) (s : Bool) :
    c.Sends data s ∧ (c.send data s).2.1 =
        { c with sndNxt := (c.sndNxt + data.length) % 2 ^ 32 } ∨
      ¬ c.Sends data s ∧ (c.send data s).2.1 = c := by
  rw [send]
  by_cases hr : c.state = .established
  swap
  · rw [if_pos hr]
    exact .inr ⟨fun all => hr all.1, rfl⟩
  rw [if_neg (not_not.mpr hr)]
  cases hs : c.segment pshAck data with
  | none =>
    refine .inr ⟨fun all => ?_, rfl⟩
    have some := all.2.1
    rw [hs] at some
    cases some
  | some r =>
    cases s with
    | true => exact .inl ⟨⟨hr, by rw [hs]; rfl, rfl⟩, rfl⟩
    | false => exact .inr ⟨fun all => Bool.false_ne_true all.2.2, rfl⟩

theorem close_conn : c.state = .established ∧ c.close.1 =
        { c with state := .finWait1, sndNxt := (c.sndNxt + 1) % 2 ^ 32 } ∨
      c.state ≠ .established ∧ c.close.1 = c := by
  rw [close]
  by_cases hr : c.state = .established
  · rw [if_pos hr]
    exact .inl ⟨hr, rfl⟩
  · rw [if_neg hr]
    exact .inr ⟨hr, rfl⟩

end

def TcpConn.fires (now : Nat) (c : TcpConn) : Bool :=
  decide (c.state ≠ .closed ∧ c.state ≠ .timeWait ∧ c.retransmitAt ≠ 0) && due now c.retransmitAt

def TcpConn.rto (c : TcpConn) : Nat := min (rtoInitial * 2 ^ (c.retransmitCount + 1)) rtoMax

def TcpConn.rearm (now : Nat) (c : TcpConn) : TcpConn :=
  { c with retransmitCount := c.retransmitCount + 1, retransmitAt := (now + c.rto) % 2 ^ 32 }

theorem tick_fires {now : Nat} {c : TcpConn} (hf : c.fires now = true) :
    retransmitMax ≤ c.retransmitCount ∧ c.tick now =
        ⟨{ c with state := .closed }, c.control rstOnly,
          if c.sockId = sockNone then [] else [c.sockId], decide (c.sockId ≠ sockNone)⟩ ∨
      c.retransmitCount < retransmitMax ∧
        c.tick now = ⟨c.rearm now, (c.rearm now).resend, [], false⟩ := by
  rw [TcpConn.fires, Bool.and_eq_true_iff, decide_eq_true_iff] at hf
  obtain ⟨⟨ho, ha, hr⟩, due⟩ := hf
  rw [TcpConn.tick, if_neg ho, if_neg ha, if_neg hr, due, if_neg (by decide)]
  by_cases last : retransmitMax ≤ c.retransmitCount
  · rw [if_pos last]
    exact .inl ⟨last, rfl⟩
  · rw [if_neg last]
    exact .inr ⟨Nat.lt_of_not_le last, rfl⟩

theorem tick_waits {now : Nat} {c : TcpConn} (hw : c.fires now = false) :
    ((c.tick now).conn = c ∨ (c.tick now).conn = { c with state := .closed }) ∧
      (c.tick now).sent = [] := by
  rw [tick]
  by_cases hc : c.state = .closed
  · rw [if_pos hc]
    exact ⟨.inl rfl, rfl⟩
  rw [if_neg hc]
  by_cases last : c.state = .timeWait
  · rw [if_pos last]
    split
    · exact ⟨.inr rfl, rfl⟩
    · exact ⟨.inl rfl, rfl⟩
  rw [if_neg last]
  by_cases hu : c.retransmitAt = 0
  · rw [if_pos hu]
    exact ⟨.inl rfl, rfl⟩
  have he : due now c.retransmitAt = false := by
    rw [fires, decide_eq_true ⟨hc, last, hu⟩, Bool.true_and] at hw
    exact hw
  rw [if_neg hu, he]
  exact ⟨.inl rfl, rfl⟩

theorem tick_conn (now : Nat) (c : TcpConn) :
    (c.tick now).conn = c ∨ (c.tick now).conn = { c with state := .closed } ∨
      (c.tick now).conn = c.rearm now := by
  cases hf : c.fires now with
  | true =>
    obtain ⟨-, hr⟩ | ⟨-, hr⟩ := tick_fires hf <;> rw [hr]
    · exact .inr (.inl rfl)
    · exact .inr (.inr rfl)
  | false => exact (tick_waits hf).1.imp_right .inl

/-! ### Incoming segments -/

structure Keeps (c d : TcpConn) : Prop where
  state : d.state = c.state
  rcv : d.rcvNxt = c.rcvNxt
  una : d.sndUna = c.sndUna

/-- The segments that a state does not take: each takes those with certain flags, whatever their
sequence number, and only the handshake and FIN_WAIT_1 compare the acknowledgement with
`snd_nxt`. -/
def Ignored (c : TcpConn) (g : Segment) : Prop :=
  match c.state with
  | .synRcvd => ¬ (g.flags.ack ∧ ¬ g.flags.syn ∧ ¬ g.flags.rst ∧ g.ack = c.sndNxt)
  | .synSent => ¬ g.flags.rst ∧ ¬ (g.flags.syn ∧ g.flags.ack ∧ g.ack = c.sndNxt)
  | .established =>
    ¬ g.flags.rst ∧ ¬ g.flags.fin ∧ ¬ (g.flags.ack ∧ seqGt g.ack c.sndUna) ∧ ¬ c.Stores g
  | .finWait1 => ¬ (g.flags.ack ∧ g.ack = c.sndNxt) ∧ ¬ (¬ g.flags.ack ∧ g.flags.fin)
  | .finWait2 => ¬ g.flags.fin
  | .closing | .lastAck => ¬ g.flags.ack
  | .closed | .listen | .closeWait | .timeWait => True

def TcpState.next : TcpState → TcpState → Bool
  | .synRcvd, .established | .synSent, .closed | .synSent, .established => true
  | .established, .closed | .established, .closeWait => true
  | .finWait1, .finWait2 | .finWait1, .closing | .finWait2, .timeWait => true
  | .closing, .timeWait | .lastAck, .closed => true
  | _, _ => false

def Completes (c : TcpConn) (g : Segment) : Prop :=
  c.state = .synRcvd ∧ g.flags.ack ∧ ¬ g.flags.syn ∧ ¬ g.flags.rst ∧ g.ack = c.sndNxt ∨
    c.state = .synSent ∧ ¬ g.flags.rst ∧ g.flags.syn ∧ g.flags.ack ∧ g.ack = c.sndNxt
  deriving Decidable

structure RxMove (c : TcpConn) (g : Segment) (d : TcpConn) : Prop where
  ends : SameEnds c d
  next : d.state = c.state ∨ c.state.next d.state = true
  opens : d.state = .established → c.state = .established ∨ Completes c g
  nxt : d.sndNxt = c.sndNxt
  count : d.retransmitCount = c.retransmitCount
  rcv : d.rcvNxt = c.rcvNxt ∨ d.rcvNxt < 2 ^ 32
  effect : Ignored c g ∧ SameNumbers c d ∨ ¬ Ignored c g ∧ ¬ Keeps c d
  una : d.sndUna = c.sndUna ∨ d.sndUna = c.sndNxt ∨
    c.state = .established ∧ g.flags.ack = true ∧ seqGt g.ack c.sndUna = true ∧ d.sndUna = g.ack
  timer : d.retransmitAt = c.retransmitAt ∨
    d.retransmitAt = 0 ∧ (d.state = .closed ∨ d.sndUna = d.sndNxt)
  handshake : d.state = .synSent ∨ d.state = .synRcvd → d.state = c.state ∧ d.sndUna = c.sndUna

section
variable {now : Nat} {c : TcpConn} {g : Segment}

theorem rxMove_ignored (hs : Ignored c g) : RxMove c g c where
  ends := .refl c
  next := .inl rfl
  opens := .inl
  nxt := rfl
  count := rfl
  rcv := .inl rfl
  effect := .inl ⟨hs, .refl c⟩
  una := .inl rfl
  timer := .inl rfl
  handshake _ := ⟨rfl, rfl⟩

theorem rxMove_state {d : TcpConn} {first : TcpState} (next : TcpState) (taken : ¬ Ignored c g)
    (before : c.state = first) (rcv : d.rcvNxt = c.rcvNxt ∨ d.rcvNxt < 2 ^ 32)
    (una : d.sndUna = c.sndUna ∨ d.sndUna = c.sndNxt ∨ c.state = .established ∧
      g.flags.ack = true ∧ seqGt g.ack c.sndUna = true ∧ d.sndUna = g.ack)
    (timer : d.retransmitAt = c.retransmitAt ∨
      d.retransmitAt = 0 ∧ (d.state = .closed ∨ d.sndUna = d.sndNxt))
    (opens : next = .established → Completes c g := by nofun)
    (ends : SameEnds c d := by exact ⟨rfl, rfl, rfl, rfl, rfl⟩)
    (nxt : d.sndNxt = c.sndNxt := by rfl)
    (count : d.retransmitCount = c.retransmitCount := by rfl) (after : d.state = next := by rfl)
    (moved : first.next next = true ∧ next ≠ first ∧ next ≠ .synSent ∧ next ≠ .synRcvd := by decide) :
    RxMove c g d where
  ends := ends
  next := .inr (by rw [before, after]; exact moved.1)
  opens ready := .inr (opens (after.symm.trans ready))
  nxt := nxt
  count := count
  rcv := rcv
  effect := .inr ⟨taken, fun keeps => moved.2.1 (after.symm.trans (keeps.state.trans before))⟩
  una := una
  timer := timer
  handshake early := by
    rw [after] at early
    exact (early.elim moved.2.2.1 moved.2.2.2).elim

theorem rxSynRcvd_moves (state : c.state = .synRcvd) : RxMove c g (rxSynRcvd c g).conn := by
  have hi : Ignored c g ↔ ¬ (g.flags.ack ∧ ¬ g.flags.syn ∧ ¬ g.flags.rst ∧ g.ack = c.sndNxt) := by
    rw [Ignored, state]
  rw [rxSynRcvd]
  by_cases ht : g.flags.ack ∧ ¬ g.flags.syn ∧ ¬ g.flags.rst ∧ g.ack = c.sndNxt
  · have conn : (if c.listenerId = sockNone
        then quiet { c with sndUna := g.ack, state := .established, retransmitAt := 0 }
        else ⟨{ c with sndUna := g.ack, state := .established, retransmitAt := 0 }, [],
          [(c.listenerId, .epollIn)], none, some c.listenerId⟩).conn =
        { c with sndUna := g.ack, state := .established, retransmitAt := 0 } := by
      split <;> rfl
    rw [if_pos ht]
    dsimp only
    rw [conn]
    exact rxMove_state .established (fun hs => hi.mp hs ht) state (.inl rfl)
      (.inr (.inl ht.2.2.2)) (.inr ⟨rfl, .inr ht.2.2.2⟩) fun _ => .inl ⟨state, ht⟩
  · rw [if_neg ht]
    exact rxMove_ignored (hi.mpr ht)

theorem rxSynSent_moves (state : c.state = .synSent) : RxMove c g (rxSynSent c g).conn := by
  have hi : Ignored c g ↔ ¬ g.flags.rst ∧ ¬ (g.flags.syn ∧ g.flags.ack ∧ g.ack = c.sndNxt) := by
    rw [Ignored, state]
  rw [rxSynSent]
  by_cases hr : g.flags.rst = true
  · rw [if_pos hr]
    exact rxMove_state .closed (fun hs => (hi.mp hs).1 hr) state (.inl rfl) (.inl rfl)
      (.inr ⟨rfl, .inl rfl⟩)
  rw [if_neg hr]
  by_cases ht : g.flags.syn ∧ g.flags.ack ∧ g.ack = c.sndNxt
  · rw [if_pos ht]
    exact rxMove_state .established (fun hs => (hi.mp hs).2 ht) state
      (.inr (mod_lt _ (by decide))) (.inr (.inl ht.2.2)) (.inr ⟨rfl, .inr ht.2.2⟩)
      fun _ => .inr ⟨state, hr, ht⟩
  · rw [if_neg ht]
    exact rxMove_ignored (hi.mpr ⟨hr, ht⟩)

theorem rxFinWait1_moves (state : c.state = .finWait1) : RxMove c g (rxFinWait1 c g).conn := by
  have hi : Ignored c g ↔ ¬ (g.flags.ack ∧ g.ack = c.sndNxt) ∧ ¬ (¬ g.flags.ack ∧ g.flags.fin) := by
    rw [Ignored, state]
  rw [rxFinWait1]
  by_cases acks : g.flags.ack = true
  · rw [if_pos acks]
    by_cases all : g.ack = c.sndNxt
    · have ht : ¬ Ignored c g := fun hs => (hi.mp hs).1 ⟨acks, all⟩
      rw [if_pos all]
      dsimp only
      split
      · exact rxMove_state .closing ht state (.inr (mod_lt _ (by decide))) (.inr (.inl all))
          (.inl rfl)
      · exact rxMove_state .finWait2 ht state (.inl rfl) (.inr (.inl all)) (.inl rfl)
    · rw [if_neg all]
      exact rxMove_ignored (hi.mpr ⟨fun both => all both.2, fun both => both.1 acks⟩)
  · rw [if_neg acks]
    by_cases fin : g.flags.fin = true
    · rw [if_pos fin]
      exact rxMove_state .closing (fun hs => (hi.mp hs).2 ⟨acks, fin⟩) state
        (.inr (mod_lt _ (by decide))) (.inl rfl) (.inl rfl)
    · rw [if_neg fin]
      exact rxMove_ignored (hi.mpr ⟨fun both => acks both.1, fun both => fin both.2⟩)

theorem rxFinWait2_moves (state : c.state = .finWait2) : RxMove c g (rxFinWait2 now c g).conn := by
  have hi : Ignored c g ↔ ¬ g.flags.fin := by rw [Ignored, state]
  rw [rxFinWait2]
  by_cases fin : g.flags.fin = true
  · rw [if_pos fin]
    exact rxMove_state .timeWait (fun hs => hi.mp hs fin) state (.inr (mod_lt _ (by decide)))
      (.inl rfl) (.inl rfl)
  · rw [if_neg fin]
    exact rxMove_ignored (hi.mpr fin)

theorem rxClosing_moves (state : c.state = .closing) : RxMove c g (rxClosing now c g).conn := by
  have hi : Ignored c g ↔ ¬ g.flags.ack := by rw [Ignored, state]
  rw [rxClosing]
  by_cases acks : g.flags.ack = true
  · rw [if_pos acks]
    exact rxMove_state .timeWait (fun hs => hi.mp hs acks) state (.inl rfl) (.inl rfl) (.inl rfl)
  · rw [if_neg acks]
    exact rxMove_ignored (hi.mpr acks)

theorem rxLastAck_moves (state : c.state = .lastAck) : RxMove c g (rxLastAck c g).conn := by
  have hi : Ignored c g ↔ ¬ g.flags.ack := by rw [Ignored, state]
  rw [rxLastAck]
  by_cases acks : g.flags.ack = true
  · rw [if_pos acks]
    exact rxMove_state .closed (fun hs => hi.mp hs acks) state (.inl rfl) (.inl rfl) (.inl rfl)
  · rw [if_neg acks]
    exact rxMove_ignored (hi.mpr acks)

theorem seqSub_self (n : Nat) : seqSub n n = 0 := by
  rw [seqSub, Nat.add_sub_cancel_left, mod_self]

theorem seqGt_ne {a b : Nat} (hg : seqGt a b = true) : a ≠ b := by
  rintro rfl
  rw [seqGt, seqSub_self] at hg
  cases hg

structure DataMove (c : TcpConn) (g : Segment) (d : TcpConn) : Prop where
  ends : SameEnds c d
  state : d.state = c.state
  nxt : d.sndNxt = c.sndNxt
  timer : d.retransmitAt = c.retransmitAt
  count : d.retransmitCount = c.retransmitCount
  una : ¬ (g.flags.ack = true ∧ seqGt g.ack c.sndUna = true) ∧ d.sndUna = c.sndUna ∨
    (g.flags.ack = true ∧ seqGt g.ack c.sndUna = true) ∧ d.sndUna = g.ack
  rcv : ¬ c.Stores g ∧ d.rcvNxt = c.rcvNxt ∨
    c.Stores g ∧ d.rcvNxt = (c.rcvNxt + g.payload.length) % 2 ^ 32

theorem dataMove (c : TcpConn) (g : Segment) : DataMove c g (rxData (rxAck c g) g).conn := by
  have acked : SameNumbers { c with sndUna := (rxAck c g).sndUna } (rxAck c g) ∧
      SameEnds c (rxAck c g) ∧ ((rxAck c g).Stores g ↔ c.Stores g) := by
    obtain ⟨-, ack⟩ | ⟨-, ack⟩ := rxAck_conn c g <;> rw [ack] <;>
      exact ⟨⟨rfl, rfl, rfl, rfl, rfl, rfl⟩, ⟨rfl, rfl, rfl, rfl, rfl⟩, .rfl⟩
  have una : ¬ (g.flags.ack = true ∧ seqGt g.ack c.sndUna = true) ∧ (rxAck c g).sndUna = c.sndUna ∨
      (g.flags.ack = true ∧ seqGt g.ack c.sndUna = true) ∧ (rxAck c g).sndUna = g.ack := by
    obtain ⟨acks, ack⟩ | ⟨acks, ack⟩ := rxAck_conn c g <;> rw [ack]
    · exact .inr ⟨acks, rfl⟩
    · exact .inl ⟨acks, rfl⟩
  obtain ⟨same, ends, stores⟩ := acked
  obtain ⟨data, conn⟩ | ⟨none, conn⟩ := rxData_conn (rxAck c g) g
  · have stored := storePayload_same (rxAck c g) g.payload
    have stays := storePayload_ends (rxAck c g) g.payload
    rw [conn]
    refine ⟨(ends.trans stays).trans ⟨rfl, rfl, rfl, rfl, rfl⟩, stored.state.trans same.state,
      stored.nxt.trans same.nxt, stored.timer.trans same.timer, stored.count.trans same.count, ?_,
      .inr ⟨stores.mp data, ?_⟩⟩
    · rw [← stored.una] at una
      exact una
    · exact congrArg (fun n => (n + g.payload.length) % 2 ^ 32) same.rcv
  · rw [conn]
    exact ⟨ends, same.state, same.nxt, same.timer, same.count, una,
      .inl ⟨fun all => none (stores.mpr all), same.rcv⟩⟩

theorem Stores.advances (hs : c.Stores g) : (c.rcvNxt + g.payload.length) % 2 ^ 32 ≠ c.rcvNxt := by
  obtain ⟨some, -, fits⟩ := hs
  have pos : 0 < g.payload.length := List.length_pos_iff.mpr some
  have lt : c.space ≤ rbufSize := sub_le _ _
  rw [rbufSize] at lt
  omega

theorem rxEstablished_moves (state : c.state = .established) :
    RxMove c g (rxEstablished c g).conn := by
  have ignored : Ignored c g ↔ ¬ g.flags.rst ∧ ¬ g.flags.fin ∧
      ¬ (g.flags.ack ∧ seqGt g.ack c.sndUna) ∧ ¬ c.Stores g := by
    rw [Ignored, state]
  obtain ⟨ends, kept, nxt, timer, count, una, rcv⟩ := dataMove c g
  have rcvBound : (rxData (rxAck c g) g).conn.rcvNxt = c.rcvNxt ∨
      (rxData (rxAck c g) g).conn.rcvNxt < 2 ^ 32 := by
    refine rcv.imp And.right fun stored => ?_
    rw [stored.2]
    exact mod_lt _ (by decide)
  have unaCases : (rxData (rxAck c g) g).conn.sndUna = c.sndUna ∨
      (rxData (rxAck c g) g).conn.sndUna = c.sndNxt ∨
      c.state = .established ∧ g.flags.ack = true ∧ seqGt g.ack c.sndUna = true ∧
        (rxData (rxAck c g) g).conn.sndUna = g.ack :=
    una.imp And.right fun acked => .inr ⟨state, acked.1.1, acked.1.2, acked.2⟩
  rw [rxEstablished]
  obtain ⟨rst, conn⟩ | ⟨⟨rst, fin⟩, conn⟩ | ⟨⟨rst, fin⟩, conn⟩ :=
    rxEnd_conn (rxData (rxAck c g) g) g
  · rw [conn]
    exact rxMove_state .closed (fun stays => (ignored.mp stays).1 rst) state rcvBound unaCases
      (.inl timer) nofun (ends.trans ⟨rfl, rfl, rfl, rfl, rfl⟩) nxt count
  · rw [conn]
    exact rxMove_state .closeWait (fun stays => (ignored.mp stays).2.1 fin) state
      (.inr (mod_lt _ (by decide))) unaCases (.inl timer) nofun
      (ends.trans ⟨rfl, rfl, rfl, rfl, rfl⟩) nxt count
  · rw [conn]
    refine ⟨ends, .inl kept, fun _ => .inl state, nxt, count, rcvBound, ?_, unaCases, .inl timer,
      ?_⟩
    · rcases rcv with ⟨none, rcv⟩ | ⟨stored, rcv⟩
      · rcases una with ⟨old, una⟩ | ⟨acks, una⟩
        · refine .inl ⟨ignored.mpr ⟨?_, ?_, old, none⟩, kept, nxt, una, rcv, timer, count⟩
          · rw [rst]; exact Bool.false_ne_true
          · rw [fin]; exact Bool.false_ne_true
        · refine .inr ⟨fun stays => (ignored.mp stays).2.2.1 acks, fun keeps => ?_⟩
          exact seqGt_ne acks.2 (una.symm.trans keeps.una)
      · refine .inr ⟨fun stays => (ignored.mp stays).2.2.2 stored, fun keeps => ?_⟩
        exact Stores.advances stored (rcv.symm.trans keeps.rcv)
    · rw [kept, state]
      rintro (early | early) <;> cases early

theorem rx_moves (now : Nat) (c : TcpConn) (g : Segment) : RxMove c g (c.rx now g).conn := by
  -- The window is stored first; no test looks at it.
  have window : RxMove { c with sndWnd := g.window } g (c.rx now g).conn := by
    rw [rx]
    dsimp only
    split
    · next state => exact rxSynRcvd_moves state
    · next state => exact rxSynSent_moves state
    · next state => exact rxEstablished_moves state
    · next state => exact rxFinWait1_moves state
    · next state => exact rxFinWait2_moves state
    · next state => exact rxClosing_moves state
    · next state => exact rxLastAck_moves state
    all_goals next state =>
        refine rxMove_ignored ?_
        rw [Ignored]
        dsimp only
        rw [state]
        trivial
  have ends : SameEnds c { c with sndWnd := g.window } := ⟨rfl, rfl, rfl, rfl, rfl⟩
  refine ⟨ends.trans window.ends, window.next, window.opens, window.nxt, window.count, window.rcv,
    ?_, window.una, window.timer, window.handshake⟩
  exact window.effect.imp
    (fun ⟨hs, eq⟩ => ⟨hs, eq.state, eq.nxt, eq.una, eq.rcv, eq.timer, eq.count⟩)
    (fun ⟨ht, hm⟩ => ⟨ht, fun keeps => hm ⟨keeps.state, keeps.rcv, keeps.una⟩⟩)

end

end Aegis.Tcp
