import Aegis.ByteLayout

/-! One TCP connection (kernel/net/tcp.c): what an incoming segment, the timer and the calls of
the socket layer do to it. Segments are taken after the checks of length and checksum. Sequence
numbers and times are 32-bit numbers and wrap around. -/

namespace Aegis.Tcp

open ByteLayout (Byte)

def seqSub (a b : Nat) : Nat := (a + 2 ^ 32 - b) % 2 ^ 32

def seqGt (a b : Nat) : Bool := decide (0 < seqSub a b) && decide (seqSub a b < 2 ^ 31)

def seqLe (a b : Nat) : Bool := decide (seqSub a b = 0) || decide (2 ^ 31 ≤ seqSub a b)

def due (now deadline : Nat) : Bool := decide (seqSub now deadline < 2 ^ 31)

def rbufSize : Nat := 16384

def timewaitTicks : Nat := 400

def rtoInitial : Nat := 100

def rtoMax : Nat := 800

def retransmitMax : Nat := 3

def sockNone : Nat := 0xFFFFFFFF

inductive TcpState
  | closed
  | listen
  | synRcvd
  | synSent
  | established
  | finWait1
  | finWait2
  | closing
  | closeWait
  | lastAck
  | timeWait
  deriving DecidableEq

structure Flags where
  fin : Bool
  syn : Bool
  rst : Bool
  psh : Bool
  ack : Bool

def finAck : Flags := ⟨true, false, false, false, true⟩

def synOnly : Flags := ⟨false, true, false, false, false⟩

def synAck : Flags := ⟨false, true, false, false, true⟩

def rstOnly : Flags := ⟨false, false, true, false, false⟩

def pshAck : Flags := ⟨false, false, false, true, true⟩

def ackOnly : Flags := ⟨false, false, false, false, true⟩

structure Segment where
  srcIp : Nat
  dstIp : Nat
  srcPort : Nat
  dstPort : Nat
  seq : Nat
  ack : Nat
  flags : Flags
  window : Nat
  payload : List Byte

structure TcpConn where
  state : TcpState
  localIp : Nat
  remoteIp : Nat
  localPort : Nat
  remotePort : Nat
  sndNxt : Nat
  sndUna : Nat
  rcvNxt : Nat
  sndWnd : Nat
  rbuf : Nat → Byte
  rbufHead : Nat
  rbufTail : Nat
  retransmitAt : Nat
  retransmitCount : Nat
  timewaitAt : Nat
  sockId : Nat
  listenerId : Nat

def zeroConn : TcpConn := ⟨.closed, 0, 0, 0, 0, 0, 0, 0, 0, fun _ => 0, 0, 0, 0, 0, 0, 0, 0⟩

/-! ### The receive buffer -/

def TcpConn.used (c : TcpConn) : Nat := seqSub c.rbufTail c.rbufHead % rbufSize

def TcpConn.space (c : TcpConn) : Nat := rbufSize - c.used

def TcpConn.storeByte (c : TcpConn) (b : Byte) : TcpConn :=
  { c with
    rbuf := Function.update c.rbuf (c.rbufTail % rbufSize) b
    rbufTail := (c.rbufTail + 1) % 2 ^ 32 }

def TcpConn.storePayload (c : TcpConn) (payload : List Byte) : TcpConn :=
  payload.foldl TcpConn.storeByte c

def TcpConn.takeBytes (c : TcpConn) : Nat → List Byte × TcpConn
  | 0 => ([], c)
  | n + 1 =>
    let rest := TcpConn.takeBytes { c with rbufHead := (c.rbufHead + 1) % rbufSize } n
    (c.rbuf c.rbufHead :: rest.1, rest.2)

def TcpConn.avail (c : TcpConn) : Nat :=
  (rbufSize + seqSub c.rbufTail c.rbufHead) % 2 ^ 32 % rbufSize

/-- `tcp_conn_recv`: the value returned and the bytes copied; a length of 0 asks for the number
of bytes. -/
def TcpConn.recv (c : TcpConn) (maxLen : Nat) : Int × List Byte × TcpConn :=
  if c.avail = 0 then
    (if c.state = .closeWait ∨ c.state = .closed ∨ c.state = .timeWait then 0 else -11, [], c)
  else if maxLen = 0 then (c.avail, [], c)
  else ((min c.avail maxLen : Nat), c.takeBytes (min c.avail maxLen))

/-! ### Sending -/

structure Sent where
  dstIp : Nat
  srcPort : Nat
  dstPort : Nat
  seq : Nat
  ack : Nat
  flags : Flags
  window : Nat
  payload : List Byte

/-- `tcp_send_segment` up to `ip_send`; nothing is sent if the segment is too long. -/
def TcpConn.segment (c : TcpConn) (flags : Flags) (payload : List Byte) : Option Sent :=
  if 1480 < (20 + payload.length) % 2 ^ 16 then none
  else some
    { dstIp := c.remoteIp
      srcPort := c.localPort
      dstPort := c.remotePort
      seq := c.sndNxt
      ack := if flags.ack then c.rcvNxt else 0
      flags := flags
      window := min c.space 0xFFFF
      payload := payload }

def TcpConn.control (c : TcpConn) (flags : Flags) : List Sent := (c.segment flags []).toList

def TcpConn.send (c : TcpConn) (data : List Byte) (sends : Bool) : Int × TcpConn × List Sent :=
  if c.state ≠ .established then (-32, c, [])
  else
    match c.segment pshAck data with
    | none => (-1, c, [])
    | some s =>
      if sends then (data.length, { c with sndNxt := (c.sndNxt + data.length) % 2 ^ 32 }, [s])
      else (-1, c, [s])

def TcpConn.close (c : TcpConn) : TcpConn × List Sent :=
  if c.state = .established then
    ({ c with state := .finWait1, sndNxt := (c.sndNxt + 1) % 2 ^ 32 }, c.control finAck)
  else (c, [])

/-! ### Receiving -/

inductive PollEvent
  | none
  | epollIn
  | epollOut
  | epollErr
  | epollHup

/-- What `tcp_rx` leaves to do after it releases its lock: segments sent, sockets to wake, the
socket that is connected and the listener that gets the connection. -/
structure RxResult where
  conn : TcpConn
  sent : List Sent
  wakes : List (Nat × PollEvent)
  connected : Option Nat
  accepted : Option Nat

def TcpConn.wake (c : TcpConn) (event : PollEvent) : List (Nat × PollEvent) :=
  if c.sockId = sockNone then [] else [(c.sockId, event)]

def quiet (c : TcpConn) : RxResult := ⟨c, [], [], none, none⟩

def rxSynRcvd (c : TcpConn) (g : Segment) : RxResult :=
  if g.flags.ack ∧ ¬ g.flags.syn ∧ ¬ g.flags.rst ∧ g.ack = c.sndNxt then
    let c := { c with sndUna := g.ack, state := .established, retransmitAt := 0 }
    if c.listenerId = sockNone then quiet c
    else ⟨c, [], [(c.listenerId, .epollIn)], none, some c.listenerId⟩
  else quiet c

def rxSynSent (c : TcpConn) (g : Segment) : RxResult :=
  if g.flags.rst then
    ⟨{ c with state := .closed, retransmitAt := 0 }, [], c.wake .epollErr, none, none⟩
  else if g.flags.syn ∧ g.flags.ack ∧ g.ack = c.sndNxt then
    let c := { c with
      sndUna := g.ack, rcvNxt := (g.seq + 1) % 2 ^ 32, state := .established, retransmitAt := 0 }
    ⟨c, c.control ackOnly, c.wake .epollOut,
      if c.sockId = sockNone then none else some c.sockId, none⟩
  else quiet c

def rxAck (c : TcpConn) (g : Segment) : TcpConn :=
  if g.flags.ack ∧ seqGt g.ack c.sndUna then { c with sndUna := g.ack } else c

/-- The data of an established connection: stored if they are next and fit. -/
def rxData (c : TcpConn) (g : Segment) : RxResult :=
  if g.payload ≠ [] ∧ g.seq = c.rcvNxt then
    if g.payload.length ≤ c.space then
      let c := { c.storePayload g.payload with
        rcvNxt := (c.rcvNxt + g.payload.length) % 2 ^ 32 }
      ⟨c, c.control ackOnly, c.wake .epollIn, none, none⟩
    else ⟨c, c.control ackOnly, [], none, none⟩
  else quiet c

def rxEnd (r : RxResult) (g : Segment) : RxResult :=
  if g.flags.rst then
    { r with conn := { r.conn with state := .closed }, wakes := r.wakes ++ r.conn.wake .none }
  else if g.flags.fin then
    let c := { r.conn with rcvNxt := (r.conn.rcvNxt + 1) % 2 ^ 32, state := .closeWait }
    { r with conn := c, sent := r.sent ++ c.control ackOnly, wakes := r.wakes ++ c.wake .epollHup }
  else r

def rxEstablished (c : TcpConn) (g : Segment) : RxResult := rxEnd (rxData (rxAck c g) g) g

def rxFin (c : TcpConn) (next : TcpState) : TcpConn :=
  { c with rcvNxt := (c.rcvNxt + 1) % 2 ^ 32, state := next }

def rxFinWait1 (c : TcpConn) (g : Segment) : RxResult :=
  if g.flags.ack then
    if g.ack = c.sndNxt then
      let c := { c with sndUna := g.ack }
      if g.flags.fin then
        ⟨rxFin c .closing, (rxFin c .closing).control ackOnly, [], none, none⟩
      else quiet { c with state := .finWait2 }
    else quiet c
  else if g.flags.fin then
    ⟨rxFin c .closing, (rxFin c .closing).control ackOnly, [], none, none⟩
  else quiet c

def rxFinWait2 (now : Nat) (c : TcpConn) (g : Segment) : RxResult :=
  if g.flags.fin then
    let c := { rxFin c .timeWait with timewaitAt := (now + timewaitTicks) % 2 ^ 32 }
    ⟨c, c.control ackOnly, c.wake .epollHup, none, none⟩
  else quiet c

def rxClosing (now : Nat) (c : TcpConn) (g : Segment) : RxResult :=
  if g.flags.ack then
    ⟨{ c with state := .timeWait, timewaitAt := (now + timewaitTicks) % 2 ^ 32 }, [],
      c.wake .epollHup, none, none⟩
  else quiet c

def rxLastAck (c : TcpConn) (g : Segment) : RxResult :=
  if g.flags.ack then ⟨{ c with state := .closed }, [], c.wake .epollHup, none, none⟩
  else quiet c

def TcpConn.rx (now : Nat) (conn : TcpConn) (g : Segment) : RxResult :=
  let c := { conn with sndWnd := g.window }
  match c.state with
  | .synRcvd => rxSynRcvd c g
  | .synSent => rxSynSent c g
  | .established => rxEstablished c g
  | .finWait1 => rxFinWait1 c g
  | .finWait2 => rxFinWait2 now c g
  | .closing => rxClosing now c g
  | .lastAck => rxLastAck c g
  | .closed | .listen | .closeWait | .timeWait => quiet c

/-! ### Opening -/

/-- The connection that `tcp_rx` makes of a SYN for a listener, before it counts its own SYN. -/
def synRcvdConn (now : Nat) (g : Segment) (listenerId : Nat) : TcpConn :=
  { zeroConn with
    state := .synRcvd
    localIp := g.dstIp
    localPort := g.dstPort
    remoteIp := g.srcIp
    remotePort := g.srcPort
    rcvNxt := (g.seq + 1) % 2 ^ 32
    sndNxt := now % 2 ^ 32
    sndUna := now % 2 ^ 32
    sndWnd := g.window
    listenerId := listenerId }

def TcpConn.countSyn (c : TcpConn) (now : Nat) : TcpConn :=
  { c with sndNxt := (c.sndNxt + 1) % 2 ^ 32, retransmitAt := (now + rtoInitial) % 2 ^ 32 }

def passiveOpen (now : Nat) (g : Segment) (listenerId : Nat) : TcpConn × List Sent :=
  let c := synRcvdConn now g listenerId
  ({ c.countSyn now with retransmitCount := 0 }, c.control synAck)

def listenConn (port sockId : Nat) : TcpConn :=
  { zeroConn with state := .listen, localPort := port, sockId := sockId }

def isLoopback (ip : Nat) : Bool := decide (ip / 2 ^ 24 = 127)

/-- `tcp_connect` up to the SYN; `myIp` is the configured address. -/
def connectConn (now myIp sockId dstIp dstPort : Nat) : TcpConn :=
  { zeroConn with
    state := .synSent
    localIp := if isLoopback dstIp then dstIp else if myIp = 0 ∧ dstIp = myIp then dstIp else myIp
    localPort := 49152 + now % 0x4000
    remoteIp := dstIp
    remotePort := dstPort
    sockId := sockId
    sndNxt := now % 2 ^ 32
    sndUna := now % 2 ^ 32
    retransmitAt := (now + rtoInitial + 200) % 2 ^ 32 }

/-! ### The timer -/

structure TickResult where
  conn : TcpConn
  sent : List Sent
  wakes : List Nat
  returns : Bool

def TcpConn.resend (c : TcpConn) : List Sent :=
  match c.state with
  | .synRcvd => c.control synAck
  | .synSent => c.control synOnly
  | _ => []

def TcpConn.tick (now : Nat) (c : TcpConn) : TickResult :=
  if c.state = .closed then ⟨c, [], [], false⟩
  else if c.state = .timeWait then
    if due now c.timewaitAt then
      ⟨{ c with state := .closed }, [], if c.sockId = sockNone then [] else [c.sockId], false⟩
    else ⟨c, [], [], false⟩
  else if c.retransmitAt = 0 then ⟨c, [], [], false⟩
  else if !due now c.retransmitAt then ⟨c, [], [], false⟩
  else if retransmitMax ≤ c.retransmitCount then
    ⟨{ c with state := .closed }, c.control rstOnly,
      if c.sockId = sockNone then [] else [c.sockId], decide (c.sockId ≠ sockNone)⟩
  else
    let count := c.retransmitCount + 1
    let rto := min (rtoInitial * 2 ^ count) rtoMax
    let c := { c with retransmitCount := count, retransmitAt := (now + rto) % 2 ^ 32 }
    ⟨c, c.resend, [], false⟩

/-! ### The steps of an established connection -/

theorem rxAck_conn (c : TcpConn) (g : Segment) :
    (g.flags.ack = true ∧ seqGt g.ack c.sndUna = true) ∧ rxAck c g = { c with sndUna := g.ack } ∨
      ¬ (g.flags.ack = true ∧ seqGt g.ack c.sndUna = true) ∧ rxAck c g = c := by
  rw [rxAck]
  by_cases acks : g.flags.ack = true ∧ seqGt g.ack c.sndUna = true
  · rw [if_pos acks]
    exact .inl ⟨acks, rfl⟩
  · rw [if_neg acks]
    exact .inr ⟨acks, rfl⟩

def TcpConn.Stores (c : TcpConn) (g : Segment) : Prop :=
  g.payload ≠ [] ∧ g.seq = c.rcvNxt ∧ g.payload.length ≤ c.space

theorem rxData_conn (c : TcpConn) (g : Segment) : c.Stores g ∧ (rxData c g).conn =
        { c.storePayload g.payload with rcvNxt := (c.rcvNxt + g.payload.length) % 2 ^ 32 } ∨
      ¬ c.Stores g ∧ (rxData c g).conn = c := by
  rw [rxData]
  by_cases next : g.payload ≠ [] ∧ g.seq = c.rcvNxt
  · rw [if_pos next]
    by_cases fits : g.payload.length ≤ c.space
    · rw [if_pos fits]
      exact .inl ⟨⟨next.1, next.2, fits⟩, rfl⟩
    · rw [if_neg fits]
      exact .inr ⟨fun all => fits all.2.2, rfl⟩
  · rw [if_neg next]
    exact .inr ⟨fun all => next ⟨all.1, all.2.1⟩, rfl⟩

theorem rxEnd_conn (r : RxResult) (g : Segment) :
    g.flags.rst = true ∧ (rxEnd r g).conn = { r.conn with state := .closed } ∨
      (g.flags.rst = false ∧ g.flags.fin = true) ∧ (rxEnd r g).conn =
        { r.conn with rcvNxt := (r.conn.rcvNxt + 1) % 2 ^ 32, state := .closeWait } ∨
      (g.flags.rst = false ∧ g.flags.fin = false) ∧ (rxEnd r g).conn = r.conn := by
  rw [rxEnd]
  cases rst : g.flags.rst with
  | true => exact .inl ⟨rfl, rfl⟩
  | false =>
    cases fin : g.flags.fin with
    | true => exact .inr (.inl ⟨⟨rfl, rfl⟩, rfl⟩)
    | false => exact .inr (.inr ⟨⟨rfl, rfl⟩, rfl⟩)

end Aegis.Tcp
