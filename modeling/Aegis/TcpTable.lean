import Aegis.TcpRun

/-! The table of connections (kernel/net/tcp.c) and the table of sockets (kernel/net/socket.c), and
what the system calls, incoming segments and the timer do to both. `tcp_connect` releases its lock
before it sends the SYN, and `sys_connect` stores the connection in the socket only after that, so
the end of a connect is a step of its own. -/

namespace Aegis.Tcp

open LabelledRun Function

def tcpMaxConns : Nat := 32

def sockTableSize : Nat := 64

inductive SockState
  | free
  | created
  | bound
  | listening
  | connecting
  | connected
  | closed
  deriving DecidableEq

structure Sock where
  state : SockState
  stream : Bool
  localPort : Nat
  tcpConnId : Nat
  acceptQueue : Nat → Nat
  acceptHead : Nat
  acceptTail : Nat

/-- A socket that `sock_alloc` has cleared. -/
def freshSock (state : SockState) (stream : Bool) (localPort tcpConnId : Nat) : Sock :=
  ⟨state, stream, localPort, tcpConnId, fun _ => 0, 0, 0⟩

def Sock.popped (ls : Sock) : Sock := { ls with acceptHead := (ls.acceptHead + 1) % 8 }

def zeroSock : Sock := freshSock .free false 0 0

/-- A descriptor holds the index of a socket. History: a number for the socket that it was opened
for, which its copies share. -/
structure SockFd where
  sockId : Nat
  serial : Nat
  deriving DecidableEq

/-- Both tables, all descriptors of sockets, and the calls of `tcp_connect` that have not counted
their SYN, by socket and connection. History: the sockets made so far, and the sockets whose
descriptors the application got for a connection. -/
structure NetState where
  conns : Nat → TcpConn
  socks : Nat → Sock
  fds : List SockFd
  pending : List (Nat × Nat)
  serials : Nat
  owners : Nat → List Nat

def netBoot : NetState := ⟨fun _ => zeroConn, fun _ => zeroSock, [], [], 0, fun _ => []⟩

def NetState.setConn (s : NetState) (i : Nat) (c : TcpConn) : NetState :=
  { s with conns := update s.conns i c }

def NetState.setSock (s : NetState) (k : Nat) (sock : Sock) : NetState :=
  { s with socks := update s.socks k sock }

def tcpFind (s : NetState) (g : Segment) : Option Nat :=
  (List.range tcpMaxConns).find? fun i =>
    decide ((s.conns i).state ≠ .closed ∧ (s.conns i).remoteIp = g.srcIp ∧
      (s.conns i).remotePort = g.srcPort ∧ (s.conns i).localIp = g.dstIp ∧
      (s.conns i).localPort = g.dstPort)

def tcpFindListener (s : NetState) (g : Segment) : Option Nat :=
  (List.range tcpMaxConns).find? fun i =>
    decide ((s.conns i).state = .listen ∧ (s.conns i).localPort = g.dstPort ∧
      ((s.conns i).localIp = 0 ∨ (s.conns i).localIp = g.dstIp))

def tcpAlloc (s : NetState) : Option Nat :=
  (List.range tcpMaxConns).find? fun i => decide ((s.conns i).state = .closed)

def sockAlloc (s : NetState) : Option Nat :=
  (List.range sockTableSize).find? fun k => decide ((s.socks k).state = .free)

def getProcSock (s : NetState) (fd : Nat) : Option SockFd :=
  s.fds[fd]?.filter fun f => decide ((s.socks f.sockId).state ≠ .free)

/-! ### System calls -/

def sysSocket (s : NetState) (stream opens : Bool) : NetState :=
  match sockAlloc s with
  | none => s
  | some k =>
    if opens then
      { s.setSock k (freshSock .created stream 0 sockNone) with
        fds := s.fds ++ [⟨k, s.serials⟩], serials := s.serials + 1 }
    else s.setSock k (freshSock .free stream 0 sockNone)

def sysBind (s : NetState) (fd port : Nat) : NetState :=
  match getProcSock s fd with
  | none => s
  | some f =>
    if port = 0 then s
    else s.setSock f.sockId { s.socks f.sockId with localPort := port, state := .bound }

def sysListen (s : NetState) (fd : Nat) : NetState :=
  match getProcSock s fd with
  | none => s
  | some f =>
    let sock := s.socks f.sockId
    if sock.stream = false ∨ sock.state = .created then s
    else
      let listening := s.setSock f.sockId { sock with state := .listening }
      match tcpAlloc s with
      | none => listening
      | some i =>
        { listening.setConn i (listenConn sock.localPort f.sockId) with
          owners := update s.owners i [f.serial] }

def sysConnect (s : NetState) (fd now myIp dstIp dstPort : Nat) : NetState :=
  match getProcSock s fd with
  | none => s
  | some f =>
    if (s.socks f.sockId).stream = false then
      s.setSock f.sockId { s.socks f.sockId with state := .connected }
    else
      match tcpAlloc s with
      | none => s
      | some i =>
        { s.setConn i (connectConn now myIp f.sockId dstIp dstPort) with
          pending := s.pending ++ [(f.sockId, i)]
          owners := update s.owners i [f.serial] }

def connectSent (s : NetState) (k i now : Nat) : NetState :=
  { (s.setConn i ((s.conns i).countSyn now)).setSock k
      { s.socks k with tcpConnId := i, state := .connecting } with
    pending := s.pending.erase (k, i) }

inductive AcceptOutcome
  | opened
  | badAddress
  | noDescriptor
  deriving DecidableEq

/-- `sys_accept` for a queued connection; with none it waits or returns. -/
def sysAccept (s : NetState) (fd : Nat) (outcome : AcceptOutcome) : NetState :=
  match getProcSock s fd with
  | none => s
  | some f =>
    let ls := s.socks f.sockId
    if ls.state ≠ .listening ∨ ls.acceptHead = ls.acceptTail then s
    else
      let i := ls.acceptQueue ls.acceptHead
      let popped := s.setSock f.sockId ls.popped
      match sockAlloc s with
      | none => popped
      | some k =>
        let linked := popped.setConn i { s.conns i with sockId := k }
        match outcome with
        | .opened =>
          { linked.setSock k (freshSock .connected true (s.conns i).localPort i) with
            fds := s.fds ++ [⟨k, s.serials⟩]
            serials := s.serials + 1
            owners := update s.owners i (s.serials :: s.owners i) }
        | .badAddress => linked.setSock k (freshSock .connected true (s.conns i).localPort i)
        | .noDescriptor => linked.setSock k (freshSock .free true (s.conns i).localPort i)

def sysDup (s : NetState) (fd : Nat) : NetState := { s with fds := s.fds ++ s.fds[fd]?.toList }

def sysShutdown (s : NetState) (fd : Nat) : NetState :=
  match getProcSock s fd with
  | none => s
  | some f =>
    let sock := s.socks f.sockId
    if sock.stream = true ∧ sock.tcpConnId < tcpMaxConns then
      (s.setConn sock.tcpConnId (s.conns sock.tcpConnId).close.1).setSock f.sockId
        { sock with state := .closed }
    else s.setSock f.sockId { sock with state := .closed }

/-- `sock_vfs_close`: every descriptor that is closed frees the socket. -/
def sockVfsClose (s : NetState) (fd : Nat) : NetState :=
  match s.fds[fd]? with
  | none => s
  | some f =>
    { s.setSock f.sockId { s.socks f.sockId with state := .free } with fds := s.fds.erase f }

/-! ### Segments and the timer -/

def markConnected (socks : Nat → Sock) : Option Nat → Nat → Sock
  | some k =>
    if (socks k).state = .free then socks
    else update socks k { socks k with state := .connected }
  | none => socks

/-- The queue of a listening socket gets a connection if it is not full. -/
def queueAccepted (socks : Nat → Sock) (i : Nat) : Option Nat → Nat → Sock
  | some k =>
    let ls := socks k
    let nextTail := (ls.acceptTail + 1) % 8
    if ls.state = .free ∨ nextTail = ls.acceptHead then socks
    else update socks k
      { ls with acceptQueue := update ls.acceptQueue ls.acceptTail i, acceptTail := nextTail }
  | none => socks

/-- What `tcp_rx` does to the sockets after it releases its lock. -/
def afterRx (socks : Nat → Sock) (i : Nat) (r : RxResult) : Nat → Sock :=
  queueAccepted (markConnected socks r.connected) i r.accepted

def tcpRx (s : NetState) (now : Nat) (g : Segment) : NetState :=
  match tcpFind s g with
  | some i =>
    let r := (s.conns i).rx now g
    { s.setConn i r.conn with socks := afterRx s.socks i r }
  | none =>
    if g.flags.syn then
      match tcpFindListener s g, tcpAlloc s with
      | some l, some i =>
        { s.setConn i (passiveOpen now g (s.conns l).sockId).1 with
          owners := update s.owners i [] }
      | _, _ => s
    else s

/-- The loop of `tcp_tick` from a slot on; it ends when a connection with a socket is given up. -/
def tickFrom (now : Nat) : Nat → Nat → (Nat → TcpConn) → Nat → TcpConn
  | 0, _, conns => conns
  | n + 1, i, conns =>
    let r := (conns i).tick now
    if r.returns then update conns i r.conn
    else tickFrom now n (i + 1) (update conns i r.conn)

def tcpTick (s : NetState) (now : Nat) : NetState :=
  { s with conns := tickFrom now tcpMaxConns 0 s.conns }

inductive NetEvent
  | socket (stream opens : Bool)
  | bind (fd port : Nat)
  | listen (fd : Nat)
  | connect (fd now myIp dstIp dstPort : Nat)
  | connectSent (k i now : Nat)
  | accept (fd : Nat) (outcome : AcceptOutcome)
  | dup (fd : Nat)
  | shutdown (fd : Nat)
  | close (fd : Nat)
  | rx (now : Nat) (g : Segment)
  | tick (now : Nat)

instance lawfulPair : LawfulBEq (Nat × Nat) := inferInstance

def netStep (s : NetState) : NetEvent → Option NetState
  | .socket stream opens => some (sysSocket s stream opens)
  | .bind fd port => some (sysBind s fd port)
  | .listen fd => some (sysListen s fd)
  | .connect fd now myIp dstIp dstPort => some (sysConnect s fd now myIp dstIp dstPort)
  | .connectSent k i now => if (k, i) ∈ s.pending then some (connectSent s k i now) else none
  | .accept fd outcome => some (sysAccept s fd outcome)
  | .dup fd => some (sysDup s fd)
  | .shutdown fd => some (sysShutdown s fd)
  | .close fd => some (sockVfsClose s fd)
  | .rx now g => some (tcpRx s now g)
  | .tick now => some (tcpTick s now)

end Aegis.Tcp
