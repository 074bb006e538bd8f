import Aegis.TcpTable

/-! How the tables of connections and sockets refer to each other over whole runs: addresses and
ports are unique, sockets and connections are linked, and connections without descriptors are on
their way out. Each holds as long as the step that breaks it is not taken. -/

namespace Aegis.Tcp

open LabelledRun Function List Option

/-! ### What should hold -/

def TcpConn.Active (c : TcpConn) : Prop := c.state ≠ .closed ∧ c.state ≠ .listen
  deriving Decidable

def Apart {α : Type*} (n : Nat) (P : α → Prop) (R : α → α → Prop) (table : Nat → α) : Prop :=
  ∀ i < n, ∀ j < n, P (table i) → P (table j) → R (table i) (table j) → i = j

structure SameTuple (c d : TcpConn) : Prop where
  localIp : d.localIp = c.localIp
  remoteIp : d.remoteIp = c.remoteIp
  localPort : d.localPort = c.localPort
  remotePort : d.remotePort = c.remotePort

instance (c d : TcpConn) : Decidable (SameTuple c d) :=
  decidable_of_iff (d.localIp = c.localIp ∧ d.remoteIp = c.remoteIp ∧ d.localPort = c.localPort ∧
      d.remotePort = c.remotePort)
    ⟨fun ⟨a, b, c, d⟩ => ⟨a, b, c, d⟩, fun ⟨a, b, c, d⟩ => ⟨a, b, c, d⟩⟩

def TuplesApart (s : NetState) : Prop := Apart tcpMaxConns TcpConn.Active SameTuple s.conns

def PortsApart (s : NetState) : Prop :=
  Apart tcpMaxConns (fun c => c.state = .listen) (fun c d => c.localPort = d.localPort) s.conns

def Sock.Refers (sock : Sock) (i : Nat) : Prop :=
  sock.state ≠ .free ∧ sock.stream = true ∧ sock.tcpConnId = i
  deriving Decidable

/-- The socket is live and refers to the connection, and no other one does. -/
def LinkedTo (s : NetState) (i k : Nat) : Prop :=
  (s.socks k).Refers i ∧ ∀ other < sockTableSize, (s.socks other).Refers i → other = k

instance (s : NetState) (i k : Nat) : Decidable (LinkedTo s i k) :=
  inferInstanceAs (Decidable (_ ∧ _))

/-- The socket of a connection is none, or the one that refers to it, or its connect is not over
yet. -/
def LinkedAt (s : NetState) (i : Nat) : Prop :=
  (s.conns i).sockId = sockNone ∨ LinkedTo s i (s.conns i).sockId ∨
    ((s.conns i).sockId, i) ∈ s.pending
  deriving Decidable

def SocksLinked (s : NetState) : Prop :=
  ∀ i < tcpMaxConns, (s.conns i).state ≠ .closed → LinkedAt s i

/-- The application had descriptors for the connection and has closed them all. -/
def Orphan (s : NetState) (i : Nat) : Prop :=
  s.owners i ≠ [] ∧ ∀ f ∈ s.fds, f.serial ∉ s.owners i
  deriving Decidable

/-- The states that a connection without descriptors must not be in. -/
def TcpState.lasting : TcpState → Bool
  | .listen | .established | .closeWait => true
  | _ => false

def OrphansLeave (s : NetState) : Prop :=
  ∀ i < tcpMaxConns, Orphan s i → (s.conns i).state.lasting = false

/-! ### Conditions on the steps -/

section
variable (s : NetState)

/-- The descriptor and the slot with which a call of listen gets to `tcp_listen`. -/
def listenSlot (fd : Nat) : Option (SockFd × Nat) :=
  match getProcSock s fd with
  | none => none
  | some f =>
    if (s.socks f.sockId).stream = false ∨ (s.socks f.sockId).state = .created then none
    else (tcpAlloc s).map fun i => (f, i)

/-- The descriptor and the slot with which a call of connect gets to `tcp_connect`. -/
def connectSlot (fd : Nat) : Option (SockFd × Nat) :=
  match getProcSock s fd with
  | none => none
  | some f =>
    if (s.socks f.sockId).stream = false then none else (tcpAlloc s).map fun i => (f, i)

/-- The port that the clock gives to a connect makes its addresses and ports new. -/
def NewTuple : NetEvent → Prop
  | .connect fd now myIp dstIp dstPort =>
    ∀ p ∈ connectSlot s fd, ∀ i < tcpMaxConns, (s.conns i).Active →
      ¬ SameTuple (s.conns i) (connectConn now myIp p.1.sockId dstIp dstPort)
  | _ => True

def NewPort : NetEvent → Prop
  | .listen fd =>
    ∀ p ∈ listenSlot s fd, ∀ i < tcpMaxConns, (s.conns i).state = .listen →
      (s.conns i).localPort ≠ (s.socks p.1.sockId).localPort
  | _ => True

def synSlot (g : Segment) : Option Nat :=
  if tcpFind s g = none ∧ g.flags.syn = true ∧ tcpFindListener s g ≠ none then tcpAlloc s else none

def acceptedConn (fd : Nat) : Option Nat :=
  match getProcSock s fd with
  | none => none
  | some f =>
    let ls := s.socks f.sockId
    if ls.state ≠ .listening ∨ ls.acceptHead = ls.acceptTail then none
    else if sockAlloc s = none then none
    else some (ls.acceptQueue ls.acceptHead)

/-- Listening and a SYN for a listener (which leaves socket 0 in the connection) take a slot that
the socket refers to already; a connection is accepted that no socket refers to, and there is a
descriptor for it; no connection is left that has the socket which is closed, or whose socket
connects again. -/
def KeepsLinks : NetEvent → Prop
  | .listen fd => ∀ p ∈ listenSlot s fd, LinkedTo s p.2 p.1.sockId
  | .rx _ g => ∀ i ∈ synSlot s g, LinkedTo s i 0 ∨ (0, i) ∈ s.pending
  | .accept fd outcome =>
    ∀ i ∈ acceptedConn s fd, (s.conns i).state ≠ .closed →
      outcome ≠ .noDescriptor ∧ ∀ k < sockTableSize, ¬ (s.socks k).Refers i
  | .connectSent k i _ =>
    (∀ j < tcpMaxConns, (s.conns j).state ≠ .closed → (s.conns j).sockId = k → j = i) ∧
      ((s.conns i).state ≠ .closed → (s.conns i).sockId = k ∧ (s.socks k).stream = true ∧
        ∀ other < sockTableSize, (s.socks other).Refers i → other = k)
  | .close fd =>
    ∀ f ∈ s.fds[fd]?, ∀ i < tcpMaxConns,
      (s.conns i).state ≠ .closed ∧ (s.conns i).sockId = f.sockId → (f.sockId, i) ∈ s.pending
  | _ => True

def LastFor (f : SockFd) (i : Nat) : Prop :=
  f.serial ∈ s.owners i ∧ ∀ other ∈ s.fds.erase f, other.serial ∉ s.owners i
  deriving Decidable

/-- The last descriptor of a connection is closed only when it is in none of these states, and
afterwards no handshake is completed. -/
def LeavesFirst : NetEvent → Prop
  | .close fd =>
    ∀ f ∈ s.fds[fd]?, ∀ i < tcpMaxConns, LastFor s f i → (s.conns i).state.lasting = false
  | .rx _ g => ∀ i ∈ tcpFind s g, Orphan s i → ¬ Completes (s.conns i) g
  | _ => True

end

section
variable {s t : NetState} {event : NetEvent} {c d : TcpConn} {i k fd now : Nat} {f : SockFd}
  {g : Segment}

/-! ### Slots that are apart -/

section
variable {α : Type*} {n : Nat} {P : α → Prop} {R : α → α → Prop} {table : Nat → α}

theorem Apart.mono {after : Nat → α} (ha : Apart n P R table) (hh : ∀ i, P (after i) → P (table i))
    (hr : ∀ i j, R (after i) (after j) → R (table i) (table j)) : Apart n P R after :=
  fun i hi j hj h1 h2 eq =>
    ha i hi j hj (hh i h1) (hh j h2) (hr i j eq)

theorem Apart.update {slot : Nat} {new : α} (ha : Apart n P R table) (symm : ∀ x y, R x y → R y x)
    (hf : P new → ∀ i < n, P (table i) → ¬ R (table i) new) :
    Apart n P R (update table slot new) := by
  intro i hi j hj h1 h2 eq
  by_cases left : i = slot <;> by_cases right : j = slot
  · rw [left, right]
  · rw [left, update_self] at h1 eq
    rw [update_of_ne right] at h2 eq
    exact absurd (symm _ _ eq) (hf h1 j hj h2)
  · rw [update_of_ne left] at h1 eq
    rw [right, update_self] at h2 eq
    exact absurd eq (hf h2 i hi h1)
  · rw [update_of_ne left] at h1 eq
    rw [update_of_ne right] at h2 eq
    exact ha i hi j hj h1 h2 eq

end

theorem sockAlloc_free (slot : sockAlloc s = some k) : (s.socks k).state = .free := by
  have free := find?_some slot
  exact of_decide_eq_true free

theorem getProcSock_live (hf : getProcSock s fd = some f) :
    f ∈ s.fds ∧ (s.socks f.sockId).state ≠ .free := by
  obtain ⟨hp, live⟩ := filter_eq_some_iff.mp hf
  exact ⟨mem_of_getElem? hp, of_decide_eq_true live⟩

theorem tcpFind_none (none : tcpFind s g = none) (lt : i < tcpMaxConns)
    (ho : (s.conns i).state ≠ .closed) (hm : (s.conns i).remoteIp = g.srcIp)
    (hr : (s.conns i).remotePort = g.srcPort) (hc : (s.conns i).localIp = g.dstIp) :
    (s.conns i).localPort ≠ g.dstPort := by
  intro hl
  have hf := find?_eq_none.mp none i (mem_range.mpr lt)
  exact hf (decide_eq_true ⟨ho, hm, hr, hc, hl⟩)

/-! ### What the calls do -/

theorem sysListen_cases (s : NetState) (fd : Nat) :
    sysListen s fd = s ∨ ∃ f, getProcSock s fd = some f ∧
      (sysListen s fd = s.setSock f.sockId { s.socks f.sockId with state := .listening } ∨
        ∃ i, listenSlot s fd = some (f, i) ∧ sysListen s fd =
          { (s.setSock f.sockId { s.socks f.sockId with state := .listening }).setConn i
              (listenConn (s.socks f.sockId).localPort f.sockId) with
            owners := update s.owners i [f.serial] }) := by
  rw [sysListen, listenSlot]
  cases hf : getProcSock s fd with
  | none => exact .inl rfl
  | some f =>
    dsimp only
    split
    · exact .inl rfl
    refine .inr ⟨f, rfl, ?_⟩
    cases tcpAlloc s with
    | none => exact .inl rfl
    | some i => exact .inr ⟨i, rfl, rfl⟩

theorem sysConnect_cases (s : NetState) (fd now myIp dstIp dstPort : Nat) :
    sysConnect s fd now myIp dstIp dstPort = s ∨ ∃ f, getProcSock s fd = some f ∧
      (sysConnect s fd now myIp dstIp dstPort =
          s.setSock f.sockId { s.socks f.sockId with state := .connected } ∨
        ∃ i, connectSlot s fd = some (f, i) ∧ sysConnect s fd now myIp dstIp dstPort =
          { s.setConn i (connectConn now myIp f.sockId dstIp dstPort) with
            pending := s.pending ++ [(f.sockId, i)]
            owners := update s.owners i [f.serial] }) := by
  rw [sysConnect, connectSlot]
  cases hf : getProcSock s fd with
  | none => exact .inl rfl
  | some f =>
    dsimp only
    split
    · exact .inr ⟨f, rfl, .inl rfl⟩
    cases tcpAlloc s with
    | none => exact .inl rfl
    | some i => exact .inr ⟨f, rfl, .inr ⟨i, rfl, rfl⟩⟩

def acceptedSock (s : NetState) (i : Nat) (outcome : AcceptOutcome) : Sock :=
  freshSock (if outcome = .noDescriptor then .free else .connected) true (s.conns i).localPort i

theorem sysAccept_cases (s : NetState) (fd : Nat) (outcome : AcceptOutcome) :
    sysAccept s fd outcome = s ∧ acceptedConn s fd = none ∨ ∃ f, getProcSock s fd = some f ∧
      ((s.socks f.sockId).state = .listening ∧
        (s.socks f.sockId).acceptHead ≠ (s.socks f.sockId).acceptTail) ∧
      (sysAccept s fd outcome = s.setSock f.sockId (s.socks f.sockId).popped ∨
        ∃ i k, acceptedConn s fd = some i ∧ sockAlloc s = some k ∧ (sysAccept s fd outcome).conns =
            update s.conns i { s.conns i with sockId := k } ∧
          (sysAccept s fd outcome).socks = update (update s.socks f.sockId
            (s.socks f.sockId).popped) k (acceptedSock s i outcome) ∧
          (sysAccept s fd outcome).pending = s.pending ∧
          ((sysAccept s fd outcome).fds = s.fds ∧ (sysAccept s fd outcome).owners = s.owners ∨
            (sysAccept s fd outcome).fds = s.fds ++ [⟨k, s.serials⟩] ∧
              (sysAccept s fd outcome).owners = update s.owners i (s.serials :: s.owners i))) := by
  rw [sysAccept, acceptedConn]
  cases found : getProcSock s fd with
  | none => exact .inl ⟨rfl, rfl⟩
  | some f =>
    dsimp only
    split
    · exact .inl ⟨rfl, rfl⟩
    next waits =>
    refine .inr ⟨f, rfl, by simpa using waits, ?_⟩
    cases slot : sockAlloc s with
    | none => exact .inl rfl
    | some k =>
      refine .inr ⟨_, k, rfl, rfl, ?_⟩
      cases outcome with
      | opened => exact ⟨rfl, rfl, rfl, .inr ⟨rfl, rfl⟩⟩
      | badAddress | noDescriptor => exact ⟨rfl, rfl, rfl, .inl ⟨rfl, rfl⟩⟩

theorem tcpRx_cases (s : NetState) (now : Nat) (g : Segment) :
    (∃ i, tcpFind s g = some i ∧ tcpRx s now g = { s.setConn i ((s.conns i).rx now g).conn with
          socks := afterRx s.socks i ((s.conns i).rx now g) }) ∨
      tcpFind s g = none ∧ (tcpRx s now g = s ∨ ∃ i listenerId, synSlot s g = some i ∧
        tcpRx s now g = { s.setConn i (passiveOpen now g listenerId).1 with
          owners := update s.owners i [] }) := by
  rw [tcpRx, synSlot]
  cases hf : tcpFind s g with
  | some i => exact .inl ⟨i, rfl, rfl⟩
  | none =>
    refine .inr ⟨rfl, ?_⟩
    cases syn : g.flags.syn with
    | false => exact .inl rfl
    | true =>
      cases hl : tcpFindListener s g with
      | none => exact .inl rfl
      | some l =>
        cases slot : tcpAlloc s with
        | none => exact .inl rfl
        | some i => exact .inr ⟨i, (s.conns l).sockId, rfl, rfl⟩

/-! ### What a step does to the connections -/

/-- A connection that is not opened by the step: its ends stay, and it does not begin to listen. -/
structure Calms (c d : TcpConn) : Prop where
  tuple : SameTuple c d
  state : d.state = c.state ∨ d.state = .closed ∨ c.Active ∧ d.state ≠ .listen

theorem Calms.refl (c : TcpConn) : Calms c c := ⟨⟨rfl, rfl, rfl, rfl⟩, .inl rfl⟩

theorem Calms.active (hl : Calms c d) (ha : d.Active) : c.Active := by
  rcases hl.state with eq | hc | ⟨pre, -⟩
  · rw [TcpConn.Active, eq] at ha
    exact ha
  · exact absurd hc ha.1
  · exact pre

theorem Calms.listen (ha : Calms c d) (hl : d.state = .listen) : c.state = .listen := by
  rcases ha.state with eq | hc | ⟨-, other⟩
  · exact eq.symm.trans hl
  · rw [hc] at hl
    cases hl
  · exact absurd hl other

theorem Calms.update {conns : Nat → TcpConn} (hc : Calms (conns i) d) (j : Nat) :
    Calms (conns j) (update conns i d j) := by
  by_cases here : j = i
  · rw [here, update_self]
    exact hc
  · rw [update_of_ne here]
    exact .refl _

theorem SameEnds.tuple (ends : SameEnds c d) : SameTuple c d :=
  ⟨ends.localIp, ends.remoteIp, ends.localPort, ends.remotePort⟩

theorem next_active {a b : TcpState} (next : a.next b = true) :
    a ≠ .closed ∧ a ≠ .listen ∧ b ≠ .listen := by
  revert next
  cases a <;> cases b <;> decide

theorem rx_calms (now : Nat) (c : TcpConn) (g : Segment) : Calms c (c.rx now g).conn := by
  have hm := rx_moves now c g
  refine ⟨hm.ends.tuple, hm.next.imp_right fun next => .inr ?_⟩
  obtain ⟨ho, other, last⟩ := next_active next
  exact ⟨⟨ho, other⟩, last⟩

theorem tick_ends (now : Nat) (c : TcpConn) : SameEnds c (c.tick now).conn ∧
      ((c.tick now).conn.state = c.state ∨ (c.tick now).conn.state = .closed) := by
  rcases tick_conn now c with conn | conn | conn <;> rw [conn]
  · exact ⟨.refl c, .inl rfl⟩
  · exact ⟨⟨rfl, rfl, rfl, rfl, rfl⟩, .inr rfl⟩
  · exact ⟨⟨rfl, rfl, rfl, rfl, rfl⟩, .inl rfl⟩

theorem tickFrom_conn (now n : Nat) (h1 : Nat) (conns : Nat → TcpConn) (i : Nat) :
    tickFrom now n h1 conns i = conns i ∨
      tickFrom now n h1 conns i = ((conns i).tick now).conn ∧ h1 ≤ i := by
  induction n generalizing h1 conns with
  | zero => exact .inl rfl
  | succ n ih =>
    rw [tickFrom]
    split
    · by_cases here : i = h1
      · rw [here, update_self]
        exact .inr ⟨rfl, le_refl _⟩
      · rw [update_of_ne here]
        exact .inl rfl
    · rcases ih (h1 + 1) (update conns h1 ((conns h1).tick now).conn) with
        eq | ⟨ht, hl⟩
      · rw [eq]
        by_cases here : i = h1
        · rw [here, update_self]
          exact .inr ⟨rfl, le_refl _⟩
        · rw [update_of_ne here]
          exact .inl rfl
      · rw [ht, update_of_ne (by omega)]
        exact .inr ⟨rfl, by omega⟩

inductive Opens (s : NetState) : NetEvent → TcpConn → Prop
  | listen {fd i : Nat} {f : SockFd} (slot : listenSlot s fd = some (f, i)) :
      Opens s (.listen fd) (listenConn (s.socks f.sockId).localPort f.sockId)
  | connect {fd i now myIp dstIp dstPort : Nat} {f : SockFd}
      (slot : connectSlot s fd = some (f, i)) :
      Opens s (.connect fd now myIp dstIp dstPort) (connectConn now myIp f.sockId dstIp dstPort)
  | syn {now listenerId : Nat} {g : Segment} (none : tcpFind s g = none) :
      Opens s (.rx now g) (passiveOpen now g listenerId).1

inductive ConnsMove (s : NetState) : NetEvent → NetState → Prop
  | calm {event : NetEvent} {t : NetState} (calms : ∀ i, Calms (s.conns i) (t.conns i))
      (lasts : ∀ i, (t.conns i).state.lasting = true → (s.conns i).state.lasting = true)
      (orphans : ∀ i, Orphan t i → Orphan s i) : ConnsMove s event t
  | rx {now i : Nat} {g : Segment} {t : NetState} (found : tcpFind s g = some i)
      (conns : t.conns = update s.conns i ((s.conns i).rx now g).conn)
      (owners : t.owners = s.owners) (fds : t.fds = s.fds) : ConnsMove s (.rx now g) t
  | close {fd : Nat} {f : SockFd} {t : NetState} (found : s.fds[fd]? = some f)
      (conns : t.conns = s.conns) (owners : t.owners = s.owners) (fds : t.fds = s.fds.erase f) :
      ConnsMove s (.close fd) t
  | fills {event : NetEvent} {t : NetState} {i : Nat} {c : TcpConn} (opens : Opens s event c)
      (conns : t.conns = update s.conns i c)
      (orphans : ∀ j, Orphan t j → j ≠ i ∧ Orphan s j) : ConnsMove s event t

theorem orphan_same (owners : t.owners = s.owners) (fds : ∀ f ∈ s.fds, f ∈ t.fds) (j : Nat)
    (ho : Orphan t j) : Orphan s j := by
  rw [Orphan, owners] at ho
  exact ⟨ho.1, fun f held => ho.2 f (fds f held)⟩

theorem orphan_filled {how : List Nat} (held : how = [] ∨ ∃ f ∈ t.fds, f.serial ∈ how)
    (owners : t.owners = update s.owners i how) (fds : ∀ f ∈ s.fds, f ∈ t.fds) (j : Nat)
    (ho : Orphan t j) : j ≠ i ∧ Orphan s j := by
  rw [Orphan, owners] at ho
  by_cases here : j = i
  · rw [here, update_self] at ho
    rcases held with none | ⟨f, held, owns⟩
    · exact absurd none ho.1
    · exact absurd owns (ho.2 f held)
  · rw [update_of_ne here] at ho
    exact ⟨here, ho.1, fun f held => ho.2 f (fds f held)⟩

theorem ConnsMove.same (conns : t.conns = s.conns) (owners : t.owners = s.owners)
    (fds : ∀ f ∈ s.fds, f ∈ t.fds) : ConnsMove s event t := by
  refine .calm (fun i => ?_) (fun i => ?_) (orphan_same owners fds) <;> rw [conns]
  · exact .refl _
  · exact id

theorem ConnsMove.one (conns : t.conns = update s.conns i d) (hc : Calms (s.conns i) d)
    (hl : d.state.lasting = true → (s.conns i).state.lasting = true)
    (ho : ∀ j, Orphan t j → Orphan s j) : ConnsMove s event t := by
  refine .calm (fun j => ?_) (fun j => ?_) ho <;> rw [conns]
  · exact hc.update j
  by_cases here : j = i
  · rw [here, update_self]
    exact hl
  · rw [update_of_ne here]
    exact id

theorem sysSocket_moves {stream ho : Bool} :
    ConnsMove s (.socket stream ho) (sysSocket s stream ho) := by
  rw [sysSocket]
  cases sockAlloc s with
  | none => exact .same rfl rfl fun _ => id
  | some k =>
    cases ho with
    | true => exact .same rfl rfl fun f held => mem_append_left _ held
    | false => exact .same rfl rfl fun _ => id

theorem sysBind_moves {port : Nat} : ConnsMove s (.bind fd port) (sysBind s fd port) := by
  rw [sysBind]
  cases getProcSock s fd with
  | none => exact .same rfl rfl fun _ => id
  | some f =>
    dsimp only
    split <;> exact .same rfl rfl fun _ => id

theorem sysListen_moves : ConnsMove s (.listen fd) (sysListen s fd) := by
  obtain eq | ⟨f, hf, hl | ⟨i, slot, ho⟩⟩ := sysListen_cases s fd
  · rw [eq]
    exact .same rfl rfl fun _ => id
  · rw [hl]
    exact .same rfl rfl fun _ => id
  · have held : ∃ f' ∈ s.fds, f'.serial ∈ [f.serial] :=
      ⟨f, (getProcSock_live hf).1, .head _⟩
    rw [ho]
    exact .fills (.listen slot) rfl (orphan_filled (.inr held) rfl fun _ => id)

theorem sysConnect_moves {myIp dstIp dstPort : Nat} :
    ConnsMove s (.connect fd now myIp dstIp dstPort) (sysConnect s fd now myIp dstIp dstPort) := by
  obtain eq | ⟨f, hf, dgram | ⟨i, slot, ho⟩⟩ := sysConnect_cases s fd now myIp dstIp dstPort
  · rw [eq]
    exact .same rfl rfl fun _ => id
  · rw [dgram]
    exact .same rfl rfl fun _ => id
  have held : ∃ f' ∈ s.fds, f'.serial ∈ [f.serial] :=
    ⟨f, (getProcSock_live hf).1, .head _⟩
  rw [ho]
  exact .fills (.connect slot) rfl (orphan_filled (.inr held) rfl fun _ => id)

theorem sysAccept_moves {outcome : AcceptOutcome} :
    ConnsMove s (.accept fd outcome) (sysAccept s fd outcome) := by
  obtain ⟨eq, -⟩ | ⟨f, -, -, hp | ⟨i, k, -, -, conns, -, -, how⟩⟩ := sysAccept_cases s fd outcome
  · rw [eq]
    exact .same rfl rfl fun _ => id
  · rw [hp]
    exact .same rfl rfl fun _ => id
  refine .one conns ⟨⟨rfl, rfl, rfl, rfl⟩, .inl rfl⟩ id ?_
  rcases how with ⟨fds, owners⟩ | ⟨fds, owners⟩
  · exact orphan_same owners (by rw [fds]; exact fun _ => id)
  have held : ∃ f ∈ (sysAccept s fd outcome).fds, f.serial ∈ s.serials :: s.owners i := by
    rw [fds]
    exact ⟨⟨k, s.serials⟩, mem_append_right _ mem_cons_self, mem_cons_self⟩
  have more : ∀ f ∈ s.fds, f ∈ (sysAccept s fd outcome).fds := by
    rw [fds]
    exact fun _ => mem_append_left _
  exact fun j ho => (orphan_filled (.inr held) owners more j ho).2

theorem sysShutdown_moves : ConnsMove s (.shutdown fd) (sysShutdown s fd) := by
  rw [sysShutdown]
  cases getProcSock s fd with
  | none => exact .same rfl rfl fun _ => id
  | some f =>
    dsimp only
    split
    · rcases close_conn (s.conns (s.socks f.sockId).tcpConnId) with ⟨state, conn⟩ | ⟨-, conn⟩ <;>
        rw [conn]
      · refine .one rfl ⟨⟨rfl, rfl, rfl, rfl⟩, .inr (.inr ⟨?_, nofun⟩)⟩ nofun
          (orphan_same rfl fun _ => id)
        rw [TcpConn.Active, state]
        decide
      · exact .one rfl (.refl _) id (orphan_same rfl fun _ => id)
    · exact .same rfl rfl fun _ => id

theorem sockVfsClose_moves : ConnsMove s (.close fd) (sockVfsClose s fd) := by
  rw [sockVfsClose]
  cases hf : s.fds[fd]? with
  | none => exact .same rfl rfl fun _ => id
  | some f => exact .close hf rfl rfl rfl

theorem tcpRx_moves : ConnsMove s (.rx now g) (tcpRx s now g) := by
  obtain ⟨i, hf, hr⟩ | ⟨none, eq | ⟨i, hl, -, hr⟩⟩ := tcpRx_cases s now g
  · rw [hr]
    exact .rx hf rfl rfl rfl
  · rw [eq]
    exact .same rfl rfl fun _ => id
  · rw [hr]
    exact .fills (.syn none) rfl (orphan_filled (.inl rfl) rfl fun _ => id)

theorem tcpTick_moves : ConnsMove s (.tick now) (tcpTick s now) := by
  refine .calm (fun i => ?_) (fun i => ?_) fun i => id
  all_goals
    rw [tcpTick]
    dsimp only
    obtain ⟨ends, state⟩ := tick_ends now (s.conns i)
    rcases tickFrom_conn now tcpMaxConns 0 s.conns i with eq | ⟨ht, -⟩
  · rw [eq]
    exact .refl _
  · rw [ht]
    exact ⟨ends.tuple, state.imp_right .inl⟩
  · rw [eq]
    exact id
  rw [ht]
  rcases state with eq | hc
  · rw [eq]
    exact id
  · rw [hc]
    exact nofun

theorem conns_move (hs : netStep s event = some t) : ConnsMove s event t := by
  cases event with
  | socket => exact some.inj hs ▸ sysSocket_moves
  | bind => exact some.inj hs ▸ sysBind_moves
  | listen => exact some.inj hs ▸ sysListen_moves
  | connect => exact some.inj hs ▸ sysConnect_moves
  | connectSent k i now =>
    rw [netStep] at hs
    split at hs
    · cases hs
      exact .one rfl ⟨⟨rfl, rfl, rfl, rfl⟩, .inl rfl⟩ id (orphan_same rfl fun _ => id)
    · cases hs
  | accept => exact some.inj hs ▸ sysAccept_moves
  | dup fd =>
    cases hs
    exact .same rfl rfl fun f held => mem_append_left _ held
  | shutdown => exact some.inj hs ▸ sysShutdown_moves
  | close => exact some.inj hs ▸ sockVfsClose_moves
  | rx => exact some.inj hs ▸ tcpRx_moves
  | tick => exact some.inj hs ▸ tcpTick_moves

/-! ### Addresses and ports -/

theorem SameTuple.symm (eq : SameTuple c d) : SameTuple d c :=
  ⟨eq.localIp.symm, eq.remoteIp.symm, eq.localPort.symm, eq.remotePort.symm⟩

theorem SameTuple.trans {e : TcpConn} (h1 : SameTuple c d) (h2 : SameTuple d e) : SameTuple c e :=
  ⟨h2.localIp.trans h1.localIp, h2.remoteIp.trans h1.remoteIp,
    h2.localPort.trans h1.localPort, h2.remotePort.trans h1.remotePort⟩

theorem TuplesApart.calm (ha : TuplesApart s) (hc : ∀ i, Calms (s.conns i) (t.conns i)) :
    TuplesApart t :=
  Apart.mono ha (fun i => (hc i).active) fun i j same =>
    ((hc i).tuple.trans same).trans (hc j).tuple.symm

theorem PortsApart.calm (ha : PortsApart s) (hc : ∀ i, Calms (s.conns i) (t.conns i)) :
    PortsApart t :=
  Apart.mono ha (fun i => (hc i).listen) fun i j same =>
    (hc i).tuple.localPort.symm.trans (same.trans (hc j).tuple.localPort)

theorem ConnsMove.cases (hm : ConnsMove s event t) : (∀ i, Calms (s.conns i) (t.conns i)) ∨
      ∃ i c, Opens s event c ∧ t.conns = update s.conns i c := by
  cases hm with
  | calm hc => exact .inl hc
  | @rx now i g _ hf conns =>
    refine .inl fun j => ?_
    rw [conns]
    exact (rx_calms now (s.conns i) g).update j
  | close _ conns =>
    refine .inl fun j => ?_
    rw [conns]
    exact .refl _
  | fills ho conns => exact .inr ⟨_, _, ho, conns⟩

theorem tuples_step (ha : TuplesApart s) (new : NewTuple s event)
    (hs : netStep s event = some t) : TuplesApart t := by
  obtain hc | ⟨i, c, ho, conns⟩ := (conns_move hs).cases
  · exact ha.calm hc
  rw [TuplesApart, conns]
  refine Apart.update ha (fun _ _ => SameTuple.symm) fun active j small other same => ?_
  cases ho with
  | listen => exact active.2 rfl
  | connect slot => exact new _ slot j small other same
  | syn none =>
    exact tcpFind_none none small other.1 same.remoteIp.symm same.remotePort.symm
      same.localIp.symm same.localPort.symm

theorem ports_step (ha : PortsApart s) (new : NewPort s event)
    (hs : netStep s event = some t) : PortsApart t := by
  obtain hc | ⟨i, c, ho, conns⟩ := (conns_move hs).cases
  · exact ha.calm hc
  rw [PortsApart, conns]
  refine Apart.update ha (fun _ _ => Eq.symm) fun listens j small other same => ?_
  cases ho with
  | listen slot => exact new _ slot j small other same
  | connect => cases listens
  | syn => cases listens

/-! ### Connections without descriptors -/

theorem next_lasting {a b : TcpState} (next : a.next b = true) (hl : b.lasting = true) :
    b = .established ∨ a = .established := by
  revert next hl
  cases a <;> cases b <;> decide

theorem rx_lasting (hl : (c.rx now g).conn.state.lasting = true) :
    c.state.lasting = true ∨ Completes c g := by
  have hm := rx_moves now c g
  rcases hm.next with eq | next
  · rw [eq] at hl
    exact .inl hl
  have hr : c.state = .established ∨ Completes c g :=
    (next_lasting next hl).elim hm.opens .inl
  refine hr.imp_left fun state => ?_
  rw [state]
  rfl

theorem orphans_step (hl : OrphansLeave s) (h1 : LeavesFirst s event)
    (ht : netStep s event = some t) : OrphansLeave t := by
  intro j lt ho
  cases conns_move ht with
  | calm _ ha hr =>
    have gone := hl j lt (hr j ho)
    cases hs : (t.conns j).state.lasting with
    | false => rfl
    | true => exact (ha j hs).symm.trans gone
  | @rx now i g _ hf conns owners fds =>
    have pre : Orphan s j := orphan_same owners (fun f held => fds ▸ held) j ho
    rw [conns]
    by_cases here : j = i
    · rw [here, update_self]
      cases hs : ((s.conns i).rx now g).conn.state.lasting with
      | false => rfl
      | true =>
        rw [here] at pre lt
        rcases rx_lasting hs with ha | completes
        · exact ha.symm.trans (hl i lt pre)
        · exact absurd completes (h1 i hf pre)
    · rw [update_of_ne here]
      exact hl j lt pre
  | @close fd f _ hf conns owners fds =>
    rw [Orphan, owners, fds] at ho
    rw [conns]
    by_cases last : f.serial ∈ s.owners j
    · exact h1 f hf j lt ⟨last, ho.2⟩
    refine hl j lt ⟨ho.1, fun other held => ?_⟩
    by_cases eq : other = f
    · rw [eq]
      exact last
    · exact ho.2 other ((mem_erase_of_ne eq).mpr held)
  | fills _ conns hr =>
    obtain ⟨other, pre⟩ := hr j ho
    rw [conns, update_of_ne other]
    exact hl j lt pre

/-! ### Links between the tables -/

def SameRefs (s t : NetState) (i : Nat) : Prop := ∀ k, (t.socks k).Refers i ↔ (s.socks k).Refers i

theorem LinkedTo.keep (linked : LinkedTo s i k) (refs : SameRefs s t i) : LinkedTo t i k :=
  ⟨(refs k).mpr linked.1, fun other lt hr => linked.2 other lt ((refs other).mp hr)⟩

theorem LinkedAt.keep (linked : LinkedAt s i) (sockId : (t.conns i).sockId = (s.conns i).sockId)
    (refs : SameRefs s t i) (hp : ((s.conns i).sockId, i) ∈ s.pending →
      ((s.conns i).sockId, i) ∈ t.pending) : LinkedAt t i := by
  rw [LinkedAt, sockId]
  rcases linked with none | linked | hw
  · exact .inl none
  · exact .inr (.inl (linked.keep refs))
  · exact .inr (.inr (hp hw))

theorem LinkedAt.other (linked : LinkedAt s i) (sockId : (t.conns i).sockId = (s.conns i).sockId)
    (ho : ∀ other, other ≠ k → ((t.socks other).Refers i ↔ (s.socks other).Refers i))
    (gone : ¬ (t.socks k).Refers i)
    (ha : LinkedTo s i (s.conns i).sockId →
      (s.conns i).sockId ≠ k ∨ ((s.conns i).sockId, i) ∈ t.pending)
    (hp : ((s.conns i).sockId, i) ∈ s.pending → ((s.conns i).sockId, i) ∈ t.pending) :
    LinkedAt t i := by
  rw [LinkedAt, sockId]
  rcases linked with none | linked | hw
  · exact .inl none
  · refine .inr ((ha linked).imp (fun own => ?_) id)
    refine ⟨(ho _ own).mpr linked.1, fun other lt hr => ?_⟩
    have hc : other ≠ k := fun eq => gone (eq ▸ hr)
    exact linked.2 other lt ((ho other hc).mp hr)
  · exact .inr (.inr (hp hw))

variable {sock : Sock}

theorem refers_update {socks : Nat → Sock} (eq : sock.Refers i ↔ (socks k).Refers i) (other : Nat) :
    (update socks k sock other).Refers i ↔ (socks other).Refers i := by
  by_cases here : other = k
  · rw [here, update_self]
    exact eq
  · rw [update_of_ne here]

theorem refs_update (eq : sock.Refers i ↔ (s.socks k).Refers i) : SameRefs s (s.setSock k sock) i :=
  refers_update eq

theorem refers_live {other : Sock} (live : sock.state ≠ .free) (after : other.state ≠ .free)
    (stream : other.stream = sock.stream) (id : other.tcpConnId = sock.tcpConnId) :
    other.Refers i ↔ sock.Refers i := by
  rw [Sock.Refers, Sock.Refers, stream, id]
  exact and_congr_left fun _ => iff_of_true after live

theorem SocksLinked.keep (linked : SocksLinked s) (conns : ∀ i, (t.conns i).state ≠ .closed →
      (s.conns i).state ≠ .closed ∧ (t.conns i).sockId = (s.conns i).sockId)
    (refs : ∀ i < tcpMaxConns, SameRefs s t i) (hp : ∀ p ∈ s.pending, p ∈ t.pending) :
    SocksLinked t := by
  intro i lt ho
  obtain ⟨pre, sockId⟩ := conns i ho
  exact (linked i lt pre).keep sockId (refs i lt) (hp _)

theorem SocksLinked.fill {slot : Nat} (linked : SocksLinked s)
    (conns : t.conns = update s.conns slot c)
    (refs : ∀ i < tcpMaxConns, SameRefs s t i) (hp : ∀ p ∈ s.pending, p ∈ t.pending)
    (new : c.sockId = sockNone ∨ LinkedTo t slot c.sockId ∨ (c.sockId, slot) ∈ t.pending) :
    SocksLinked t := by
  intro i lt ho
  by_cases here : i = slot
  · rw [here, LinkedAt, conns, update_self]
    exact new
  have eq : t.conns i = s.conns i := by rw [conns, update_of_ne here]
  rw [eq] at ho
  exact (linked i lt ho).keep (by rw [eq]) (refs i lt) (hp _)

theorem refers_free (free : sock.state = .free) : ¬ sock.Refers i :=
  fun hr => hr.1 free

section
variable (linked : SocksLinked s)
include linked

theorem sysSocket_links {stream hp : Bool} : SocksLinked (sysSocket s stream hp) := by
  rw [sysSocket]
  cases slot : sockAlloc s with
  | none => exact linked
  | some k =>
    have free : ∀ i, ¬ (s.socks k).Refers i := fun i => refers_free (sockAlloc_free slot)
    cases hp with
    | true =>
      refine linked.keep (fun i ho => ⟨ho, rfl⟩) (fun i small => ?_) fun _ => id
      refine refs_update (iff_of_false (fun hr => ?_) (free i))
      have hb : sockNone = i := hr.2.2
      rw [← hb, sockNone, tcpMaxConns] at small
      omega
    | false =>
      refine linked.keep (fun i ho => ⟨ho, rfl⟩) (fun i _ => ?_) fun _ => id
      exact refs_update (iff_of_false (refers_free rfl) (free i))

theorem sysBind_links {port : Nat} : SocksLinked (sysBind s fd port) := by
  rw [sysBind]
  cases hf : getProcSock s fd with
  | none => exact linked
  | some f =>
    dsimp only
    split
    · exact linked
    · refine linked.keep (fun i ho => ⟨ho, rfl⟩) (fun i _ => refs_update ?_) fun _ => id
      exact refers_live (getProcSock_live hf).2 nofun rfl rfl

theorem sysListen_links (hk : ∀ p ∈ listenSlot s fd, LinkedTo s p.2 p.1.sockId) :
    SocksLinked (sysListen s fd) := by
  obtain eq | ⟨f, hf, hl | ⟨i, slot, hp⟩⟩ := sysListen_cases s fd
  · rw [eq]
    exact linked
  all_goals
    have refs : ∀ j, SameRefs s
        (s.setSock f.sockId { s.socks f.sockId with state := .listening }) j :=
      fun j => refs_update (refers_live (getProcSock_live hf).2 nofun rfl rfl)
  · rw [hl]
    exact linked.keep (fun i ho => ⟨ho, rfl⟩) (fun j _ => refs j) fun _ => id
  rw [hp]
  have own : LinkedTo s i f.sockId := hk _ slot
  exact linked.fill rfl (fun j _ => refs j) (fun _ => id) (.inr (.inl (own.keep (refs i))))

theorem sysConnect_links {myIp dstIp dstPort : Nat} :
    SocksLinked (sysConnect s fd now myIp dstIp dstPort) := by
  obtain eq | ⟨f, hf, dgram | ⟨i, slot, hp⟩⟩ := sysConnect_cases s fd now myIp dstIp dstPort
  · rw [eq]
    exact linked
  · rw [dgram]
    refine linked.keep (fun i ho => ⟨ho, rfl⟩) (fun j _ => refs_update ?_) fun _ => id
    exact refers_live (getProcSock_live hf).2 nofun rfl rfl
  · rw [hp]
    exact linked.fill rfl (fun _ _ _ => .rfl) (fun _ => mem_append_left _)
      (.inr (.inr (mem_append_right _ mem_cons_self)))

end

def StaysOpen (c d : TcpConn) : Prop :=
  d.state ≠ .closed → c.state ≠ .closed ∧ d.sockId = c.sockId

theorem closed_update {conns : Nat → TcpConn} {j : Nat} (hs : StaysOpen (conns i) d) :
    StaysOpen (conns j) (update conns i d j) := by
  by_cases here : j = i
  · rw [here, update_self]
    exact hs
  · rw [update_of_ne here]
    exact fun ho => ⟨ho, rfl⟩

theorem rx_ends (now : Nat) (c : TcpConn) (g : Segment) : StaysOpen c (c.rx now g).conn := by
  have hm := rx_moves now c g
  refine fun ho => ⟨fun closed => ?_, hm.ends.sockId⟩
  rcases hm.next with eq | next
  · exact ho (eq.trans closed)
  · exact (next_active next).1 closed

theorem close_ends (c : TcpConn) : StaysOpen c c.close.1 := by
  rcases close_conn c with ⟨state, conn⟩ | ⟨-, conn⟩ <;> rw [conn]
  · exact fun _ => ⟨by rw [state]; exact nofun, rfl⟩
  · exact fun ho => ⟨ho, rfl⟩

theorem markConnected_refers (socks : Nat → Sock) (b : Option Nat) (j other : Nat) :
    (markConnected socks b other).Refers j ↔ (socks other).Refers j := by
  cases b with
  | none => rfl
  | some k =>
    rw [markConnected]
    split
    · rfl
    next live =>
    refine refers_update ?_ other
    exact refers_live live (by simp) rfl rfl

theorem queueAccepted_refers (socks : Nat → Sock) (i : Nat) (ok : Option Nat) (j other : Nat) :
    (queueAccepted socks i ok other).Refers j ↔ (socks other).Refers j := by
  cases ok with
  | none => rfl
  | some k =>
    rw [queueAccepted]
    split
    · rfl
    next room =>
    have live := (not_or.mp room).1
    refine refers_update ?_ other
    exact refers_live live live rfl rfl

theorem afterRx_refers (socks : Nat → Sock) (i : Nat) (r : RxResult) (j other : Nat) :
    (afterRx socks i r other).Refers j ↔ (socks other).Refers j := by
  rw [afterRx, queueAccepted_refers, markConnected_refers]

section
variable (linked : SocksLinked s)
include linked

theorem SocksLinked.relink {slot : Nat} (conns : t.conns = update s.conns slot c)
    (ht : ∀ i other, other ≠ k → ((t.socks other).Refers i ↔ (s.socks other).Refers i))
    (self : ∀ i, (t.socks k).Refers i → i = slot)
    (own : c.state ≠ .closed → c.sockId = k ∧ (t.socks k).Refers slot ∧
      ∀ other < sockTableSize, (s.socks other).Refers slot → other = k)
    (hc : ∀ i < tcpMaxConns, i ≠ slot → (s.conns i).state ≠ .closed →
      LinkedTo s i (s.conns i).sockId → (s.conns i).sockId ≠ k)
    (hp : ∀ p ∈ s.pending, p.2 ≠ slot → p ∈ t.pending) : SocksLinked t := by
  intro i lt ho
  by_cases here : i = slot
  · rw [here, conns, update_self] at ho
    obtain ⟨sockId, hr, ha⟩ := own ho
    rw [here, LinkedAt, conns, update_self, sockId]
    refine .inr (.inl ⟨hr, fun other hb hr => ?_⟩)
    by_contra different
    exact different (ha other hb ((ht slot other different).mp hr))
  · have eq : t.conns i = s.conns i := by rw [conns, update_of_ne here]
    rw [eq] at ho
    exact (linked i lt ho).other (by rw [eq]) (ht i)
      (fun hr => here (self i hr)) (fun own => .inl (hc i lt here ho own))
      fun waits => hp _ waits here

theorem connectSent_links {slot : Nat}
    (only : ∀ j < tcpMaxConns, (s.conns j).state ≠ .closed → (s.conns j).sockId = k → j = slot)
    (own : (s.conns slot).state ≠ .closed → (s.conns slot).sockId = k ∧ (s.socks k).stream = true ∧
        ∀ other < sockTableSize, (s.socks other).Refers slot → other = k) :
    SocksLinked (connectSent s k slot now) := by
  have socks : (connectSent s k slot now).socks = update s.socks k
      { s.socks k with tcpConnId := slot, state := .connecting } := rfl
  refine linked.relink (k := k) rfl (fun i other ne => ?_) (fun i refers => ?_)
    (fun ho => ?_) (fun i small here ho _ back => here (only i small ho back))
    fun p hw other => (mem_erase_of_ne fun pair => other (congrArg Prod.snd pair)).mpr hw
  · rw [socks, update_of_ne ne]
  · rw [socks, update_self] at refers
    exact refers.2.2.symm
  obtain ⟨sockId, stream, ha⟩ := own ho
  rw [socks, update_self]
  exact ⟨sockId, ⟨nofun, stream, rfl⟩, ha⟩

theorem sysAccept_links {outcome : AcceptOutcome}
    (hk : ∀ i ∈ acceptedConn s fd, (s.conns i).state ≠ .closed →
      outcome ≠ .noDescriptor ∧ ∀ k < sockTableSize, ¬ (s.socks k).Refers i) :
    SocksLinked (sysAccept s fd outcome) := by
  obtain ⟨eq, -⟩ | ⟨f, hf, -, hc | ⟨slot, k, ht, free, conns, socks, hp, -⟩⟩ :=
    sysAccept_cases s fd outcome
  · rw [eq]
    exact linked
  all_goals
    have live := (getProcSock_live hf).2
    have queue : ∀ i, SameRefs s
        (s.setSock f.sockId (s.socks f.sockId).popped) i :=
      fun i => refs_update (refers_live live live rfl rfl)
  · rw [hc]
    exact linked.keep (fun i ho => ⟨ho, rfl⟩) (fun j _ => queue j) fun _ => id
  have self : (sysAccept s fd outcome).socks k = acceptedSock s slot outcome := by
    rw [socks, update_self]
  refine linked.relink (k := k) conns (fun i other ne => ?_) (fun i hr => ?_)
    (fun ho => ?_) (fun i _ _ _ own back => ?_) fun p waits _ => hp ▸ waits
  · rw [socks, update_of_ne ne]
    exact queue i other
  · rw [self] at hr
    exact hr.2.2.symm
  · obtain ⟨kept, ha⟩ := hk slot ht ho
    rw [self, acceptedSock, if_neg kept]
    exact ⟨rfl, ⟨nofun, rfl, rfl⟩, fun other hb hr => absurd hr (ha other hb)⟩
  · rw [back] at own
    exact own.1.1 (sockAlloc_free free)

theorem sysShutdown_links : SocksLinked (sysShutdown s fd) := by
  rw [sysShutdown]
  cases hf : getProcSock s fd with
  | none => exact linked
  | some f =>
    have refs : ∀ j, SameRefs s (s.setSock f.sockId { s.socks f.sockId with state := .closed }) j :=
      fun j => refs_update (refers_live (getProcSock_live hf).2 nofun rfl rfl)
    dsimp only
    split
    · refine linked.keep (fun i ho => ?_) (fun j _ => refs j) fun _ => id
      exact closed_update (close_ends _) ho
    · exact linked.keep (fun i ho => ⟨ho, rfl⟩) (fun j _ => refs j) fun _ => id

theorem sockVfsClose_links (hk : ∀ f ∈ s.fds[fd]?, ∀ i < tcpMaxConns,
      (s.conns i).state ≠ .closed ∧ (s.conns i).sockId = f.sockId → (f.sockId, i) ∈ s.pending) :
    SocksLinked (sockVfsClose s fd) := by
  rw [sockVfsClose]
  cases hf : s.fds[fd]? with
  | none => exact linked
  | some f =>
    intro i lt ho
    refine (linked i lt ho).other (k := f.sockId) rfl (fun other ne => ?_)
      (refers_free ?_) (fun _ => ?_) id
    · dsimp only [NetState.setSock]
      rw [update_of_ne ne]
    · dsimp only [NetState.setSock]
      rw [update_self]
    by_cases back : (s.conns i).sockId = f.sockId
    · rw [back]
      exact .inr (hk f hf i lt ⟨ho, back⟩)
    · exact .inl back

theorem tcpRx_links (hk : ∀ i ∈ synSlot s g, LinkedTo s i 0 ∨ (0, i) ∈ s.pending) :
    SocksLinked (tcpRx s now g) := by
  obtain ⟨i, hf, hr⟩ | ⟨none, eq | ⟨i, hl, slot, hr⟩⟩ := tcpRx_cases s now g
  · rw [hr]
    refine linked.keep (fun j ho => ?_) (fun j _ => afterRx_refers s.socks i _ j) fun _ => id
    exact closed_update (rx_ends now (s.conns i) g) ho
  · rw [eq]
    exact linked
  · rw [hr]
    exact linked.fill rfl (fun _ _ _ => .rfl) (fun _ => id) (.inr (hk i slot))

theorem tcpTick_links : SocksLinked (tcpTick s now) := by
  refine linked.keep (fun i ho => ?_) (fun _ _ _ => .rfl) fun _ => id
  rw [tcpTick] at ho ⊢
  dsimp only at ho ⊢
  rcases tickFrom_conn now tcpMaxConns 0 s.conns i with eq | ⟨ht, -⟩
  · rw [eq] at ho ⊢
    exact ⟨ho, rfl⟩
  obtain ⟨ends, state⟩ := tick_ends now (s.conns i)
  rw [ht] at ho ⊢
  exact ⟨state.resolve_right ho ▸ ho, ends.sockId⟩

theorem links_step (hk : KeepsLinks s event) (hs : netStep s event = some t) : SocksLinked t := by
  cases event with
  | socket => exact some.inj hs ▸ sysSocket_links linked
  | bind => exact some.inj hs ▸ sysBind_links linked
  | listen => exact some.inj hs ▸ sysListen_links linked hk
  | connect => exact some.inj hs ▸ sysConnect_links linked
  | connectSent k i now =>
    rw [netStep] at hs
    split at hs
    · cases hs
      exact connectSent_links linked hk.1 hk.2
    · cases hs
  | accept => exact some.inj hs ▸ sysAccept_links linked hk
  | dup fd =>
    cases hs
    exact linked
  | shutdown => exact some.inj hs ▸ sysShutdown_links linked
  | close => exact some.inj hs ▸ sockVfsClose_links linked hk
  | rx => exact some.inj hs ▸ tcpRx_links linked hk
  | tick => exact some.inj hs ▸ tcpTick_links linked

end

/-- In every state that is reached from boot: addresses and ports of connections are unique as
long as every connect gets a new port, ports of listeners as long as nobody listens twice, links
as long as no step breaks one, and connections without descriptors leave as long as the last
descriptor is closed after them. -/
theorem tables_linked (events : List NetEvent) (s : NetState) :
    (RunWhere netStep NewTuple netBoot events s → TuplesApart s) ∧
    (RunWhere netStep NewPort netBoot events s → PortsApart s) ∧
    (RunWhere netStep KeepsLinks netBoot events s → SocksLinked s) ∧
    (RunWhere netStep LeavesFirst netBoot events s → OrphansLeave s) := by
  refine ⟨fun run => ?_, fun run => ?_, fun run => ?_, fun run => ?_⟩
  · exact run.invariant (fun _ _ _ _ active => absurd rfl active.1) fun _ _ _ => tuples_step
  · exact run.invariant (fun _ _ _ _ listens => by cases listens) fun _ _ _ => ports_step
  · exact run.invariant (fun _ _ opened => absurd rfl opened) fun _ _ _ => links_step
  · exact run.invariant (fun _ _ _ => rfl) fun _ _ _ => orphans_step

end

def Careful (s : NetState) (event : NetEvent) : Prop :=
  NewTuple s event ∧ NewPort s event ∧ KeepsLinks s event ∧ LeavesFirst s event

instance (s : NetState) (event : NetEvent) : Decidable (Careful s event) := by
  rcases event <;>
    (dsimp only [Careful, NewTuple, NewPort, KeepsLinks, LeavesFirst]; infer_instance)

def synAckSegment : Segment := ⟨2, 1, 80, 49157, 100, 6, synAck, 1000, []⟩

def connectRun : List NetEvent :=
  [.socket true true, .connect 0 5 1 2 80, .connectSent 0 0 6, .rx 7 synAckSegment]

theorem tables_linked_connect :
    ∃ s, RunWhere netStep Careful netBoot connectRun s ∧ (s.conns 0).state = .established ∧
      TuplesApart s ∧ PortsApart s ∧ SocksLinked s ∧ OrphansLeave s := by
  refine exists_runWhere_of (fun s => (s.conns 0).state = .established) ?_
  intro s run state
  obtain ⟨tuples, ports, links, orphans⟩ := tables_linked connectRun s
  exact ⟨state, tuples (run.mono fun _ _ all => all.1), ports (run.mono fun _ _ all => all.2.1),
    links (run.mono fun _ _ all => all.2.2.1), orphans (run.mono fun _ _ all => all.2.2.2)⟩

def listenRun : List NetEvent := [.socket true true, .bind 0 80, .listen 0, .close 0]

/-- Two connects in one tick have the same addresses and ports; a socket can listen twice on one
port; no listening socket refers to its connection; and a listener outlives its descriptors. -/
theorem tables_unlinked :
    (∃ s, Run netStep netBoot [.socket true true, .socket true true, .connect 0 5 1 2 80,
      .connect 1 5 1 2 80] s ∧ ¬ TuplesApart s) ∧
    (∃ s, Run netStep netBoot (listenRun.take 3 ++ [.listen 0]) s ∧ ¬ PortsApart s) ∧
    (∃ s, Run netStep netBoot (listenRun.take 3) s ∧ ¬ SocksLinked s) ∧
    ∃ s, Run netStep netBoot listenRun s ∧ ¬ OrphansLeave s := by
  refine ⟨exists_run_of (fun s => (s.conns 0).Active ∧ (s.conns 1).Active ∧
      SameTuple (s.conns 0) (s.conns 1)) ?_,
    exists_run_of (fun s => (s.conns 0).state = .listen ∧ (s.conns 1).state = .listen ∧
      (s.conns 0).localPort = (s.conns 1).localPort) ?_,
    exists_run_of (fun s => (s.conns 0).state ≠ .closed ∧ ¬ LinkedAt s 0) ?_,
    exists_run_of (fun s => Orphan s 0 ∧ (s.conns 0).state.lasting = true) ?_⟩
  · rintro s - ⟨active, other, same⟩ apart
    cases apart 0 (by decide) 1 (by decide) active other same
  · rintro s - ⟨left, right, port⟩ apart
    cases apart 0 (by decide) 1 (by decide) left right port
  · rintro s - ⟨opened, broken⟩ linked
    exact broken (linked 0 (by decide) opened)
  · rintro s - ⟨alone, lasts⟩ leave
    cases lasts.symm.trans (leave 0 (by decide) alone)

end Aegis.Tcp
