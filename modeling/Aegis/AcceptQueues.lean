import Aegis.Handover
import Aegis.RingBuffer
import Aegis.TcpLinks
import Aegis.Unix

/-! The accept queues of listening sockets, of both kinds, as queues of connections: a connection
joins when it is established, and leaves when a process gets a descriptor for it. -/

namespace Aegis.AcceptQueues

open LabelledRun Handover Unix Tcp Function Option UnixTable RingBuffer

/-- Eight cells with indices that count modulo `wrap`. -/
structure AcceptRing where
  wrap : Nat
  cells : Nat → Nat
  first : Nat
  next : Nat

def unixRing (us : UnixSock) : AcceptRing := ⟨256, us.acceptQueue, us.acceptTail, us.acceptHead⟩

def tcpRing (sock : Sock) : AcceptRing := ⟨8, sock.acceptQueue, sock.acceptHead, sock.acceptTail⟩

namespace AcceptRing

variable (r : AcceptRing)

/-- Oldest first. -/
def entries : List Nat := stored 8 r.cells (r.first % 8) ((r.next + r.wrap - r.first) % r.wrap)

def InRange : Prop := (r.wrap = 8 ∨ r.wrap = 256) ∧ r.first < r.wrap ∧ r.next < r.wrap

def Room : Prop := r.entries.length < 8 ∧ r.entries.length + 1 < r.wrap

def push (v : Nat) : AcceptRing :=
  { r with cells := update r.cells (r.next % 8) v, next := (r.next + 1) % r.wrap }

def pop : AcceptRing := { r with first := (r.first + 1) % r.wrap }

/-- What a call does to a ring, with what joins and what leaves the queue. Only a call that is
not `ok` loses an entry, or clears the ring. -/
inductive Moves (ok : Prop) (joins leaves : Option Nat) : AcceptRing → Prop
  | rest : joins = none → leaves = none → Moves ok joins leaves r
  | push {i : Nat} : joins = some i → leaves = none → (ok → r.Room) → Moves ok joins leaves (r.push i)
  | pop : joins = none → r.first ≠ r.next → (ok → leaves = some (r.cells (r.first % 8))) →
      Moves ok joins leaves r.pop
  | other {after : AcceptRing} : ¬ ok → after.InRange → Moves ok joins leaves after

variable {r} {ok : Prop} {joins leaves : Option Nat} {after : AcceptRing}

theorem length_entries : r.entries.length = (r.next + r.wrap - r.first) % r.wrap :=
  length_stored ..

theorem entries_push (inRange : r.InRange) (room : r.Room) (v : Nat) :
    (r.push v).entries = r.entries ++ [v] := by
  obtain ⟨w, cells, a, b⟩ := r
  obtain ⟨wrap, first, next⟩ := inRange
  simp only [Room, length_entries] at room first next wrap
  have hp : b % 8 = (a % 8 + (b + w - a) % w) % 8 := by rcases wrap with rfl | rfl <;> omega
  have count : ((b + 1) % w + w - a) % w = (b + w - a) % w + 1 := by
    rcases wrap with rfl | rfl <;> omega
  dsimp only [entries, push]
  rw [count, hp, stored_update _ room.1]

theorem entries_pop (inRange : r.InRange) (hf : r.first ≠ r.next) :
    r.cells (r.first % 8) :: r.pop.entries = r.entries := by
  obtain ⟨w, cells, a, b⟩ := r
  obtain ⟨wrap, first, next⟩ := inRange
  simp only at wrap first next hf
  have count : (b + w - a) % w = 1 + (b + w - (a + 1) % w) % w := by
    rcases wrap with rfl | rfl <;> omega
  have step : (a + 1) % w % 8 = (a % 8 + 1) % 8 := by rcases wrap with rfl | rfl <;> omega
  dsimp only [entries, pop]
  rw [count, stored_split, step]
  simp [stored]

theorem InRange.empty (inRange : r.InRange) (cells : Nat → Nat) : InRange ⟨r.wrap, cells, 0, 0⟩ :=
  ⟨inRange.1, lt_of_le_of_lt (Nat.zero_le _) inRange.2.1, lt_of_le_of_lt (Nat.zero_le _) inRange.2.1⟩

theorem Moves.inRange (moves : r.Moves ok joins leaves after) (inRange : r.InRange) :
    after.InRange := by
  have wrap : 0 < r.wrap := lt_of_le_of_lt (Nat.zero_le _) inRange.2.1
  cases moves with
  | rest => exact inRange
  | push => exact ⟨inRange.1, inRange.2.1, Nat.mod_lt _ wrap⟩
  | pop => exact ⟨inRange.1, Nat.mod_lt _ wrap, inRange.2.2⟩
  | other _ inside => exact inside

theorem Moves.balanced (moves : r.Moves ok joins leaves after) (inRange : r.InRange) (kept : ok) :
    leaves.toList ++ after.entries = r.entries ++ joins.toList := by
  cases moves with
  | rest hj hl => simp [hj, hl]
  | push hj hl room => simp [hj, hl, entries_push inRange (room kept)]
  | pop hj hn hl => simp [hj, hl kept, entries_pop inRange hn]
  | other lost => exact absurd kept lost

end AcceptRing

open AcceptRing

def unixQueue (l : Nat) : Queue UnixTable UnixEvent where
  step := unixStep
  takes s
    | .socket | .connect _ _ _ => s.freeSlot
    | _ => none
  joins _
    | .linked p => if p.listener = l then some p.server else none
    | _ => none
  leaves s
    | .accept _ id true => if id = l then s.nextServer id else none
    | _ => none
  waiting s := (unixRing (s.socks l)).entries

/-- The listener is open and what waits for it is in use; a connection finds room in the ring,
and an accept that takes one a descriptor. -/
def UnixKept (l : Nat) (s : UnixTable) (event : UnixEvent) : Prop :=
  (s.socks l).inUse = true ∧ (∀ i ∈ (unixQueue l).waiting s, (s.socks i).inUse = true) ∧
  match event with
  | .linked p => p.listener = l → ((unixQueue l).waiting s).length < 8
  | .accept _ id opened => id = l → (s.nextServer id).isSome → opened = true
  | _ => True

instance (l : Nat) (s : UnixTable) (event : UnixEvent) : Decidable (UnixKept l s event) := by
  rcases event <;> (dsimp only [UnixKept]; infer_instance)

section UnixSteps
variable {s t : UnixTable} {l i : Nat} {f : UnixSock → UnixSock} {event : UnixEvent}

theorem ring_setSock (hk : ∀ us, unixRing (f us) = unixRing us) :
    unixRing ((s.setSock i f).socks l) = unixRing (s.socks l) := by
  by_cases here : l = i
  · subst here
    simpa [setSock] using hk (s.socks l)
  · simp [setSock, here]

theorem ring_setEnd (hk : ∀ us, unixRing (f us) = unixRing us) {other : Option Cred} :
    unixRing ((s.setEnd i f other).socks l) = unixRing (s.socks l) :=
  ring_setSock hk

theorem ring_take {ok : Prop} (inRange : (unixRing (s.socks l)).InRange)
    (used : ok → (s.socks l).inUse = true) (free : s.freeSlot = some i) {state : UnixState}
    {p : Option Nat} :
    (unixRing (s.socks l)).Moves ok none none (unixRing ((s.take i state p).socks l)) := by
  have hu : (s.socks i).inUse = false := by simpa using List.find?_some free
  by_cases here : l = i
  · subst here
    refine .other (fun kept => by simp [used kept] at hu) ?_
    simpa [take, takenSock, unixRing] using inRange.empty fun _ => 0
  · rw [show (s.take i state p).socks l = s.socks l by simp [take, here]]
    exact .rest rfl rfl

theorem ring_unixSockFree : unixRing ((s.unixSockFree i).socks l) = unixRing (s.socks l) := by
  unfold unixSockFree
  split
  · refine ring_setSock fun us => ?_
    dsimp only
    split
    · simp only [unixRing]
    · simp only [unixRing]
  · rfl

variable {server : Nat}

theorem ring_fillClient {cred : Cred} :
    unixRing ((s.fillClient cred server).socks l) = unixRing (s.socks l) := by
  unfold fillClient
  split
  · refine ring_setEnd ?_
    exact fun _ => rfl
  · rfl

theorem ring_enqueue : unixRing ((s.enqueue i server).socks l) =
    if i = l then (unixRing (s.socks l)).push server else unixRing (s.socks l) := by
  split
  · next here =>
    subst here
    simp [enqueue, setSock, unixRing, AcceptRing.push]
  · next other => simp [enqueue, setSock, Ne.symm other]

theorem ring_dequeue : unixRing ((s.dequeue i).socks l) =
    if i = l then (unixRing (s.socks l)).pop else unixRing (s.socks l) := by
  split
  · next here =>
    subst here
    simp [dequeue, setSock, unixRing, AcceptRing.pop]
  · next other => simp [dequeue, setSock, Ne.symm other]

theorem ring_connectFinish (p : Connecting) : unixRing ((s.connectFinish p).socks l) =
    if p.listener = l then (unixRing (s.socks l)).push p.server else unixRing (s.socks l) := by
  unfold connectFinish
  rw [ring_enqueue, ring_setEnd, ring_setEnd]
  all_goals exact fun _ => rfl

theorem ring_unixSockAccept {cred : Cred} {o : Bool} (next : s.nextServer i = some server) :
    unixRing ((s.unixSockAccept cred i o).socks l) =
      if i = l then (unixRing (s.socks l)).pop else unixRing (s.socks l) := by
  simp only [unixSockAccept, next]
  split
  · rw [ring_dequeue, ring_fillClient]
  · rw [ring_unixSockFree, ring_dequeue, ring_fillClient]

theorem unix_moves (inRange : (unixRing (s.socks l)).InRange) (step : unixStep s event = some t) :
    (unixRing (s.socks l)).Moves (UnixKept l s event) ((unixQueue l).joins s event)
      ((unixQueue l).leaves s event) (unixRing (t.socks l)) := by
  -- Most calls neither add to the queue nor take from it.
  have idle (eq : unixRing (t.socks l) = unixRing (s.socks l)) :
      (unixRing (s.socks l)).Moves (UnixKept l s event) none none (unixRing (t.socks l)) :=
    eq ▸ .rest rfl rfl
  cases event with
  | socket =>
    cases step
    unfold unixSockAlloc
    split
    · next free => exact ring_take inRange (·.1) free
    · exact .rest rfl rfl
  | bind id | listen id | dup id =>
    cases step
    refine idle ?_
    simp only [unixSockBind, unixSockListen, unixVfsDup]
    split
    · exact ring_setSock fun _ => by simp only [unixRing]
    · rfl
  | connect cred id hl =>
    cases step
    unfold connectStart
    split
    · split
      · next free => exact ring_take inRange (·.1) free
      · exact .rest rfl rfl
    · exact .rest rfl rfl
  | linked p =>
    obtain ⟨-, ⟨⟩⟩ := ite_none_right_eq_some.mp step
    rw [ring_connectFinish]
    by_cases here : p.listener = l
    · rw [if_pos here]
      refine .push (by simp [unixQueue, here]) rfl fun kept => ⟨kept.2.2 here, ?_⟩
      exact lt_of_le_of_lt (kept.2.2 here : _ < 8) (by decide : 8 < 256)
    · rw [if_neg here]
      exact .rest (by simp [unixQueue, here]) rfl
  | accept cred id ho =>
    cases step
    cases next : s.nextServer id with
    | none =>
      have eq : s.unixSockAccept cred id ho = s := by simp [unixSockAccept, next]
      rw [eq]
      exact .rest rfl (by cases ho <;> simp [unixQueue, next])
    | some server =>
      rw [ring_unixSockAccept next]
      by_cases here : id = l
      · subst here
        obtain ⟨⟨-, -, hf⟩, ⟨⟩⟩ := ite_none_right_eq_some.mp next
        rw [if_pos rfl]
        refine .pop rfl hf.symm fun kept => ?_
        obtain rfl : ho = true := kept.2.2 rfl (by simp [next])
        simp [unixQueue, next, unixRing]
      · rw [if_neg here]
        exact .rest rfl (by cases ho <;> simp [unixQueue, here])
  | free id =>
    cases step
    exact idle ring_unixSockFree

theorem unix_inRange {before : List UnixEvent} (boot : Run unixStep unixBoot before s) :
    (unixRing (s.socks l)).InRange := by
  induction boot with
  | nil => exact ⟨.inr rfl, (by decide : 0 < 256), (by decide : 0 < 256)⟩
  | snoc _ _ step inside => exact (unix_moves inside step).inRange inside

theorem unix_fresh (kept : UnixKept l s event) (ht : (unixQueue l).takes s event = some i) :
    i ∉ (unixQueue l).waiting s ++ ((unixQueue l).joins s event).toList := by
  have hu : (s.freeSlot = some i) → i ∉ (unixRing (s.socks l)).entries := fun free hw => by
    have free : (s.socks i).inUse = false := by simpa using List.find?_some free
    simp [kept.2.1 i hw] at free
  cases event with
  | socket | connect cred id listener => simpa [unixQueue] using hu ht
  | _ => cases ht

end UnixSteps

/-- The segment ends the handshake of a connection for the listener. -/
def HandsOver (c : TcpConn) (g : Segment) (l : Nat) : Prop :=
  c.state = .synRcvd ∧ (g.flags.ack ∧ ¬ g.flags.syn ∧ ¬ g.flags.rst ∧ g.ack = c.sndNxt) ∧
    c.listenerId = l ∧ l ≠ sockNone
  deriving Decidable

def Names (s : NetState) (fd l : Nat) : Prop := ∃ f ∈ getProcSock s fd, f.sockId = l
  deriving Decidable

def tcpQueue (l : Nat) : Queue NetState NetEvent where
  step := netStep
  takes s
    | .listen fd => (listenSlot s fd).map Prod.snd
    | .connect fd _ _ _ _ => (connectSlot s fd).map Prod.snd
    | .rx _ g => synSlot s g
    | _ => none
  joins s
    | .rx _ g => (tcpFind s g).filter fun i => HandsOver (s.conns i) g l
    | _ => none
  leaves s
    | .accept fd .opened => if Names s fd l then acceptedConn s fd else none
    | _ => none
  waiting s := (tcpRing (s.socks l)).entries

/-- The listener is open, and no slot of a connection that waits for it is taken anew; a
connection finds room in the queue, and an accept that takes one a socket and a descriptor. -/
def TcpKept (l : Nat) (s : NetState) (event : NetEvent) : Prop :=
  (s.socks l).state ≠ .free ∧
  (∀ i ∈ (tcpQueue l).takes s event, i ∉ (tcpQueue l).waiting s) ∧
  match event with
  | .rx now g => (tcpQueue l).joins s (.rx now g) ≠ none → ((tcpQueue l).waiting s).length < 7
  | .accept fd outcome => Names s fd l → (s.socks l).state = .listening →
      (tcpQueue l).waiting s ≠ [] → outcome = .opened ∧ sockAlloc s ≠ none
  | _ => True

instance (l : Nat) (s : NetState) (event : NetEvent) : Decidable (TcpKept l s event) := by
  rcases event <;> (dsimp only [TcpKept]; infer_instance)

section TcpSteps
variable {s t : NetState} {l i k : Nat} {event : NetEvent}

theorem ring_update {socks : Nat → Sock} {sock : Sock}
    (hk : l = k → tcpRing sock = tcpRing (socks l)) :
    tcpRing (update socks k sock l) = tcpRing (socks l) := by
  by_cases here : l = k
  · simpa [here] using hk here
  · simp [here]

theorem rx_accepted {now : Nat} {c : TcpConn} {g : Segment} :
    (c.rx now g).accepted = some l ↔ HandsOver c g l := by
  unfold TcpConn.rx HandsOver
  cases state : c.state with
  | synRcvd =>
    simp only [rxSynRcvd, quiet]
    grind
  | _ =>
    grind [rxSynSent, rxEstablished, rxEnd, rxData, rxFinWait1, rxFinWait2, rxClosing, rxLastAck,
      quiet]

theorem moves_markConnected {socks : Nat → Sock} {k : Option Nat} :
    tcpRing (markConnected socks k l) = tcpRing (socks l) ∧
      ((markConnected socks k l).state = .free ↔ (socks l).state = .free) := by
  cases k with
  | none => exact ⟨rfl, .rfl⟩
  | some k =>
    dsimp only [markConnected]
    split
    · exact ⟨rfl, .rfl⟩
    by_cases here : l = k <;> simp_all [tcpRing]

theorem room_iff {sock : Sock} (inRange : (tcpRing sock).InRange) :
    (tcpRing sock).entries.length < 7 ↔ (sock.acceptTail + 1) % 8 ≠ sock.acceptHead := by
  obtain ⟨-, first, next⟩ := inRange
  simp only [length_entries, tcpRing] at *
  omega

theorem moves_afterRx {now : Nat} {g : Segment} {socks : Nat → Sock} {c : TcpConn} {ok : Prop}
    (inRange : (tcpRing (socks l)).InRange)
    (kept : ok → (socks l).state ≠ .free ∧
      (HandsOver c g l → (tcpRing (socks l)).entries.length < 7)) :
    (tcpRing (socks l)).Moves ok (if HandsOver c g l then some i else none) none
      (tcpRing (afterRx socks i (c.rx now g) l)) := by
  obtain ⟨eq, free⟩ := @moves_markConnected l socks (c.rx now g).connected
  unfold afterRx queueAccepted
  by_cases ends : HandsOver c g l
  · rw [if_pos ends, rx_accepted.mpr ends]
    rw [← eq] at inRange kept ⊢
    dsimp only
    split
    · next full =>
      refine .other (fun ok => ?_) inRange
      exact full.elim (fun gone => (kept ok).1 (free.mp gone))
        ((room_iff inRange).mp ((kept ok).2 ends))
    · next room =>
      have tail := Nat.mod_eq_of_lt inRange.2.2
      have hs := (room_iff inRange).mpr (not_or.mp room).2
      rw [update_self]
      refine (congrArg (Moves _ ok _ _) ?_).mpr (.push rfl rfl fun _ => ⟨?_, ?_⟩)
      · simp only [tcpRing, AcceptRing.push] at tail ⊢
        rw [tail]
      · exact lt_trans hs (by decide)
      · exact Nat.succ_lt_succ hs
  · rw [if_neg ends]
    cases ok' : (c.rx now g).accepted with
    | none => exact eq ▸ .rest rfl rfl
    | some k =>
      have other : l ≠ k := fun here => ends (rx_accepted.mp (here ▸ ok'))
      dsimp only
      split
      · exact eq ▸ .rest rfl rfl
      · rw [update_of_ne other]
        exact eq ▸ .rest rfl rfl

theorem moves_fresh {ok : Prop} {joins leaves : Option Nat} {socks : Nat → Sock} {state : SockState}
    {stream : Bool} {port conn : Nat} (inRange : (tcpRing (s.socks l)).InRange)
    (live : ok → (s.socks l).state ≠ .free) (slot : sockAlloc s = some k)
    (others : l ≠ k → (tcpRing (s.socks l)).Moves ok joins leaves (tcpRing (socks l))) :
    (tcpRing (s.socks l)).Moves ok joins leaves
      (tcpRing (update socks k (freshSock state stream port conn) l)) := by
  by_cases here : l = k
  · subst here
    refine .other (fun kept => live kept (by simpa using List.find?_some slot)) ?_
    simpa [freshSock, tcpRing] using inRange.empty fun _ => 0
  · simpa [here] using others here

theorem moves_popped {fd : Nat} {outcome : AcceptOutcome} {f : SockFd}
    (inRange : (tcpRing (s.socks l)).InRange) (hf : getProcSock s fd = some f)
    (waits : (s.socks f.sockId).state = .listening ∧
      (s.socks f.sockId).acceptHead ≠ (s.socks f.sockId).acceptTail) :
    (tcpRing (s.socks l)).Moves (TcpKept l s (.accept fd outcome)) none
      ((tcpQueue l).leaves s (.accept fd outcome))
      (tcpRing (update s.socks f.sockId (s.socks f.sockId).popped l)) := by
  by_cases here : f.sockId = l
  · subst here
    have names : Names s fd f.sockId := ⟨f, hf, rfl⟩
    have first : (s.socks f.sockId).acceptHead % 8 = (s.socks f.sockId).acceptHead :=
      Nat.mod_eq_of_lt inRange.2.1
    rw [update_self]
    refine .pop rfl waits.2 fun kept => ?_
    have some : (tcpQueue f.sockId).waiting s ≠ [] := fun empty => by
      simpa [tcpQueue] using (entries_pop inRange waits.2).trans empty
    obtain ⟨rfl, slot⟩ := kept.2.2 names waits.1 some
    simp [tcpQueue, acceptedConn, names, hf, waits, slot, first, tcpRing]
  · have other : ¬ Names s fd l := by
      rintro ⟨f', hf', eq⟩
      obtain rfl := Option.some.inj (hf.symm.trans hf')
      exact here eq
    rw [update_of_ne (Ne.symm here)]
    exact .rest rfl (by cases outcome <;> simp [tcpQueue, other])

theorem tcp_moves (inRange : (tcpRing (s.socks l)).InRange) (step : netStep s event = some t) :
    (tcpRing (s.socks l)).Moves (TcpKept l s event) ((tcpQueue l).joins s event)
      ((tcpQueue l).leaves s event) (tcpRing (t.socks l)) := by
  have idle (eq : tcpRing (t.socks l) = tcpRing (s.socks l)) :
      (tcpRing (s.socks l)).Moves (TcpKept l s event) none none (tcpRing (t.socks l)) :=
    eq ▸ .rest rfl rfl
  cases event with
  | socket stream hp =>
    cases step
    unfold sysSocket
    split
    · exact .rest rfl rfl
    next k slot =>
    split
    · exact moves_fresh inRange (·.1) slot fun _ => .rest rfl rfl
    · exact moves_fresh inRange (·.1) slot fun _ => .rest rfl rfl
  | bind fd port | listen fd | connect fd now myIp dstIp dstPort | shutdown fd | close fd =>
    cases step
    refine idle ?_
    simp only [sysBind, sysListen, sysConnect, sysShutdown, sockVfsClose]
    repeat' split
    all_goals first | rfl | exact ring_update fun here => by subst here; rfl
  | connectSent k i now =>
    obtain ⟨-, ⟨⟩⟩ := ite_none_right_eq_some.mp step
    refine idle (ring_update fun here => ?_)
    rw [here]
    rfl
  | accept fd outcome =>
    obtain rfl := Option.some.inj step
    obtain ⟨eq, lost⟩ | ⟨f, hf, waits, hp | ⟨i, k, -, slot, -, socks, -⟩⟩ :=
      sysAccept_cases s fd outcome
    · rw [eq]
      exact .rest rfl (by cases outcome <;> simp [tcpQueue, lost])
    · rw [hp]
      exact moves_popped inRange hf waits
    · rw [socks]
      exact moves_fresh inRange (·.1) slot fun _ => moves_popped inRange hf waits
  | dup fd | tick now =>
    cases step
    exact idle rfl
  | rx now g =>
    cases step
    obtain ⟨i, hf, hm⟩ | ⟨lost, eq | ⟨i, hl, -, ho⟩⟩ := tcpRx_cases s now g
    · have joins : (tcpQueue l).joins s (.rx now g) =
          if HandsOver (s.conns i) g l then some i else none := by
        simp [tcpQueue, hf, Option.filter]
      rw [hm, joins]
      refine moves_afterRx inRange fun kept => ⟨kept.1, fun ends => kept.2.2 ?_⟩
      simp [joins, ends]
    · rw [eq]
      exact .rest (by simp [tcpQueue, lost]) rfl
    · rw [ho]
      exact .rest (by simp [tcpQueue, lost]) rfl

theorem tcp_inRange {before : List NetEvent} (boot : Run netStep netBoot before s) :
    (tcpRing (s.socks l)).InRange := by
  induction boot with
  | nil => exact ⟨.inl rfl, (by decide : 0 < 8), (by decide : 0 < 8)⟩
  | snoc _ _ step inside => exact (tcp_moves inside step).inRange inside

theorem tcp_fresh (kept : TcpKept l s event) (ht : (tcpQueue l).takes s event = some i) :
    i ∉ (tcpQueue l).waiting s ++ ((tcpQueue l).joins s event).toList := by
  have ha : i ∉ (tcpQueue l).waiting s := kept.2.1 i ht
  cases event with
  | rx now g =>
    obtain ⟨⟨hu, -⟩, -⟩ := ite_none_right_eq_some.mp ht
    simpa [tcpQueue, hu] using ha
  | _ => simpa [tcpQueue] using ha

end TcpSteps

/-- From a listener with an empty queue on, of either kind and among any other sockets and
calls: connections are handed out once each, in the order in which they were established. -/
theorem accepts_in_order (l : Nat) (uses : Nat → Nat) :
    (∀ {before s events h}, Run unixStep unixBoot before s → (unixQueue l).waiting s = [] →
      RunWhere (unixQueue l).logged (fun h event => UnixKept l h.state event)
        ⟨s, uses, [], []⟩ events h → (unixQueue l).InOrder h) ∧
    ∀ {before s events h}, Run netStep netBoot before s → (tcpQueue l).waiting s = [] →
      RunWhere (tcpQueue l).logged (fun h event => TcpKept l h.state event)
        ⟨s, uses, [], []⟩ events h → (tcpQueue l).InOrder h := by
  constructor
  · intro before s events h boot empty run
    exact Queue.inOrder_of_run (fun inside step => (unix_moves inside step).inRange inside)
      (fun inside kept step => (unix_moves inside step).balanced inside kept) unix_fresh
      (unix_inRange boot) empty run
  · intro before s events h boot empty run
    exact Queue.inOrder_of_run (fun inside step => (tcp_moves inside step).inRange inside)
      (fun inside kept step => (tcp_moves inside step).balanced inside kept) tcp_fresh
      (tcp_inRange boot) empty run

def unixListening : UnixTable := reached unixStep unixBoot [.socket, .bind 0, .listen 0]

def tcpListening : NetState :=
  reached netStep netBoot [.socket true true, .bind 0 80, .listen 0]

def unixConnects (n : Nat) : List UnixEvent :=
  [.socket, .connect connector (2 * n + 1) 0, .linked ⟨2 * n + 1, 0, 2 * n + 2, connector⟩]

def tcpConnects (n : Nat) : List NetEvent :=
  [.rx 7 ⟨2, 1, n, 80, 100, 0, synOnly, 1000, []⟩, .rx 8 ⟨2, 1, n, 80, 101, 8, ackOnly, 1000, []⟩]

theorem accepts_in_order_two :
    (∃ h, RunWhere (unixQueue 0).logged (fun h event => UnixKept 0 h.state event)
        ⟨unixListening, fun _ => 0, [], []⟩ (unixConnects 0 ++ unixConnects 1 ++
          [.accept acceptor 0 true, .accept acceptor 0 true]) h ∧
      (unixQueue 0).InOrder h ∧ h.handed = [(2, 1), (4, 1)]) ∧
    ∃ h, RunWhere (tcpQueue 0).logged (fun h event => TcpKept 0 h.state event)
        ⟨tcpListening, fun _ => 0, [], []⟩
        (tcpConnects 5 ++ tcpConnects 6 ++ [.accept 0 .opened, .accept 0 .opened]) h ∧
      (tcpQueue 0).InOrder h ∧ h.handed = [(1, 1), (2, 1)] := by
  constructor
  · have boot := run_of_exec (exec_eq_reached (by decide +kernel :
      (exec unixStep unixBoot [.socket, .bind 0, .listen 0]).isSome))
    exact exists_runWhere_with (fun _ => (accepts_in_order 0 _).1 boot (by decide +kernel))
  · have boot := run_of_exec (exec_eq_reached (by decide +kernel :
      (exec netStep netBoot [.socket true true, .bind 0 80, .listen 0]).isSome))
    exact exists_runWhere_with (fun _ => (accepts_in_order 0 _).2 boot (by decide +kernel))

/-- A ninth connection overwrites the oldest one in the ring, and an eighth handshake finds no
room in the queue; an accept without a descriptor loses what it took, with both. -/
theorem accepts_lose : (∃ h, Run (unixQueue 0).logged ⟨unixListening, fun _ => 0, [], []⟩
      ((List.range 9).flatMap unixConnects) h ∧ ¬ (unixQueue 0).InOrder h) ∧
    (∃ h, Run (unixQueue 0).logged ⟨unixListening, fun _ => 0, [], []⟩
      (unixConnects 0 ++ [.accept acceptor 0 false]) h ∧ ¬ (unixQueue 0).InOrder h) ∧
    (∃ h, Run (tcpQueue 0).logged ⟨tcpListening, fun _ => 0, [], []⟩
      ((List.range 8).flatMap tcpConnects) h ∧ ¬ (tcpQueue 0).InOrder h) ∧
    ∃ h, Run (tcpQueue 0).logged ⟨tcpListening, fun _ => 0, [], []⟩
      (tcpConnects 5 ++ [.accept 0 .noDescriptor]) h ∧ ¬ (tcpQueue 0).InOrder h :=
  ⟨exists_run, exists_run, exists_run, exists_run⟩

end Aegis.AcceptQueues
