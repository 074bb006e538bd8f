import Aegis.LabelledRun

/-! Connections of `AF_UNIX` sockets (`unix_socket.c`): the sockets, their accept queues and the
credentials that both ends of a connection hold. `unix_sock_connect` drops its lock between
taking a slot for the server's end and linking the ends, so it is two steps. The listener is
given by its slot, and any process may make any call. -/

namespace Aegis.Unix

open LabelledRun Function

def unixSockMax : Nat := 32

structure Cred where
  pid : Nat
  uid : Nat
  gid : Nat
  deriving DecidableEq

def noCred : Cred := ⟨0, 0, 0⟩

inductive UnixState
  | created
  | bound
  | listening
  | connected
  deriving DecidableEq

structure UnixSock where
  inUse : Bool
  state : UnixState
  peerId : Option Nat
  acceptQueue : Nat → Nat
  acceptHead : Nat
  acceptTail : Nat
  peerCred : Cred
  refcount : Nat

def takenSock (state : UnixState) (peerId : Option Nat) : UnixSock :=
  ⟨true, state, peerId, fun _ => 0, 0, 0, noCred, 1⟩

structure Connecting where
  client : Nat
  listener : Nat
  server : Nat
  cred : Cred
  deriving DecidableEq

/-- History: how often a slot was taken, the use of the client's slot that a server's end was
made for, and the process at the other end once it has connected or accepted. -/
structure UnixTable where
  socks : Nat → UnixSock
  connecting : List Connecting
  uses : Nat → Nat
  madeFor : Nat → Option Nat
  other : Nat → Option Cred

namespace UnixTable

variable (s : UnixTable)

def setSock (i : Nat) (f : UnixSock → UnixSock) : UnixTable :=
  { s with socks := update s.socks i (f (s.socks i)) }

def setEnd (i : Nat) (f : UnixSock → UnixSock) (other : Option Cred) : UnixTable :=
  { s.setSock i f with other := update s.other i other }

def freeSlot : Option Nat :=
  (List.range unixSockMax).find? fun i => (s.socks i).inUse = false

def take (i : Nat) (state : UnixState) (peerId : Option Nat) : UnixTable :=
  { s with
    socks := update s.socks i (takenSock state peerId)
    uses := update s.uses i (s.uses i + 1)
    madeFor := update s.madeFor i none
    other := update s.other i none }

def unixSockAlloc : UnixTable :=
  match s.freeSlot with
  | some i => s.take i .created none
  | none => s

def unixSockBind (id : Nat) : UnixTable :=
  if (s.socks id).inUse ∧ (s.socks id).state = .created then
    s.setSock id fun us => { us with state := .bound }
  else s

def unixSockListen (id : Nat) : UnixTable :=
  if (s.socks id).inUse ∧ (s.socks id).state = .bound then
    s.setSock id fun us => { us with state := .listening }
  else s

/-- `qlen` of `unix_sock_connect`, which the mask keeps below 8. -/
def qlen (listener : Nat) : Nat :=
  ((s.socks listener).acceptHead + 256 - (s.socks listener).acceptTail) % 256 &&& 7

def connectStart (cred : Cred) (id listener : Nat) : UnixTable :=
  if ((s.socks id).inUse ∧ (s.socks id).state = .created) ∧
      ((s.socks listener).inUse ∧ (s.socks listener).state = .listening) ∧
      s.qlen listener < 8 then
    match s.freeSlot with
    | some j =>
      { s.take j .connected (some id) with
        connecting := ⟨id, listener, j, cred⟩ :: s.connecting
        madeFor := update s.madeFor j (some (s.uses id)) }
    | none => s
  else s

def enqueue (listener server : Nat) : UnixTable :=
  s.setSock listener fun us =>
    { us with
      acceptQueue := update us.acceptQueue (us.acceptHead % 8) server
      acceptHead := (us.acceptHead + 1) % 256 }

/-- The rest of it: both ends are linked, and the listener gets the server's end. -/
def connectFinish (p : Connecting) : UnixTable :=
  let linked := { s with connecting := s.connecting.erase p }.setEnd p.client (fun us =>
    { us with peerId := some p.server, state := .connected, peerCred := noCred }) none
  let filled := linked.setEnd p.server (fun us => { us with peerCred := p.cred }) (some p.cred)
  filled.enqueue p.listener p.server

/-- What an accept takes from the queue; with nothing there it waits or returns. -/
def nextServer (id : Nat) : Option Nat :=
  let us := s.socks id
  if us.inUse ∧ us.state = .listening ∧ us.acceptHead ≠ us.acceptTail then
    some (us.acceptQueue (us.acceptTail % 8))
  else none

def clientOf (server : Nat) : Option Nat :=
  if (s.socks server).inUse then
    (s.socks server).peerId.filter fun p => (s.socks p).inUse
  else none

def Paired (server client : Nat) : Prop :=
  s.madeFor server = some (s.uses client) ∧ (s.socks client).peerId = some server
  deriving Decidable

def unixSockFree (id : Nat) : UnixTable :=
  if (s.socks id).inUse then
    s.setSock id fun us =>
      let refs := (us.refcount + (2 ^ 32 - 1)) % 2 ^ 32
      if 0 < refs then { us with refcount := refs } else { us with refcount := 0, inUse := false }
  else s

def fillClient (cred : Cred) (server : Nat) : UnixTable :=
  match s.clientOf server with
  | some client => s.setEnd client (fun us => { us with peerCred := cred })
      (if s.Paired server client then some cred else s.other client)
  | none => s

def dequeue (id : Nat) : UnixTable :=
  s.setSock id fun us => { us with acceptTail := (us.acceptTail + 1) % 256 }

/-- `sys_accept`: without a descriptor the server's end is freed. -/
def unixSockAccept (cred : Cred) (id : Nat) (opened : Bool) : UnixTable :=
  match s.nextServer id with
  | none => s
  | some server =>
    let taken := (s.fillClient cred server).dequeue id
    if opened then taken else taken.unixSockFree server

def unixVfsDup (id : Nat) : UnixTable :=
  if (s.socks id).inUse then
    s.setSock id fun us => { us with refcount := (us.refcount + 1) % 2 ^ 32 }
  else s

def unixSockPeercred (id : Nat) : Option Cred :=
  if (s.socks id).inUse ∧ (s.socks id).state = .connected then some (s.socks id).peerCred
  else none

end UnixTable

inductive UnixEvent
  | socket
  | bind (id : Nat)
  | listen (id : Nat)
  | connect (cred : Cred) (id listener : Nat)
  | linked (p : Connecting)
  | accept (cred : Cred) (id : Nat) (opened : Bool)
  | dup (id : Nat)
  | free (id : Nat)

def unixStep (s : UnixTable) : UnixEvent → Option UnixTable
  | .socket => some s.unixSockAlloc
  | .bind id => some (s.unixSockBind id)
  | .listen id => some (s.unixSockListen id)
  | .connect cred id listener => some (s.connectStart cred id listener)
  | .linked p => if p ∈ s.connecting then some (s.connectFinish p) else none
  | .accept cred id opened => some (s.unixSockAccept cred id opened)
  | .dup id => some (s.unixVfsDup id)
  | .free id => some (s.unixSockFree id)

def unixBoot : UnixTable where
  socks _ := { takenSock .created none with inUse := false }
  connecting := []
  uses _ := 0
  madeFor _ := none
  other _ := none

/-- An accept that fills in credentials finds the client of that connection. -/
def FillsClient (s : UnixTable) : UnixEvent → Prop
  | .accept _ id _ => ∀ server ∈ s.nextServer id, ∀ client ∈ s.clientOf server,
      s.Paired server client
  | _ => True

instance (s : UnixTable) (event : UnixEvent) : Decidable (FillsClient s event) := by
  rcases event <;> (dsimp only [FillsClient]; infer_instance)

/-- A connected socket has the credentials of the process at its other end, and none as long
as there is no such process. -/
def Knows (us : UnixSock) (other : Option Cred) : Prop :=
  us.inUse = true → us.state = .connected → us.peerCred = other.getD noCred

def Truthful (s : UnixTable) : Prop := ∀ i, Knows (s.socks i) (s.other i)

open UnixTable

section Steps
variable {s t : UnixTable} {id : Nat} {event : UnixEvent}

theorem knows_update {socks : Nat → UnixSock} {o : Nat → Option Cred} {us : UnixSock}
    {other : Option Cred} (hk : ∀ i, Knows (socks i) (o i)) (new : Knows us other)
    (i : Nat) : Knows (update socks id us i) (update o id other i) := by
  by_cases here : i = id
  · subst here
    simpa using new
  · simpa [here] using hk i

variable {f : UnixSock → UnixSock}

section
variable (truthful : Truthful s)
include truthful

theorem Truthful.setSock (hk : ∀ us other, Knows us other → Knows (f us) other) :
    Truthful (s.setSock id f) := by
  have eq : s.other = update s.other id (s.other id) := by simp
  intro i
  rw [show (s.setSock id f).other = _ from eq]
  exact knows_update truthful (hk _ _ (truthful id)) i

theorem Truthful.setEnd {other : Option Cred} (new : ∀ us, Knows (f us) other) :
    Truthful (s.setEnd id f other) :=
  knows_update truthful (new _)

theorem Truthful.take {state : UnixState} {p : Option Nat} : Truthful (s.take id state p) :=
  knows_update truthful fun _ _ => rfl

theorem Truthful.connectStart {cred : Cred} {l : Nat} : Truthful (s.connectStart cred id l) := by
  unfold UnixTable.connectStart
  split
  · split
    · exact truthful.take
    · exact truthful
  · exact truthful

theorem Truthful.connectFinish (p : Connecting) : Truthful (s.connectFinish p) := by
  have hs : Truthful { s with connecting := s.connecting.erase p } := truthful
  unfold UnixTable.connectFinish UnixTable.enqueue
  apply Truthful.setSock
  · apply Truthful.setEnd
    · exact hs.setEnd fun _ _ _ => rfl
    · exact fun _ _ _ => rfl
  · exact fun _ _ hk => hk

theorem Truthful.unixSockFree : Truthful (s.unixSockFree id) := by
  unfold UnixTable.unixSockFree
  split
  · refine truthful.setSock fun us other hk => ?_
    dsimp only
    split
    · exact fun used hc => hk used hc
    · exact nofun
  · exact truthful

theorem Truthful.unixSockAccept {cred : Cred} {o : Bool}
    (kept : FillsClient s (.accept cred id o)) :
    Truthful (s.unixSockAccept cred id o) := by
  unfold UnixTable.unixSockAccept
  split
  · exact truthful
  next server ht =>
  have hf : Truthful (s.fillClient cred server) := by
    unfold UnixTable.fillClient
    split
    · next hc hn =>
      rw [if_pos (kept server ht hc hn)]
      exact truthful.setEnd fun _ _ _ => rfl
    · exact truthful
  have hp : Truthful ((s.fillClient cred server).dequeue id) := hf.setSock fun _ _ hk => hk
  dsimp only
  split
  · exact hp
  · exact hp.unixSockFree

theorem truthful_step (kept : FillsClient s event) (step : unixStep s event = some t) :
    Truthful t := by
  cases event with
  | socket =>
    cases step
    unfold unixSockAlloc
    split
    · exact truthful.take
    · exact truthful
  | bind id | listen id =>
    cases step
    dsimp only [unixSockBind, unixSockListen]
    split
    · exact truthful.setSock fun _ _ _ _ => by simp
    · exact truthful
  | connect cred id hl => cases step; exact truthful.connectStart
  | linked p =>
    obtain ⟨-, ⟨⟩⟩ := Option.ite_none_right_eq_some.mp step
    exact truthful.connectFinish p
  | accept cred id ho => cases step; exact truthful.unixSockAccept kept
  | dup id =>
    cases step
    unfold unixVfsDup
    split
    · exact truthful.setSock fun _ _ hk => hk
    · exact truthful
  | free id => cases step; exact truthful.unixSockFree

end

end Steps

/-- In every run whose accepts find the client they fill in, `unix_sock_peercred` reports the
process at the other end exactly when there is one: a client's end has none before it is
accepted. -/
theorem peercred_truthful {events : List UnixEvent} {s : UnixTable} {id : Nat} {cred : Cred}
    (run : RunWhere unixStep FillsClient unixBoot events s)
    (found : s.unixSockPeercred id = some cred) :
    s.other id = some cred ↔ (s.other id).isSome = true := by
  have truthful : Truthful s :=
    run.invariant (fun _ _ _ => rfl) fun _ _ _ truthful kept step =>
      truthful_step truthful kept step
  obtain ⟨⟨used, connected⟩, ⟨⟩⟩ := Option.ite_none_right_eq_some.mp found
  rw [truthful id used connected]
  cases s.other id with
  | none => exact iff_of_false nofun nofun
  | some other => exact iff_of_true rfl rfl

def connector : Cred := ⟨10, 1000, 1000⟩

def acceptor : Cred := ⟨11, 1001, 1001⟩

def stranger : Cred := ⟨12, 1002, 1002⟩

def oneConnects : List UnixEvent :=
  [.socket, .bind 0, .listen 0, .socket, .connect connector 1 0, .linked ⟨1, 0, 2, connector⟩]

theorem peercred_truthful_accepted : ∃ s,
    RunWhere unixStep FillsClient unixBoot (oneConnects ++ [.accept acceptor 0 true]) s ∧
      (s.other 1 = some acceptor ↔ (s.other 1).isSome = true) ∧
      s.unixSockPeercred 2 = some connector := by
  refine exists_runWhere_of (fun s => s.unixSockPeercred 1 = some acceptor ∧
    s.unixSockPeercred 2 = some connector) ?_
  rintro s run ⟨client, server⟩
  exact ⟨peercred_truthful run client, server⟩

/-- Before the accept the client's end reports user 0. And an accept for a client that is
closed overwrites the credentials of the socket that took its slot: it was accepted by
`acceptor` and reports `stranger`. -/
theorem peercred_untruthful :
    (∃ s, Run unixStep unixBoot oneConnects s ∧ s.unixSockPeercred 1 = some ⟨0, 0, 0⟩) ∧
    ∃ s, Run unixStep unixBoot (oneConnects ++ [.free 1, .socket, .socket, .bind 3, .listen 3,
        .connect connector 1 3, .linked ⟨1, 3, 4, connector⟩, .accept acceptor 3 true,
        .accept stranger 0 true]) s ∧
      s.other 1 = some acceptor ∧ s.unixSockPeercred 1 = some stranger :=
  ⟨exists_run, exists_run⟩

end Aegis.Unix
