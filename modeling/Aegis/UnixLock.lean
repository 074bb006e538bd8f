import Aegis.Unix

/-! The lock of the `AF_UNIX` sockets while descriptors are in flight (`unix_socket.c`). Close
hooks of staged descriptors run with `unix_lock` held, and the hook of a socket takes it. -/

namespace Aegis.UnixLock

open LabelledRun Unix Function

/-- A descriptor in flight: a socket, or one of another kind, whose hooks leave `unix_lock` alone. -/
inductive PassedFd
  | unixSock (id : Nat)
  | other
  deriving DecidableEq

structure Sockets where
  table : UnixTable
  passedFds : Nat → List PassedFd

namespace Sockets

variable (s : Sockets)

def withTable (table : UnixTable) : Sockets :=
  ⟨table, fun i => if table.uses i = s.table.uses i then s.passedFds i else []⟩

def LastRef (id : Nat) : Prop :=
  (s.table.socks id).inUse ∧ ((s.table.socks id).refcount + (2 ^ 32 - 1)) % 2 ^ 32 = 0
  deriving Decidable

def vfsClose (unixVfsClose : Sockets → Nat → Option Sockets) (s : Sockets) :
    PassedFd → Option Sockets
  | .unixSock id => unixVfsClose s id
  | .other => some s

end Sockets

/-- A call chain that may take `unix_lock` so many times more: once outside of it, and not at all
while it holds the lock, where it waits for itself for ever. -/
def unixSockFree : Nat → Sockets → Nat → Option Sockets
  | 0, _, _ => none
  | locks + 1, s, id =>
    let freed := s.withTable (s.table.unixSockFree id)
    if s.LastRef id then
      (s.passedFds id).foldlM (Sockets.vfsClose fun s id => unixSockFree locks s id) freed
    else some freed

/-- Descriptors are installed until `maxFds` or the free slots of the caller's table run out. -/
def unixSockRecvFds (s : Sockets) (id maxFds freeFds : Nat) : Option Sockets :=
  if (s.table.socks id).inUse then do
    let s ← ((s.passedFds id).drop (min maxFds freeFds)).foldlM
      (Sockets.vfsClose (unixSockFree 0)) s
    some { s with passedFds := update s.passedFds id [] }
  else some s

def unixSockStageFds (s : Sockets) (peer : Nat) (fds : List PassedFd) : Sockets :=
  if (s.table.socks peer).inUse ∧ (s.passedFds peer).length + fds.length ≤ 16 then
    { s with passedFds := update s.passedFds peer (s.passedFds peer ++ fds) }
  else s

def vfsDup (table : UnixTable) : PassedFd → UnixTable
  | .unixSock id => table.unixVfsDup id
  | .other => table

/-- `sys_sendmsg`: every descriptor is duplicated, without the lock, and staged at the peer. -/
def sysSendmsg (s : Sockets) (id : Nat) (fds : List PassedFd) : Sockets :=
  match (s.table.socks id).inUse, (s.table.socks id).peerId with
  | true, some peer => unixSockStageFds (s.withTable (fds.foldl vfsDup s.table)) peer fds
  | _, _ => s

inductive Call
  | unix (event : UnixEvent)
  | sendmsg (id : Nat) (fds : List PassedFd)
  | recvFds (id maxFds freeFds : Nat)

/-- An accept takes the lock anew after each wait. Without a descriptor `sys_accept` frees the
server's end afterwards, a call of its own here. -/
def call (s : Sockets) : Call → Option Sockets
  | .unix (.free id) => unixSockFree 1 s id
  | .unix (.accept cred id _) => some (s.withTable (s.table.unixSockAccept cred id true))
  | .unix event => some (s.withTable ((unixStep s.table event).getD s.table))
  | .sendmsg id fds => some (sysSendmsg s id fds)
  | .recvFds id maxFds freeFds => unixSockRecvFds s id maxFds freeFds

def boot : Sockets := ⟨unixBoot, fun _ => []⟩

/-- No socket is among the descriptors that the call drops. -/
def DropsNoSocket (s : Sockets) : Call → Prop
  | .unix (.free id) => s.LastRef id → ∀ other, .unixSock other ∉ s.passedFds id
  | .recvFds id maxFds freeFds => (s.table.socks id).inUse →
      ∀ other, .unixSock other ∉ (s.passedFds id).drop (min maxFds freeFds)
  | _ => True

theorem closeAll_isSome (fds : List PassedFd) (s : Sockets) :
    (fds.foldlM (Sockets.vfsClose fun s id => unixSockFree 0 s id) s).isSome ↔
      ∀ id, .unixSock id ∉ fds := by
  induction fds with
  | nil => simp
  | cons fd fds ih =>
    cases fd with
    | unixSock id =>
      constructor
      · intro hr
        cases hr
      · intro none
        exact absurd (List.mem_cons_self ..) (none id)
    | other => simpa [Sockets.vfsClose] using ih

theorem unixSockFree_isSome (s : Sockets) (id : Nat) :
    (unixSockFree 1 s id).isSome ↔ DropsNoSocket s (.unix (.free id)) := by
  unfold unixSockFree DropsNoSocket
  split
  · next last => simp only [closeAll_isSome, last, forall_const]
  · next hs => simp [hs]

theorem unixSockRecvFds_isSome (s : Sockets) (id hm hf : Nat) :
    (unixSockRecvFds s id hm hf).isSome ↔ DropsNoSocket s (.recvFds id hm hf) := by
  unfold unixSockRecvFds DropsNoSocket
  split
  · next used => simp only [bind, Option.isSome_bind, Option.isSome_some, Option.any_true,
      closeAll_isSome, used, forall_const]
  · next hu => simp [hu]

/-- A call returns, and so never waits for the lock it holds, exactly if it drops no socket. -/
theorem call_returns_iff (s : Sockets) (c : Call) : (call s c).isSome ↔ DropsNoSocket s c := by
  cases c with
  | unix event =>
    cases event with
    | free id => exact unixSockFree_isSome s id
    | _ => exact iff_of_true rfl trivial
  | sendmsg id fds => exact iff_of_true rfl trivial
  | recvFds id maxFds freeFds => exact unixSockRecvFds_isSome s id maxFds freeFds

/-- A client sends a socket before its connection is accepted, and the server's end is closed. -/
theorem close_waits_for_itself :
    ∃ s, Run call boot [.unix .socket, .unix (.bind 0), .unix (.listen 0), .unix .socket,
      .unix (.connect noCred 1 0), .unix (.linked ⟨1, 0, 2, noCred⟩), .unix .socket,
      .sendmsg 1 [.unixSock 3], .unix (.accept noCred 0 true)] s ∧
      s.passedFds 2 = [.unixSock 3] ∧ (call s (.unix (.free 2))).isNone :=
  exists_run

end Aegis.UnixLock
