import Aegis.SignalState
import Aegis.Traced
import Mathlib.Order.MinMax
import Mathlib.Algebra.GroupWithZero.Nat

/-! The user memory that the socket calls touch (`sys_socket.c`). A call is a computation that
notes every range it copies from or to; what it reads from user memory and what the rest of
the kernel answers are arguments, one for each time they are asked for, so a call that waits
is a call whose answers have not come yet. Four of the eight calls copy a range that they did
not check. -/

namespace Aegis.SockMemory

open Traced

open SignalState (Word userPtrValid userAddrMax errno)

structure Access where
  addr : Word
  len : Nat
  deriving DecidableEq

abbrev Calling := Traced Access

def copyUser (addr : Word) (len : Nat) : Calling Unit := Traced.touch ⟨addr, len⟩ ()

def InUser (a : Access) : Prop := userPtrValid a.addr a.len = true
  deriving Decidable

def ret (value : Word) : Calling (Option Word) := pure (some value)

def fail (e : Nat) : Calling (Option Word) := ret (errno e)

structure SockView where
  stream : Bool
  connected : Bool
  reuseaddr : Bool
  broadcast : Bool

def sizeofSockaddrIn : Nat := 16

/-- The loop of `sys_sendto` over a stream; `results` are the returns of `tcp_conn_send`. -/
def sendChunks (buf : Word) (len : Nat) : List Int → Nat → Calling (Option Word)
  | [], sent =>
    if len ≤ sent then ret (.ofNat 64 sent)
    else do
      copyUser (buf + .ofNat 64 sent) (min (len - sent) 1460)
      pure none
  | n :: results, sent =>
    if len ≤ sent then ret (.ofNat 64 sent)
    else do
      copyUser (buf + .ofNat 64 sent) (min (len - sent) 1460)
      if n ≤ 0 then (if 0 < sent then ret (.ofNat 64 sent) else fail 32)
      else sendChunks buf len results (sent + min n.toNat (min (len - sent) 1460))

def udpSendto (buf : Word) (len : Nat) (sends : Bool) : Calling (Option Word) := do
  copyUser buf (min len 1472)
  if sends then ret (.ofNat 64 (min len 1472)) else fail 100

def sysSendto (sock : Option SockView) (buf len addr addrlen : Word) (results : List Int)
    (sends : Bool) : Calling (Option Word) :=
  if userPtrValid buf len.toNat = false then fail 14
  else match sock with
    | none => fail 9
    | some s =>
      if s.stream then
        if s.connected then sendChunks buf len.toNat results 0 else fail 107
      else if addr ≠ 0 ∧ sizeofSockaddrIn ≤ addrlen.toNat then do
        copyUser addr sizeofSockaddrIn
        udpSendto buf len.toNat sends
      else if s.connected then udpSendto buf len.toNat sends
      else fail 89

/-- `tcp_conn_recv` with `avail` bytes in the buffer: a length of zero asks for their number. -/
def tcpConnRecv (avail maxLen : Nat) : Nat :=
  if maxLen = 0 then avail else min avail maxLen

/-- A round of `sys_recvfrom`: bytes that are there (for UDP a datagram of that length), the
end of the stream, or nothing, after which the call waits or gives up with an error. -/
inductive RecvTry
  | data (avail : Nat)
  | eof
  | nothing (givesUp : Option Nat)

def recvStream (buf : Word) (len : Nat) : List RecvTry → Calling (Option Word)
  | [] => pure none
  | .data avail :: later =>
    let n := tcpConnRecv avail (min (min (len % 2 ^ 32) avail) 8192)
    if 0 < n then do
      copyUser buf n
      ret (.ofNat 64 n)
    else recvStream buf len later
  | .eof :: _ => ret 0
  | .nothing (some e) :: _ => fail e
  | .nothing none :: later => recvStream buf len later

def recvDgram (buf : Word) (len : Nat) (addr addrlen : Word) : List RecvTry → Calling (Option Word)
  | [] => pure none
  | .data slotLen :: _ => do
    copyUser buf (min slotLen (len % 2 ^ 32))
    if addr ≠ 0 ∧ addrlen ≠ 0 ∧ userPtrValid addr sizeofSockaddrIn = true ∧
        userPtrValid addrlen 4 = true then do
      copyUser addrlen 4
      copyUser addr sizeofSockaddrIn
    ret (.ofNat 64 (min slotLen (len % 2 ^ 32)))
  | .eof :: later => recvDgram buf len addr addrlen later
  | .nothing (some e) :: _ => fail e
  | .nothing none :: later => recvDgram buf len addr addrlen later

def sysRecvfrom (sock : Option SockView) (buf len addr addrlen : Word) (tries : List RecvTry) :
    Calling (Option Word) :=
  if userPtrValid buf len.toNat = false then fail 14
  else match sock with
    | none => fail 9
    | some s =>
      if s.stream then recvStream buf len.toNat tries
      else recvDgram buf len.toNat addr addrlen tries

def sizeofMsghdr : Nat := 56

def sizeofIovec : Nat := 16

def sizeofCmsghdr : Nat := 16

def offsetControllen : Nat := 40

structure Msghdr where
  msgIov : Word
  msgIovlen : Word
  msgControl : Word
  msgControllen : Word

structure Iovec where
  iovBase : Word
  iovLen : Word

structure Cmsghdr where
  cmsgLen : Word
  cmsgLevel : Nat
  cmsgType : Nat

/-- How the data part of a call ended: all of it, with an error or a short read (`goto done`),
by a return, or not yet. The total is that of all parts so far. -/
inductive IovEnd
  | all (total : Nat)
  | done (total : Nat)
  | returned (value : Word)
  | waiting

/-- One iovec of `sys_sendmsg` in pieces of 1024 bytes; `results` are the returns of
`unix_sock_write`. -/
def sendIov (base : Word) : List Int → (off remain total : Nat) → Calling (IovEnd × List Int)
  | [], off, remain, total =>
    if remain = 0 then pure (.all total, [])
    else do
      copyUser (base + .ofNat 64 off) (min remain 1024)
      pure (.waiting, [])
  | n :: results, off, remain, total =>
    if remain = 0 then pure (.all total, n :: results)
    else do
      copyUser (base + .ofNat 64 off) (min remain 1024)
      if n < 0 then
        pure (.returned (if 0 < total then .ofNat 64 total else .ofInt 64 n), results)
      else
        let m := min n.toNat (min remain 1024)
        sendIov base results (off + m) (remain - m) (total + m)

/-- One iovec of `sys_recvmsg`; `results` are the returns of `unix_sock_read`. -/
def recvIov (base : Word) : List Int → (off remain total : Nat) → Calling (IovEnd × List Int)
  | [], _, remain, total => pure (if remain = 0 then .all total else .waiting, [])
  | n :: results, off, remain, total =>
    if remain = 0 then pure (.all total, n :: results)
    else if n ≤ 0 then
      pure (if 0 < total then .done total else .returned (.ofInt 64 n), results)
    else do
      let m := min n.toNat (min remain 1024)
      copyUser (base + .ofNat 64 off) m
      if m < min remain 1024 then pure (.done (total + m), results)
      else recvIov base results (off + m) (remain - m) (total + m)

def eachIov (one : Word → List Int → (off remain total : Nat) → Calling (IovEnd × List Int))
    (mh : Msghdr) (iov : Nat → Iovec) : (rounds i total : Nat) → List Int → Calling IovEnd
  | 0, _, total, _ => pure (.all total)
  | rounds + 1, i, total, results => do
    let place := mh.msgIov + .ofNat 64 (i * sizeofIovec)
    if userPtrValid place sizeofIovec = false then pure (.returned (errno 14))
    else do
      copyUser place sizeofIovec
      if (iov i).iovLen = 0 then eachIov one mh iov rounds (i + 1) total results
      else if userPtrValid (iov i).iovBase (iov i).iovLen.toNat = false then
        pure (.returned (errno 14))
      else do
        let part ← one (iov i).iovBase results 0 (iov i).iovLen.toNat total
        match part.1 with
        | .all total => eachIov one mh iov rounds (i + 1) total part.2
        | other => pure other

def iovRounds (mh : Msghdr) : Nat := min mh.msgIovlen.toNat 8

/-- `nfds` of `sys_sendmsg`: an unsigned difference, its quarter as an `int`, at most 16. -/
def scmCount (cmsgLen : Word) : Int :=
  min (BitVec.ofNat 32 ((cmsgLen - .ofNat 64 sizeofCmsghdr).toNat / 4)).toInt 16

/-- The length of the copy of the descriptors, `(uint32_t)(nfds * sizeof(int))`. -/
def scmBytes (nfds : Int) : Nat := (BitVec.ofInt 32 (nfds * 4)).toNat

structure Sent where
  value : Option Word
  taken : Option Int

def sendControl (mh : Msghdr) (cm : Cmsghdr) (total : Nat) : Calling Sent :=
  if mh.msgControl ≠ 0 ∧ sizeofCmsghdr ≤ mh.msgControllen.toNat then
    if userPtrValid mh.msgControl mh.msgControllen.toNat = false then pure ⟨some (errno 14), none⟩
    else do
      copyUser mh.msgControl sizeofCmsghdr
      if cm.cmsgLevel = 1 ∧ cm.cmsgType = 1 then do
        copyUser (mh.msgControl + .ofNat 64 sizeofCmsghdr) (scmBytes (scmCount cm.cmsgLen))
        pure ⟨some (.ofNat 64 total), some (scmCount cm.cmsgLen)⟩
      else pure ⟨some (.ofNat 64 total), none⟩
  else pure ⟨some (.ofNat 64 total), none⟩

/-- `isUnix` says that the descriptor is that of an `AF_UNIX` socket. -/
def sysSendmsg (isUnix : Bool) (msg : Word) (mh : Msghdr) (iov : Nat → Iovec) (cm : Cmsghdr)
    (results : List Int) : Calling Sent :=
  if isUnix = false then pure ⟨some (errno 38), none⟩
  else if userPtrValid msg sizeofMsghdr = false then pure ⟨some (errno 14), none⟩
  else do
    copyUser msg sizeofMsghdr
    match ← eachIov sendIov mh iov (iovRounds mh) 0 0 results with
    | .all total | .done total => sendControl mh cm total
    | .returned value => pure ⟨some value, none⟩
    | .waiting => pure ⟨none, none⟩

/-- What `unix_sock_recv_fds` installed goes to the control buffer if it has room. -/
def recvControl (msg : Word) (mh : Msghdr) (nfds : Nat) : Calling Unit :=
  if mh.msgControl ≠ 0 ∧ sizeofCmsghdr + 4 ≤ mh.msgControllen.toNat then
    if 0 < nfds then
      if sizeofCmsghdr + nfds * 4 ≤ mh.msgControllen.toNat then do
        copyUser mh.msgControl sizeofCmsghdr
        copyUser (mh.msgControl + .ofNat 64 sizeofCmsghdr) (nfds * 4)
        copyUser (msg + .ofNat 64 offsetControllen) 8
      else pure ()
    else copyUser (msg + .ofNat 64 offsetControllen) 8
  else pure ()

def sysRecvmsg (isUnix : Bool) (msg : Word) (mh : Msghdr) (iov : Nat → Iovec) (nfds : Nat)
    (results : List Int) : Calling (Option Word) :=
  if isUnix = false then fail 38
  else if userPtrValid msg sizeofMsghdr = false then fail 14
  else do
    copyUser msg sizeofMsghdr
    match ← eachIov recvIov mh iov (iovRounds mh) 0 0 results with
    | .all total | .done total => do
      recvControl msg mh nfds
      ret (.ofNat 64 total)
    | .returned value => ret value
    | .waiting => pure none

def sysSetsockopt (sock : Option SockView) (level optname : Nat) (optval optlen : Word) :
    Calling (Option Word) :=
  if optlen.toNat < 4 then fail 22
  else if userPtrValid optval 4 = false then fail 14
  else if sock.isNone then fail 9
  else do
    copyUser optval 4
    if level = 1 then
      if optname = 2 ∨ optname = 6 then ret 0
      else if optname = 20 ∨ optname = 21 then
        if 16 ≤ optlen.toNat then
          if userPtrValid optval 16 = false then fail 14
          else do
            copyUser optval 8
            copyUser (optval + 8) 8
            ret 0
        else ret 0
      else fail 92
    else if level = 6 ∧ optname = 1 then ret 0
    else fail 92

def putOption (optval optlen : Word) (size : Nat) : Calling (Option Word) := do
  copyUser optval size
  if optlen ≠ 0 then copyUser optlen 4
  ret 0

/-- `SO_PEERCRED` (17) of an `AF_UNIX` socket; `cred` is none when `unix_sock_peercred`
fails. -/
def sysGetsockopt (isUnix cred : Bool) (sock : Option SockView) (level optname : Nat)
    (optval optlen : Word) : Calling (Option Word) :=
  if userPtrValid optval 4 = false then fail 14
  else if isUnix = true ∧ level = 1 ∧ optname = 17 then
    if userPtrValid optval 12 = false then fail 14
    else if cred = false then fail 107
    else putOption optval optlen 12
  else if sock.isNone then fail 9
  else putOption optval optlen 4

/-- `sys_getsockname`, and `sys_getpeername` for a socket that has to be connected. -/
def getName (peer : Bool) (sock : Option SockView) (addr addrlen : Word) : Calling (Option Word) :=
  if userPtrValid addr sizeofSockaddrIn = false then fail 14
  else if addrlen = 0 then fail 14
  else if userPtrValid addrlen 4 = false then fail 14
  else match sock with
    | none => fail 9
    | some s =>
      if peer = true ∧ s.connected = false then fail 107
      else do
        copyUser addrlen 4
        copyUser addr sizeofSockaddrIn
        ret 0

def sysGetsockname (sock : Option SockView) (addr addrlen : Word) : Calling (Option Word) :=
  getName false sock addr addrlen

def sysGetpeername (sock : Option SockView) (addr addrlen : Word) : Calling (Option Word) :=
  getName true sock addr addrlen

section Ranges
variable {addr : Word} {len off n : Nat}

theorem userPtrValid_iff : userPtrValid addr len = true ↔ addr.toNat + len ≤ userAddrMax := by
  rw [userPtrValid, Bool.and_eq_true, decide_eq_true_eq, decide_eq_true_eq]
  omega

theorem userPtrValid_shift (lt : addr.toNat + off ≤ userAddrMax) :
    userPtrValid (addr + .ofNat 64 off) n = true ↔ addr.toNat + off + n ≤ userAddrMax := by
  have top : userAddrMax < 2 ^ 64 := by decide
  rw [userPtrValid_iff, BitVec.toNat_add, BitVec.toNat_ofNat,
    Nat.mod_eq_of_lt (by omega : off < 2 ^ 64), Nat.mod_eq_of_lt (by omega)]

theorem userPtrValid_part (hv : userPtrValid addr len = true) (hi : off + n ≤ len) :
    userPtrValid (addr + .ofNat 64 off) n = true := by
  rw [userPtrValid_iff] at hv
  exact (userPtrValid_shift (by omega)).mpr (by omega)

theorem userPtrValid_le (hv : userPtrValid addr len = true) (hs : n ≤ len) :
    userPtrValid addr n = true := by
  rw [userPtrValid_iff] at hv ⊢
  omega

@[simp] theorem within_copyUser :
    (copyUser addr len).Within InUser ↔ userPtrValid addr len = true :=
  within_touch

@[simp] theorem within_ret {value : Word} : (ret value).Within InUser := within_pure

@[simp] theorem within_fail {e : Nat} : (fail e).Within InUser := within_pure

end Ranges

section Loops
variable {buf base : Word} {len sent off remain total rounds i whole : Nat} {results : List Int}

theorem within_sendChunks (hv : userPtrValid buf len = true) :
    (sendChunks buf len results sent).Within InUser := by
  have chunk (more : ¬len ≤ sent) :
      userPtrValid (buf + .ofNat 64 sent) (min (len - sent) 1460) = true :=
    userPtrValid_part hv (by omega)
  induction results generalizing sent with
  | nil => simpa [sendChunks] using chunk
  | cons n results ih =>
    simp only [sendChunks, within_ite, within_bind, within_ret, within_fail,
      within_copyUser, implies_true, true_and]
    exact fun more => ⟨chunk more, fun _ => ih fun more => userPtrValid_part hv (by omega)⟩

theorem within_sendIov (hv : userPtrValid base whole = true) (parts : off + remain ≤ whole) :
    (sendIov base results off remain total).Within InUser := by
  induction results generalizing off remain total with
  | nil =>
    simp only [sendIov, within_ite, within_bind, within_pure,
      within_copyUser, implies_true, true_and, and_true]
    exact fun _ => userPtrValid_part hv (by omega)
  | cons n results ih =>
    simp only [sendIov, within_ite, within_bind, within_pure,
      within_copyUser, implies_true, true_and]
    exact fun _ => ⟨userPtrValid_part hv (by omega), fun _ => ih (by omega)⟩

theorem within_recvIov (hv : userPtrValid base whole = true) (parts : off + remain ≤ whole) :
    (recvIov base results off remain total).Within InUser := by
  induction results generalizing off remain total with
  | nil => exact within_pure
  | cons n results ih =>
    simp only [recvIov, within_ite, within_bind, within_pure,
      within_copyUser, implies_true, true_and]
    exact fun _ _ => ⟨userPtrValid_part hv (by omega), fun _ => ih (by omega)⟩

/-- Every iovec is checked before its bytes are copied, so both calls keep to the checked
ranges if their loops over one iovec do. -/
theorem within_eachIov {one : Word → List Int → Nat → Nat → Nat → Calling (IovEnd × List Int)}
    {mh : Msghdr} {iov : Nat → Iovec}
    (part : ∀ base results remain total, userPtrValid base remain = true →
      (one base results 0 remain total).Within InUser) :
    (eachIov one mh iov rounds i total results).Within InUser := by
  induction rounds generalizing i total results with
  | zero => exact within_pure
  | succ rounds ih =>
    simp only [eachIov, within_ite, within_bind, within_pure,
      within_copyUser, implies_true, true_and, Bool.not_eq_false]
    refine fun hp => ⟨hp, fun _ => ih, fun _ data => ⟨part _ _ _ _ data, ?_⟩⟩
    split
    · exact ih
    · exact within_pure

end Loops

def AddressChecked (sock : Option SockView) (buf len addr addrlen : Word) : Prop :=
  userPtrValid buf len.toNat = true ∧ (∃ s, sock = some s ∧ s.stream = false) ∧ addr ≠ 0 ∧
    sizeofSockaddrIn ≤ addrlen.toNat → userPtrValid addr sizeofSockaddrIn = true

def firstData : List RecvTry → Option Nat
  | [] => none
  | .data avail :: later => if 0 < avail then some avail else firstData later
  | .nothing none :: later => firstData later
  | _ => none

/-- A read of length zero (as 32 bits) from a stream, which copies all there is, has room. -/
def RoomForAll (sock : Option SockView) (buf len : Word) (tries : List RecvTry) : Prop :=
  userPtrValid buf len.toNat = true ∧ (∃ s, sock = some s ∧ s.stream = true) ∧
    len.toNat % 2 ^ 32 = 0 →
    ∀ avail ∈ firstData tries, userPtrValid buf avail = true

/-- The length of a control message of descriptors is not less than its header, leaves less
than `2 ^ 31` of them, and those that are taken end in user memory. -/
def ControlLength (mh : Msghdr) (cm : Cmsghdr) : Prop :=
  mh.msgControl ≠ 0 ∧ sizeofCmsghdr ≤ mh.msgControllen.toNat ∧
    userPtrValid mh.msgControl mh.msgControllen.toNat = true ∧ cm.cmsgLevel = 1 ∧
    cm.cmsgType = 1 →
  let quarter := (cm.cmsgLen - .ofNat 64 sizeofCmsghdr).toNat / 4 % 2 ^ 32
  quarter < 2 ^ 31 ∧
    mh.msgControl.toNat + sizeofCmsghdr + 4 * min quarter 16 ≤ userAddrMax

def DataMoved (part : Calling IovEnd) : Prop :=
  ∃ total, part.value = .all total ∨ part.value = .done total

/-- A control buffer that received descriptors are written to lies in user memory. -/
def ControlRoom (mh : Msghdr) (nfds : Nat) : Prop :=
  mh.msgControl ≠ 0 ∧ 0 < nfds ∧ sizeofCmsghdr + nfds * 4 ≤ mh.msgControllen.toNat →
    mh.msgControl.toNat + sizeofCmsghdr + nfds * 4 ≤ userAddrMax

def OptlenChecked (isUnix cred : Bool) (sock : Option SockView) (level optname : Nat)
    (optval optlen : Word) : Prop :=
  userPtrValid optval 4 = true ∧ optlen ≠ 0 ∧
    (if isUnix = true ∧ level = 1 ∧ optname = 17 then
      userPtrValid optval 12 = true ∧ cred = true
    else sock.isSome = true) →
  userPtrValid optlen 4 = true

section Calls
variable {sock : Option SockView} {buf len addr addrlen msg optval optlen : Word}
  {results : List Int} {tries : List RecvTry} {sends isUnix cred : Bool} {mh : Msghdr}
  {iov : Nat → Iovec} {cm : Cmsghdr} {level optname nfds : Nat}

theorem within_udpSendto (hv : userPtrValid buf len.toNat = true) :
    (udpSendto buf len.toNat sends).Within InUser := by
  simp only [udpSendto, within_bind, within_ite, within_copyUser, within_ret,
    within_fail, implies_true, and_true]
  exact userPtrValid_le hv (by omega)

theorem within_sysSendto : (sysSendto sock buf len addr addrlen results sends).Within InUser ↔
    AddressChecked sock buf len addr addrlen := by
  unfold sysSendto AddressChecked
  by_cases hv : userPtrValid buf len.toNat = true
  · cases sock with
    | none => simp [hv]
    | some s =>
      cases stream : s.stream with
      | true => simp [hv, stream, within_sendChunks]
      | false =>
        have data := @within_udpSendto buf len sends hv
        simp [hv, stream, data]
  · simp [hv]

theorem within_recvStream (hv : userPtrValid buf len.toNat = true) :
    (recvStream buf len.toNat tries).Within InUser ↔
      (len.toNat % 2 ^ 32 = 0 → ∀ avail ∈ firstData tries, userPtrValid buf avail = true) := by
  induction tries with
  | nil => simp [recvStream, firstData]
  | cons h1 hl ih =>
    cases h1 with
    | data avail =>
      by_cases some : 0 < avail
      · by_cases zero : len.toNat % 2 ^ 32 = 0
        · have all : tcpConnRecv avail (min (min 0 avail) 8192) = avail := by
            rw [Nat.zero_min, Nat.zero_min, tcpConnRecv, if_pos rfl]
          simp only [recvStream, zero, all, firstData, if_pos some, within_bind,
            within_copyUser, within_ret, and_true, forall_const, Option.mem_some_iff, forall_eq']
        · have hb : tcpConnRecv avail (min (min (len.toNat % 2 ^ 32) avail) 8192) ≤ len.toNat := by
            have part := Nat.mod_le len.toNat (2 ^ 32)
            rw [tcpConnRecv, if_neg (by omega)]
            omega
          refine iff_of_true ?_ fun all => absurd all zero
          have hc : 0 < tcpConnRecv avail (min (min (len.toNat % 2 ^ 32) avail) 8192) := by
            rw [tcpConnRecv, if_neg (by omega)]
            omega
          simp only [recvStream, hc, if_true, within_bind, within_copyUser, within_ret, and_true]
          exact userPtrValid_le hv hb
      · have none : avail = 0 := by omega
        simpa [recvStream, firstData, tcpConnRecv, none] using ih
    | eof => simp [recvStream, firstData]
    | nothing hg =>
      cases hg with
      | none => exact ih
      | some e => simp [recvStream, firstData]

theorem within_recvDgram (hv : userPtrValid buf len.toNat = true) :
    (recvDgram buf len.toNat addr addrlen tries).Within InUser := by
  induction tries with
  | nil => exact within_pure
  | cons h1 hl ih =>
    cases h1 with
    | data slotLen =>
      simp only [recvDgram, within_bind, within_ite, within_copyUser, within_ret, and_true]
      refine ⟨userPtrValid_le hv ?_, fun hn => ⟨hn.2.2.2, hn.2.2.1⟩, fun _ => trivial⟩
      exact (min_le_right _ _).trans (Nat.mod_le _ _)
    | eof => exact ih
    | nothing hg =>
      cases hg with
      | none => exact ih
      | some e => exact within_fail

theorem within_sysRecvfrom : (sysRecvfrom sock buf len addr addrlen tries).Within InUser ↔
    RoomForAll sock buf len tries := by
  unfold sysRecvfrom RoomForAll
  by_cases hv : userPtrValid buf len.toNat = true
  · cases sock with
    | none => simp [hv]
    | some s =>
      cases stream : s.stream with
      | true => simp [hv, stream, within_recvStream hv]
      | false => simp [hv, stream, within_recvDgram hv]
  · simp [hv]

theorem scmCount_eq {cmsgLen : Word}
    (lt : (cmsgLen - .ofNat 64 sizeofCmsghdr).toNat / 4 % 2 ^ 32 < 2 ^ 31) :
    scmCount cmsgLen = (min ((cmsgLen - .ofNat 64 sizeofCmsghdr).toNat / 4 % 2 ^ 32) 16 : Nat) := by
  unfold scmCount
  generalize (cmsgLen - .ofNat 64 sizeofCmsghdr).toNat / 4 = quarter at lt
  have value : (BitVec.ofNat 32 quarter).toInt = (quarter % 2 ^ 32 : Nat) := by
    rw [BitVec.toInt_eq_toNat_of_lt (by rw [BitVec.toNat_ofNat]; omega), BitVec.toNat_ofNat]
  rw [value]
  omega

theorem scmCount_neg {cmsgLen : Word}
    (hl : ¬(cmsgLen - .ofNat 64 sizeofCmsghdr).toNat / 4 % 2 ^ 32 < 2 ^ 31) :
    scmCount cmsgLen < 0 := by
  unfold scmCount
  generalize (cmsgLen - .ofNat 64 sizeofCmsghdr).toNat / 4 = quarter at hl
  have value := @BitVec.toInt_eq_toNat_cond 32 (BitVec.ofNat 32 quarter)
  rw [BitVec.toNat_ofNat, if_neg (by omega)] at value
  omega

theorem scmBytes_eq {n : Nat} (few : n ≤ 16) : scmBytes n = 4 * n := by
  have value : (n : Int) * 4 = (4 * n : Nat) := by omega
  rw [scmBytes, value, BitVec.ofInt_natCast, BitVec.toNat_ofNat]
  omega

theorem within_sendControl {total : Nat} : ((sendControl mh cm total).Within InUser ∧
    ∀ n ∈ (sendControl mh cm total).value.taken, 0 ≤ n ∧ n ≤ 16) ↔ ControlLength mh cm := by
  unfold sendControl ControlLength
  by_cases hm : mh.msgControl ≠ 0 ∧ sizeofCmsghdr ≤ mh.msgControllen.toNat
  swap
  · rw [if_neg hm]
    exact iff_of_true (by simp) fun all => absurd ⟨all.1, all.2.1⟩ hm
  rw [if_pos hm]
  by_cases hv : userPtrValid mh.msgControl mh.msgControllen.toNat = true
  swap
  · simp [hv]
  by_cases rights : cm.cmsgLevel = 1 ∧ cm.cmsgType = 1
  swap
  · have header := userPtrValid_le hv hm.2
    simp [hv, rights, header]
  have header := userPtrValid_le hv hm.2
  have fits := userPtrValid_iff.mp header
  simp only [hv, Bool.true_eq_false, if_false, rights, and_self, if_true, within_bind,
    within_copyUser, header, true_and, within_pure, and_true, bind_value,
    pure_value, Option.mem_some_iff, forall_eq', hm, ne_eq, not_false_eq_true,
    forall_const, userPtrValid_shift fits]
  by_cases lt : (cm.cmsgLen - .ofNat 64 sizeofCmsghdr).toNat / 4 % 2 ^ 32 < 2 ^ 31
  · rw [scmCount_eq lt, scmBytes_eq (min_le_right _ _)]
    constructor
    · rintro ⟨hi, -⟩
      exact ⟨lt, hi⟩
    · rintro ⟨-, hi⟩
      exact ⟨hi, by omega, by omega⟩
  · exact iff_of_false (fun all => absurd all.2.1 (not_le.mpr (scmCount_neg lt)))
      fun all => lt all.1

theorem within_sysSendmsg : ((sysSendmsg isUnix msg mh iov cm results).Within InUser ∧
    ∀ n ∈ (sysSendmsg isUnix msg mh iov cm results).value.taken, 0 ≤ n ∧ n ≤ 16) ↔
      (isUnix = true ∧ userPtrValid msg sizeofMsghdr = true ∧
        DataMoved (eachIov sendIov mh iov (iovRounds mh) 0 0 results) → ControlLength mh cm) := by
  unfold sysSendmsg
  cases isUnix with
  | false => simp
  | true =>
    by_cases hv : userPtrValid msg sizeofMsghdr = true
    · have data : (eachIov sendIov mh iov (iovRounds mh) 0 0 results).Within InUser :=
        within_eachIov fun _ _ _ _ part => within_sendIov part (by omega)
      cases hm : (eachIov sendIov mh iov (iovRounds mh) 0 0 results).value with
      | all total | done total =>
        simp [hv, data, DataMoved, hm, ← @within_sendControl mh cm total]
      | returned _ | waiting => simp [hv, data, DataMoved, hm]
    · simp [hv]

theorem within_recvControl (hv : userPtrValid msg sizeofMsghdr = true) :
    (recvControl msg mh nfds).Within InUser ↔ ControlRoom mh nfds := by
  have length : userPtrValid (msg + .ofNat 64 offsetControllen) 8 = true :=
    userPtrValid_part hv (by decide)
  unfold recvControl ControlRoom
  by_cases hw : mh.msgControl ≠ 0 ∧ 0 < nfds ∧ sizeofCmsghdr + nfds * 4 ≤ mh.msgControllen.toNat
  · have room : sizeofCmsghdr + 4 ≤ mh.msgControllen.toNat := by omega
    simp only [hw, room, ne_eq, not_false_eq_true, and_self, if_true, within_bind,
      within_copyUser, length, and_true, forall_const]
    constructor
    · rintro ⟨header, fds⟩
      exact (userPtrValid_shift (userPtrValid_iff.mp header)).mp fds
    intro hi
    have fits : mh.msgControl.toNat + sizeofCmsghdr ≤ userAddrMax := by omega
    exact ⟨userPtrValid_iff.mpr fits, (userPtrValid_shift fits).mpr hi⟩
  · refine iff_of_true ?_ fun all => absurd all hw
    simp only [within_ite, within_pure, within_copyUser, length, implies_true, and_true]
    exact fun buffer some all => absurd ⟨buffer.1, some, all⟩ hw

theorem within_sysRecvmsg : (sysRecvmsg isUnix msg mh iov nfds results).Within InUser ↔
    (isUnix = true ∧ userPtrValid msg sizeofMsghdr = true ∧
      DataMoved (eachIov recvIov mh iov (iovRounds mh) 0 0 results) → ControlRoom mh nfds) := by
  unfold sysRecvmsg
  cases isUnix with
  | false => simp
  | true =>
    by_cases hv : userPtrValid msg sizeofMsghdr = true
    · have data : (eachIov recvIov mh iov (iovRounds mh) 0 0 results).Within InUser :=
        within_eachIov fun _ _ _ _ part => within_recvIov part (by omega)
      have hc := @within_recvControl msg mh nfds hv
      cases hm : (eachIov recvIov mh iov (iovRounds mh) 0 0 results).value with
      | all _ | done _ => simp [hv, data, DataMoved, hm, hc]
      | returned _ | waiting => simp [hv, data, DataMoved, hm]
    · simp [hv]

theorem within_sysSetsockopt : (sysSetsockopt sock level optname optval optlen).Within InUser := by
  unfold sysSetsockopt
  simp only [within_ite, within_bind, within_copyUser, within_ret, within_fail,
    implies_true, true_and, and_true, Bool.not_eq_false]
  refine fun _ value _ => ⟨value, fun _ _ _ _ time => ⟨userPtrValid_le time (by omega), ?_⟩⟩
  exact @userPtrValid_part optval 16 8 8 time (by omega)

theorem within_putOption {size : Nat} (hv : userPtrValid optval size = true) :
    (putOption optval optlen size).Within InUser ↔ (optlen ≠ 0 → userPtrValid optlen 4 = true) := by
  simp only [putOption, within_bind, within_ite, within_copyUser, within_ret,
    implies_true, and_true, hv, true_and]

theorem within_sysGetsockopt :
    (sysGetsockopt isUnix cred sock level optname optval optlen).Within InUser ↔
      OptlenChecked isUnix cred sock level optname optval optlen := by
  unfold sysGetsockopt OptlenChecked
  by_cases hv : userPtrValid optval 4 = true
  · by_cases hp : isUnix = true ∧ level = 1 ∧ optname = 17
    · by_cases wide : userPtrValid optval 12 = true
      · cases cred <;> simp [hv, hp, wide, within_putOption]
      · simp [hv, hp, wide]
    · cases sock <;> simp [hv, hp, within_putOption]
  · simp [hv]

theorem within_getName {peer : Bool} : (getName peer sock addr addrlen).Within InUser := by
  unfold getName
  simp only [within_ite, within_fail, implies_true, true_and, Bool.not_eq_false]
  intro name _ length
  cases sock with
  | none => exact within_fail
  | some s =>
    simp only [within_ite, within_bind, within_fail, within_copyUser, within_ret,
      implies_true, true_and, and_true]
    exact fun _ => ⟨length, name⟩

end Calls

/-- When each of the calls keeps to ranges that `user_ptr_valid` accepts, and `sys_sendmsg`
takes a number of descriptors that its array has room for. -/
theorem sock_calls_in_user (sock : Option SockView)
    (buf len addr addrlen msg optval optlen : Word) (results : List Int) (tries : List RecvTry)
    (sends isUnix cred : Bool) (mh : Msghdr) (iov : Nat → Iovec) (cm : Cmsghdr)
    (level optname nfds : Nat) :
    ((sysSendto sock buf len addr addrlen results sends).Within InUser ↔
      AddressChecked sock buf len addr addrlen) ∧
    ((sysRecvfrom sock buf len addr addrlen tries).Within InUser ↔ RoomForAll sock buf len tries) ∧
    (((sysSendmsg isUnix msg mh iov cm results).Within InUser ∧
        ∀ n ∈ (sysSendmsg isUnix msg mh iov cm results).value.taken, 0 ≤ n ∧ n ≤ 16) ↔
      (isUnix = true ∧ userPtrValid msg sizeofMsghdr = true ∧
        DataMoved (eachIov sendIov mh iov (iovRounds mh) 0 0 results) → ControlLength mh cm)) ∧
    ((sysRecvmsg isUnix msg mh iov nfds results).Within InUser ↔
      (isUnix = true ∧ userPtrValid msg sizeofMsghdr = true ∧
        DataMoved (eachIov recvIov mh iov (iovRounds mh) 0 0 results) → ControlRoom mh nfds)) ∧
    (sysSetsockopt sock level optname optval optlen).Within InUser ∧
    ((sysGetsockopt isUnix cred sock level optname optval optlen).Within InUser ↔
      OptlenChecked isUnix cred sock level optname optval optlen) ∧
    (sysGetsockname sock addr addrlen).Within InUser ∧
    (sysGetpeername sock addr addrlen).Within InUser :=
  ⟨within_sysSendto, within_sysRecvfrom, within_sysSendmsg, within_sysRecvmsg,
    within_sysSetsockopt, within_sysGetsockopt, within_getName, within_getName⟩

def kernelAddr : Word := 0xFFFF800000000000

def datagramSock : SockView := ⟨false, false, false, false⟩

def streamSock : SockView := ⟨true, true, false, false⟩

/-- A datagram whose address is in the kernel; a read of length zero at the end of user
memory while eight bytes are there; a control message of length zero, for which -4
descriptors and almost 4 GiB are copied; descriptors received into the kernel; the length of
an option written to the kernel. -/
theorem sock_calls_leave_user :
    ¬(sysSendto (some datagramSock) 0x1000 4 kernelAddr 16 [] true).Within InUser ∧
    ¬(sysRecvfrom (some streamSock) (.ofNat 64 userAddrMax) 0 0 0 [.data 8]).Within InUser ∧
    (sysSendmsg true 0x1000 ⟨0, 0, 0x2000, 16⟩ (fun _ => ⟨0, 0⟩) ⟨0, 1, 1⟩ []).value.taken =
      some (-4) ∧
    scmBytes (-4) = 2 ^ 32 - 16 ∧
    ¬(sysRecvmsg true 0x1000 ⟨0, 0, kernelAddr, 20⟩ (fun _ => ⟨0, 0⟩) 1 []).Within InUser ∧
    ¬(sysGetsockopt false false (some streamSock) 1 2 0x1000 kernelAddr).Within InUser := by
  refine ⟨fun inside => ?_, fun inside => ?_, by decide, by decide, fun inside => ?_,
    fun inside => ?_⟩
  · exact absurd (inside ⟨kernelAddr, 16⟩ (by decide)) (by decide)
  · exact absurd (inside ⟨.ofNat 64 userAddrMax, 8⟩ (by decide)) (by decide)
  · exact absurd (inside ⟨kernelAddr, 16⟩ (by decide)) (by decide)
  · exact absurd (inside ⟨kernelAddr, 4⟩ (by decide)) (by decide)

end Aegis.SockMemory
