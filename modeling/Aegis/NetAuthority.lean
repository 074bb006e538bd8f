import Aegis.Capability
import Aegis.Descriptors
import Aegis.LabelledRun

/-! Who can use the network: the calls that create, pass on and use `AF_INET` descriptors
(`sys_socket.c`, `sys_fork`, `sys_spawn`, `SCM_RIGHTS`). Only `sys_socket` asks for
`CAP_KIND_NET_SOCKET`; everything else rests on the descriptor. `Standing` is the history of
a process: whether it has held the capability, and from whom it was given descriptors. A
process is its descriptor table here, so threads that share one are one process. -/

namespace Aegis.NetAuthority

open LabelledRun Descriptors Capability Function List Option

def procMaxFds : Nat := 16

def sockTableSize : Nat := 64

def unixPassedFdMax : Nat := 16

inductive File
  | inet (sid : Nat)
  | unix (uid : Nat)
  | plain
  deriving DecidableEq

def File.isInet : File → Bool
  | .inet _ => true
  | _ => false

structure Sock where
  live : Bool
  stream : Bool
  connected : Bool

/-- `fromHolder`: a descriptor came from a process that had held the capability;
`fromReached`: from one that had held it or had itself been reached, through any number of
hands. -/
structure Standing where
  held : Bool
  fromHolder : Bool
  fromReached : Bool
  deriving DecidableEq

namespace Standing

def pass (dst src : Standing) : Standing where
  held := dst.held
  fromHolder := dst.fromHolder || src.held
  fromReached := dst.fromReached || src.held || src.fromReached

/-- Authority by the letter: it held the capability, or was given a descriptor by a process
that had. -/
def byHolder (st : Standing) : Bool := st.held || st.fromHolder

def byReach (st : Standing) : Bool := st.held || st.fromReached

end Standing

def holdsNet (caps : CapTable) : Bool :=
  caps.slots.any fun slot => slot.kind = capKindNetSocket

/-- `staged` are the descriptors that wait in an `AF_UNIX` socket, with the standing of the
process that sent them; `sent` are the processes for which `udp_send` or `tcp_connect` sent a
packet. -/
structure NetState where
  procs : List Nat
  caps : Nat → CapTable
  standing : Nat → Standing
  fds : List (Descriptor File)
  socks : Nat → Sock
  staged : Nat → List (File × Standing)
  sent : List Nat

namespace NetState

variable (s : NetState)

def setSock (k : Nat) (sock : Sock) : NetState :=
  { s with socks := update s.socks k sock }

def sockAlloc : Option Nat :=
  (List.range sockTableSize).find? fun k => (s.socks k).live = false

def sockFree (k : Nat) : NetState :=
  s.setSock k { s.socks k with live := false }

def openAt (T fd : Nat) (f : File) : NetState :=
  { s with fds := ⟨T, fd, f⟩ :: s.fds }

def openSock (T k : Nat) : NetState :=
  match freeFd s.fds T procMaxFds with
  | some fd => s.openAt T fd (.inet k)
  | none => s.sockFree k

def sysSocket (T : Nat) (stream : Bool) : NetState :=
  if capCheck (s.caps T) capKindNetSocket capRightsRead then
    match s.sockAlloc with
    | some k => (s.setSock k ⟨true, stream, false⟩).openSock T k
    | none => s
  else s

/-- Both sockets are `AF_INET` datagram sockets, whatever the domain, and no capability is
asked for. When only one place is free the first descriptor stays in the table. -/
def sysSocketpair (T : Nat) : NetState :=
  match s.sockAlloc with
  | none => s
  | some k₀ =>
    let s₀ := s.setSock k₀ ⟨true, false, true⟩
    match s₀.sockAlloc with
    | none => s₀.sockFree k₀
    | some k₁ =>
      let s₁ := s₀.setSock k₁ ⟨true, false, true⟩
      match freeFd s₁.fds T procMaxFds with
      | none => (s₁.sockFree k₀).sockFree k₁
      | some fd₀ =>
        let s₂ := s₁.openAt T fd₀ (.inet k₀)
        match freeFd s₂.fds T procMaxFds with
        | none => (s₂.sockFree k₀).sockFree k₁
        | some fd₁ => s₂.openAt T fd₁ (.inet k₁)

def procSock (T i : Nat) : Option Nat :=
  match fileAt s.fds T i with
  | some (.inet k) => if (s.socks k).live then some k else none
  | _ => none

def sysAccept (T i : Nat) : NetState :=
  match s.procSock T i with
  | none => s
  | some _ =>
    match s.sockAlloc with
    | some k => (s.setSock k ⟨true, true, true⟩).openSock T k
    | none => s

/-- A stream sends a SYN, if there is a device and a free connection. -/
def sysConnect (T i : Nat) (sends : Bool) : NetState :=
  match s.procSock T i with
  | none => s
  | some k =>
    if (s.socks k).stream then if sends then { s with sent := T :: s.sent } else s
    else s.setSock k { s.socks k with connected := true }

/-- A datagram goes to the given address or to the connected one. -/
def sysSendto (T i : Nat) (addressed sends : Bool) : NetState :=
  match s.procSock T i with
  | none => s
  | some k =>
    if (s.socks k).stream = false ∧ (addressed ∨ (s.socks k).connected) ∧ sends then
      { s with sent := T :: s.sent }
    else s

def closeFile : File → NetState
  | .inet k => s.sockFree k
  | _ => s

def sysClose (T i : Nat) : NetState :=
  match fileAt s.fds T i with
  | some f => { s.closeFile f with fds := closeAt s.fds T i }
  | none => s

def sysDup (T i : Nat) : NetState :=
  match fileAt s.fds T i, freeFd s.fds T procMaxFds with
  | some f, some fd => s.openAt T fd f
  | _, _ => s

def sysDup2 (T old new : Nat) : NetState :=
  match fileAt s.fds T old with
  | some f => if procMaxFds ≤ new ∨ old = new then s else (s.sysClose T new).openAt T new f
  | none => s

def openOther (T : Nat) (f : File) : NetState :=
  match freeFd s.fds T procMaxFds with
  | some fd => if f.isInet then s else s.openAt T fd f
  | none => s

/-- The descriptors `fds` of the caller are staged at the peer of its socket. -/
def sysSendmsg (T i : Nat) (fds : List Nat) (peer : Nat) : NetState :=
  match fileAt s.fds T i with
  | some (.unix _) =>
    let files := fds.filterMap (fileAt s.fds T)
    if (s.staged peer).length + files.length ≤ unixPassedFdMax then
      { s with
        staged := update s.staged peer
          (s.staged peer ++ files.map fun f => (f, s.standing T)) }
    else s
  | _ => s

/-- One staged descriptor after the other, as long as the table has room; the rest is
closed. -/
def install (T : Nat) : List (File × Standing) → NetState → NetState
  | [], s => s
  | (f, src) :: rest, s =>
    match freeFd s.fds T procMaxFds with
    | some fd =>
      install T rest
        { s.openAt T fd f with
          standing := update s.standing T ((s.standing T).pass src) }
    | none => ((f, src) :: rest).foldl (fun s e => s.closeFile e.1) s

def sysRecvmsg (T i : Nat) : NetState :=
  match fileAt s.fds T i with
  | some (.unix u) =>
    { install T (s.staged u) s with staged := update s.staged u [] }
  | _ => s

def childStanding (T : Nat) (caps : CapTable) (given : Bool) : Standing :=
  let fresh : Standing := ⟨holdsNet caps, false, false⟩
  if given then fresh.pass (s.standing T) else fresh

def addProc (U : Nat) (caps : CapTable) (standing : Standing) : NetState :=
  { s with
    procs := U :: s.procs
    caps := update s.caps U caps
    standing := update s.standing U standing }

def sysFork (T U : Nat) : NetState :=
  { s.addProc U (s.caps T) (s.childStanding T (s.caps T) (!(tableFiles s.fds T).isEmpty)) with
    fds := copyTable s.fds T U }

/-- The child has the parent's descriptor `stdio` at 0, 1 and 2, or nothing. -/
def sysSpawn (T U : Nat) (caps : CapTable) (stdio : Nat) : NetState :=
  match fileAt s.fds T stdio with
  | some f =>
    { s.addProc U caps (s.childStanding T caps true) with
      fds := [⟨U, 0, f⟩, ⟨U, 1, f⟩, ⟨U, 2, f⟩] ++ s.fds }
  | none => s.addProc U caps (s.childStanding T caps false)

def setCaps (T : Nat) (caps : CapTable) : NetState :=
  { s with
    caps := update s.caps T caps
    standing := update s.standing T
      { s.standing T with held := (s.standing T).held || holdsNet caps } }

end NetState

inductive NetCall
  | setCaps (caps : CapTable)
  | openOther (f : File)
  | socket (stream : Bool)
  | socketpair
  | accept (i : Nat)
  | connect (i : Nat) (sends : Bool)
  | sendto (i : Nat) (addressed sends : Bool)
  | dup (i : Nat)
  | dup2 (old new : Nat)
  | close (i : Nat)
  | sendmsg (i : Nat) (fds : List Nat) (peer : Nat)
  | recvmsg (i : Nat)
  | dropStaged (u : Nat)
  | fork (child : Nat)
  | spawn (child : Nat) (caps : CapTable) (stdio : Nat)

structure NetEvent where
  caller : Nat
  call : NetCall

namespace NetState

def call (s : NetState) (T : Nat) : NetCall → Option NetState
  | .setCaps caps => some (s.setCaps T caps)
  | .openOther f => some (s.openOther T f)
  | .socket stream => some (s.sysSocket T stream)
  | .socketpair => some (s.sysSocketpair T)
  | .accept i => some (s.sysAccept T i)
  | .connect i sends => some (s.sysConnect T i sends)
  | .sendto i addressed sends => some (s.sysSendto T i addressed sends)
  | .dup i => some (s.sysDup T i)
  | .dup2 old new => some (s.sysDup2 T old new)
  | .close i => some (s.sysClose T i)
  | .sendmsg i fds peer => some (s.sysSendmsg T i fds peer)
  | .recvmsg i => some (s.sysRecvmsg T i)
  | .dropStaged u => some { s with staged := update s.staged u [] }
  | .fork U => if U ∈ s.procs then none else some (s.sysFork T U)
  | .spawn U caps stdio => if U ∈ s.procs then none else some (s.sysSpawn T U caps stdio)

end NetState

def netStep (s : NetState) (event : NetEvent) : Option NetState :=
  if event.caller ∈ s.procs then s.call event.caller event.call else none

def netBoot : NetState where
  procs := [0]
  caps _ := emptyCaps
  standing _ := ⟨false, false, false⟩
  fds := []
  socks _ := ⟨false, false, false⟩
  staged _ := []
  sent := []

def NoNetwork (s : NetState) (P : Nat) : Prop :=
  (∀ d ∈ s.fds, d.table = P → d.file.isInet = false) ∧ P ∉ s.sent

/-- A `socketpair` that opens a descriptor is called with authority. -/
def PairsKept (a : Standing → Bool) (s : NetState) (event : NetEvent) : Prop :=
  match event.call with
  | .socketpair =>
    ∀ k₀ ∈ s.sockAlloc, ∀ _k₁ ∈ (s.setSock k₀ ⟨true, false, true⟩).sockAlloc,
      ∀ _fd ∈ freeFd s.fds event.caller procMaxFds, a (s.standing event.caller) = true
  | _ => True

/-- An `AF_INET` descriptor that is passed on gives the receiver authority, or finds it
there. -/
def PassesKept (a : Standing → Bool) (s : NetState) (event : NetEvent) : Prop :=
  match event.call with
  | .fork _ => ∀ f ∈ tableFiles s.fds event.caller, f.isInet = true →
      a (s.childStanding event.caller (s.caps event.caller) true) = true
  | .spawn _ caps stdio => ∀ f ∈ fileAt s.fds event.caller stdio, f.isInet = true →
      a (s.childStanding event.caller caps true) = true
  | .recvmsg i => match fileAt s.fds event.caller i with
    | some (.unix u) => ∀ e ∈ s.staged u, e.1.isInet = true →
        a ((s.standing event.caller).pass e.2) = true
    | _ => True
  | _ => True

structure Grows (a : Standing → Bool) : Prop where
  held : ∀ st : Standing, st.held = true → a st = true
  pass : ∀ st src : Standing, a st = true → a (st.pass src) = true
  raise : ∀ (st : Standing) (b : Bool), a st = true → a { st with held := st.held || b } = true

theorem grows_byHolder : Grows Standing.byHolder where
  held st holds := by simp [Standing.byHolder, holds]
  pass st src holds := by
    simp only [Standing.byHolder, Standing.pass, Bool.or_eq_true] at holds ⊢
    exact holds.imp_right .inl
  raise st b holds := by
    simp only [Standing.byHolder, Bool.or_eq_true] at holds ⊢
    exact holds.imp_left .inl

theorem grows_byReach : Grows Standing.byReach where
  held st holds := by simp [Standing.byReach, holds]
  pass st src holds := by
    simp only [Standing.byReach, Standing.pass, Bool.or_eq_true] at holds ⊢
    exact holds.imp_right fun reached => .inl (.inl reached)
  raise st b holds := by
    simp only [Standing.byReach, Bool.or_eq_true] at holds ⊢
    exact holds.imp_left .inl

structure Guarded (a : Standing → Bool) (s : NetState) : Prop where
  fds : ∀ d ∈ s.fds, d.file.isInet = true → a (s.standing d.table) = true
  sent : ∀ P ∈ s.sent, a (s.standing P) = true
  known : (∀ d ∈ s.fds, d.table ∈ s.procs) ∧ ∀ P ∈ s.sent, P ∈ s.procs

theorem Guarded.noNetwork {a : Standing → Bool} {s : NetState} {P : Nat} (hg : Guarded a s)
    (none : a (s.standing P) = false) : NoNetwork s P := by
  refine ⟨fun d mem mine => ?_, fun mem => ?_⟩
  · by_contra inet
    have hh := hg.fds d mem (by simpa using inet)
    rw [mine, none] at hh
    cases hh
  · have hh := hg.sent P mem
    rw [none] at hh
    cases hh

structure Adds (a : Standing → Bool) (s t : NetState) : Prop where
  procs : ∀ P ∈ s.procs, P ∈ t.procs
  standing : ∀ P ∈ s.procs, a (s.standing P) = true → a (t.standing P) = true
  fds : ∀ d ∈ t.fds, d ∈ s.fds ∨
    d.table ∈ t.procs ∧ (d.file.isInet = true → a (t.standing d.table) = true)
  sent : ∀ P ∈ t.sent, P ∈ s.sent ∨ P ∈ t.procs ∧ a (t.standing P) = true

open NetState

open Standing

section Steps
variable {a : Standing → Bool} {s t : NetState} {event : NetEvent} {T U i k : Nat} {f : File}

theorem Guarded.adds (hg : Guarded a s) (adds : Adds a s t) : Guarded a t where
  fds d mem inet := by
    obtain old | ⟨-, new⟩ := adds.fds d mem
    · exact adds.standing _ (hg.known.1 d old) (hg.fds d old inet)
    · exact new inet
  sent P mem := by
    obtain old | ⟨-, new⟩ := adds.sent P mem
    · exact adds.standing _ (hg.known.2 P old) (hg.sent P old)
    · exact new
  known := by
    refine ⟨fun d mem => ?_, fun P mem => ?_⟩
    · obtain old | ⟨ht, -⟩ := adds.fds d mem
      · exact adds.procs _ (hg.known.1 d old)
      · exact ht
    · obtain old | ⟨ht, -⟩ := adds.sent P mem
      · exact adds.procs _ (hg.known.2 P old)
      · exact ht

/-- What a call does that neither changes capabilities nor passes descriptors on; `why` is
what gives the caller an `AF_INET` descriptor or lets it send. -/
structure Local (T : Nat) (why : Prop) (s t : NetState) : Prop where
  procs : t.procs = s.procs
  caps : t.caps = s.caps
  standing : t.standing = s.standing
  staged : t.staged = s.staged
  fds : ∀ d ∈ t.fds, d ∈ s.fds ∨ d.table = T ∧ (d.file.isInet = true → why)
  sent : ∀ P ∈ t.sent, P ∈ s.sent ∨ P = T ∧ why

section Calls
variable {why : Prop}

theorem Local.ofFds {fds : List (Descriptor File)} {socks : Nat → Sock}
    (ha : ∀ d ∈ fds, d ∈ s.fds ∨ d.table = T ∧ (d.file.isInet = true → why)) :
    Local T why s { s with fds := fds, socks := socks } :=
  ⟨rfl, rfl, rfl, rfl, ha, fun _ => .inl⟩

theorem Local.refl : Local T why s s := .ofFds fun _ => .inl

theorem Local.trans {u : NetState} (h1 : Local T why s t) (h2 : Local T why t u) :
    Local T why s u where
  procs := h2.procs.trans h1.procs
  caps := h2.caps.trans h1.caps
  standing := h2.standing.trans h1.standing
  staged := h2.staged.trans h1.staged
  fds d mem := (h2.fds d mem).elim (h1.fds d) .inr
  sent P mem := (h2.sent P mem).elim (h1.sent P) .inr

theorem Local.setSock {sock : Sock} : Local T why s (s.setSock k sock) := .ofFds fun _ => .inl

theorem Local.closeFile : Local T why s (s.closeFile f) := by
  cases f with
  | inet k => exact .setSock
  | unix u => exact .refl
  | plain => exact .refl

theorem Local.openAt {fd : Nat} (hh : f.isInet = true → why) : Local T why s (s.openAt T fd f) := by
  refine .ofFds fun d mem => ?_
  obtain rfl | old := mem_cons.mp mem
  · exact .inr ⟨rfl, hh⟩
  · exact .inl old

theorem Local.newSock {sock : Sock} (hh : why) :
    Local T why s ((s.setSock k sock).openSock T k) := by
  unfold openSock
  split
  · exact Local.setSock.trans (.openAt fun _ => hh)
  · exact Local.setSock.trans .setSock

theorem Local.send (hh : why) : Local T why s { s with sent := T :: s.sent } := by
  refine ⟨rfl, rfl, rfl, rfl, fun _ => .inl, fun P mem => ?_⟩
  obtain rfl | old := mem_cons.mp mem
  · exact .inr ⟨rfl, hh⟩
  · exact .inl old

theorem Local.sysSocket {stream : Bool} (hg : holdsNet (s.caps T) = true → why) :
    Local T why s (s.sysSocket T stream) := by
  unfold NetState.sysSocket
  split
  · next hh =>
    obtain ⟨slot, mem, hc⟩ := any_eq_true.mp hh
    simp only [covers, Bool.and_eq_true] at hc
    split
    · exact .newSock (hg (any_eq_true.mpr ⟨slot, mem, hc.1⟩))
    · exact .refl
  · exact .refl

theorem Local.sysSocketpair
    (hp : ∀ k₀ ∈ s.sockAlloc, ∀ _k₁ ∈ (s.setSock k₀ ⟨true, false, true⟩).sockAlloc,
      ∀ _fd ∈ freeFd s.fds T procMaxFds, why) : Local T why s (s.sysSocketpair T) := by
  unfold NetState.sysSocketpair
  split
  · exact .refl
  next k₀ h1 =>
  dsimp only
  split
  · exact Local.setSock.trans .setSock
  next k₁ h2 =>
  have hs : Local T why s ((s.setSock k₀ ⟨true, false, true⟩).setSock k₁ ⟨true, false, true⟩) :=
    Local.setSock.trans .setSock
  split
  · exact hs.trans (Local.setSock.trans .setSock)
  next fd₀ free =>
  have hh : why := hp k₀ h1 k₁ h2 fd₀ free
  have h1 := hs.trans (@Local.openAt _ T (.inet k₀) why fd₀ fun _ => hh)
  split
  · exact h1.trans (Local.setSock.trans .setSock)
  · exact h1.trans (.openAt fun _ => hh)

theorem Local.sysClose : Local T why s (s.sysClose T i) := by
  unfold NetState.sysClose
  split
  · next f hf =>
    have hc : Local T why s (s.closeFile f) := .closeFile
    refine hc.trans (.ofFds fun d mem => .inl ?_)
    have eq : (s.closeFile f).fds = s.fds := by cases f <;> rfl
    rw [eq]
    exact (mem_filter.mp mem).1
  · exact .refl

/-- The calls that neither change capabilities nor pass descriptors on. -/
def NetCall.local : NetCall → Bool
  | .setCaps _ | .sendmsg .. | .recvmsg _ | .dropStaged _ | .fork _ | .spawn .. => false
  | _ => true

theorem local_call {call : NetCall} (here : call.local = true)
    (hh : ∀ {i f}, fileAt s.fds T i = some f → f.isInet = true → why)
    (hg : holdsNet (s.caps T) = true → why)
    (hp : call = .socketpair → ∀ k₀ ∈ s.sockAlloc,
      ∀ _k₁ ∈ (s.setSock k₀ ⟨true, false, true⟩).sockAlloc,
      ∀ _fd ∈ freeFd s.fds T procMaxFds, why)
    (step : s.call T call = some t) : Local T why s t := by
  have live {i k : Nat} (hf : s.procSock T i = some k) : why := by
    unfold procSock at hf
    split at hf
    · next k' file => exact hh file rfl
    · cases hf
  cases call with
  | setCaps _ | sendmsg | recvmsg | dropStaged | fork | spawn => cases here
  | socket stream => cases step; exact .sysSocket hg
  | socketpair => cases step; exact .sysSocketpair (hp rfl)
  | close i => cases step; exact .sysClose
  | openOther f =>
    cases step
    unfold openOther
    split
    · split
      · exact .refl
      · next other => exact .openAt fun inet => absurd inet other
    · exact .refl
  | accept i =>
    cases step
    unfold sysAccept
    split
    · exact .refl
    next hl hf =>
    split
    · exact .newSock (live hf)
    · exact .refl
  | connect i sends =>
    cases step
    unfold sysConnect
    split
    · exact .refl
    next k hf =>
    split
    · split
      · exact .send (live hf)
      · exact .refl
    · exact .setSock
  | sendto i addressed sends =>
    cases step
    unfold sysSendto
    split
    · exact .refl
    next k hf =>
    split
    · exact .send (live hf)
    · exact .refl
  | dup i =>
    cases step
    unfold sysDup
    split
    · next f fd hf free => exact .openAt (hh hf)
    · exact .refl
  | dup2 old new =>
    cases step
    unfold sysDup2
    split
    · next f hf =>
      split
      · exact .refl
      · exact Local.sysClose.trans (.openAt (hh hf))
    · exact .refl

end Calls

theorem Local.adds (caller : T ∈ s.procs) (call : Local T (a (s.standing T) = true) s t) :
    Adds a s t := by
  refine ⟨fun _ => call.procs ▸ id, fun _ _ => call.standing ▸ id, fun d mem => ?_, fun P mem => ?_⟩
  · obtain old | ⟨rfl, hh⟩ := call.fds d mem
    · exact .inl old
    · exact .inr ⟨call.procs ▸ caller, call.standing ▸ hh⟩
  · obtain old | ⟨rfl, hh⟩ := call.sent P mem
    · exact .inl old
    · exact .inr ⟨call.procs ▸ caller, call.standing ▸ hh⟩

theorem standing_of_fileAt (hg : Guarded a s) (hf : fileAt s.fds T i = some f)
    (inet : f.isInet = true) : a (s.standing T) = true := by
  obtain ⟨d, mem, hp, rfl⟩ := exists_of_fileAt hf
  obtain rfl : d.table = T := congrArg Prod.fst hp
  exact hg.fds d mem inet

theorem Adds.ofStaged {hs : Nat → List (File × Standing)} : Adds a s { s with staged := hs } :=
  ⟨fun _ => id, fun _ _ => id, fun _ => .inl, fun _ => .inl⟩

theorem Adds.refl : Adds a s s := .ofStaged

theorem Adds.trans {u : NetState} (first : Adds a s t) (second : Adds a t u) : Adds a s u where
  procs P mem := second.procs P (first.procs P mem)
  standing P mem holds := second.standing P (first.procs P mem) (first.standing P mem holds)
  fds d mem := by
    obtain old | new := second.fds d mem
    · obtain older | ⟨there, holds⟩ := first.fds d old
      · exact .inl older
      · exact .inr ⟨second.procs _ there, fun inet => second.standing _ there (holds inet)⟩
    · exact .inr new
  sent P mem := by
    obtain old | new := second.sent P mem
    · obtain older | ⟨there, holds⟩ := first.sent P old
      · exact .inl older
      · exact .inr ⟨second.procs _ there, second.standing _ there holds⟩
    · exact .inr new

theorem pass_comm (st x y : Standing) : (st.pass x).pass y = (st.pass y).pass x := by
  simp only [Standing.pass, Bool.or_left_comm, Bool.or_comm]

variable {es : List (File × Standing)} {caps : CapTable} {call : NetCall}

theorem Local.closeFiles {why : Prop} :
    Local T why s (es.foldl (fun s e => s.closeFile e.1) s) := by
  induction es generalizing s with
  | nil => exact .refl
  | cons e es ih => exact Local.closeFile.trans ih

theorem Adds.install (hg : Grows a) (caller : T ∈ s.procs)
    (hh : ∀ e ∈ es, e.1.isInet = true → a ((s.standing T).pass e.2) = true) :
    Adds a s (install T es s) := by
  induction es generalizing s with
  | nil => exact .refl
  | cons e es ih =>
    rw [install]
    split
    · next fd free =>
      refine Adds.trans ?_ (ih caller fun hl mem inet => ?_)
      · refine ⟨fun _ => id, fun P _ pre => ?_, fun d mem => ?_, fun _ => .inl⟩
        · by_cases mine : P = T
          · subst mine
            simpa using hg.pass _ _ pre
          · simpa [mine] using pre
        · obtain rfl | old := mem_cons.mp mem
          · refine .inr ⟨caller, fun inet => ?_⟩
            simpa using hh e mem_cons_self inet
          · exact .inl old
      · have pre := hh hl (.tail _ mem) inet
        simpa [pass_comm _ e.2] using hg.pass _ e.2 pre
    · exact Local.closeFiles.adds caller

theorem Adds.sysRecvmsg (hg : Grows a) (caller : T ∈ s.procs)
    (kept : PassesKept a s ⟨T, .recvmsg i⟩) : Adds a s (s.sysRecvmsg T i) := by
  simp only [PassesKept] at kept
  unfold NetState.sysRecvmsg
  split
  · next u hf =>
    rw [hf] at kept
    exact (Adds.install hg caller kept).trans .ofStaged
  · exact .refl

theorem Adds.child {st : Standing} {fds : List (Descriptor File)} (new : U ∉ s.procs)
    (hg : ∀ d ∈ fds, d ∈ s.fds ∨ d.table = U ∧ (d.file.isInet = true → a st = true)) :
    Adds a s { s.addProc U caps st with fds := fds } := by
  refine ⟨fun P => mem_cons_of_mem U, fun P mem before => ?_, fun d mem => ?_, fun _ => .inl⟩
  · have ha : P ≠ U := fun eq => new (eq ▸ mem)
    simpa [addProc, ha] using before
  obtain old | ⟨mine, hh⟩ := hg d mem
  · exact .inl old
  · refine .inr ⟨mine ▸ .head _, fun inet => ?_⟩
    simpa [addProc, mine] using hh inet

theorem Adds.sysFork (new : U ∉ s.procs) (kept : PassesKept a s ⟨T, .fork U⟩) :
    Adds a s (s.sysFork T U) := by
  refine .child new fun d mem => ?_
  obtain hc | old := mem_append.mp mem
  · obtain ⟨d', mine, rfl⟩ := mem_map.mp hc
    have file : d'.file ∈ tableFiles s.fds T := mem_map_of_mem mine
    refine .inr ⟨rfl, fun inet => ?_⟩
    have some : (tableFiles s.fds T).isEmpty = false := by
      rw [isEmpty_eq_false_iff]
      exact ne_nil_of_mem file
    rw [some]
    exact kept d'.file file inet
  · exact .inl old

theorem Adds.sysSpawn {stdio : Nat} (new : U ∉ s.procs)
    (kept : PassesKept a s ⟨T, .spawn U caps stdio⟩) : Adds a s (s.sysSpawn T U caps stdio) := by
  unfold NetState.sysSpawn
  split
  · next f hf =>
    refine .child new fun d mem => ?_
    obtain hg | old := mem_append.mp mem
    · have eq : d.table = U ∧ d.file = f := by
        simp only [mem_cons, not_mem_nil, or_false] at hg
        obtain rfl | rfl | rfl := hg <;> exact ⟨rfl, rfl⟩
      exact .inr ⟨eq.1, fun inet => kept f hf (eq.2 ▸ inet)⟩
    · exact .inl old
  · exact .child new fun _ => .inl

theorem Adds.setCaps (hg : Grows a) : Adds a s (s.setCaps T caps) := by
  refine ⟨fun _ => id, fun P _ before => ?_, fun _ => .inl, fun _ => .inl⟩
  by_cases mine : P = T
  · subst mine
    simpa [NetState.setCaps] using hg.raise _ (holdsNet caps) before
  · simpa [NetState.setCaps, mine] using before

def Remembered (s : NetState) : Prop :=
  ∀ P, holdsNet (s.caps P) = true → (s.standing P).held = true

theorem adds_call (hg : Grows a) (ha : Guarded a s) (hr : Remembered s)
    (caller : event.caller ∈ s.procs) (pairs : PairsKept a s event)
    (hp : PassesKept a s event) (step : s.call event.caller event.call = some t) :
    Adds a s t := by
  obtain ⟨T, call⟩ := event
  by_cases here : call.local = true
  · refine (local_call here (standing_of_fileAt ha)
      (fun hh => hg.held _ (hr T hh)) ?_ step).adds caller
    rintro rfl
    exact pairs
  cases call with
  | setCaps caps => cases step; exact .setCaps hg
  | sendmsg i fds peer =>
    cases step
    unfold sysSendmsg
    split
    · dsimp only
      split <;> exact .ofStaged
    · exact .refl
  | recvmsg i => cases step; exact .sysRecvmsg hg caller hp
  | dropStaged u => cases step; exact .ofStaged
  | fork U =>
    obtain ⟨new, ⟨⟩⟩ := ite_none_left_eq_some.mp step
    exact .sysFork new hp
  | spawn U caps stdio =>
    obtain ⟨new, ⟨⟩⟩ := ite_none_left_eq_some.mp step
    exact .sysSpawn new hp
  | _ => exact absurd rfl here

theorem same_call (here : call.local = true) (step : s.call T call = some t) : Local T True s t :=
  local_call here (fun _ _ => trivial) (fun _ => trivial) (fun _ _ _ _ _ _ _ => trivial) step

theorem install_keeps : (install T es s).caps = s.caps ∧
      ∀ P, ((install T es s).standing P).held = (s.standing P).held := by
  induction es generalizing s with
  | nil => exact ⟨rfl, fun _ => rfl⟩
  | cons e es ih =>
    rw [install]
    split
    · next fd _ =>
      refine ⟨ih.1, fun P => ?_⟩
      rw [ih.2]
      by_cases mine : P = T <;> simp [mine, Standing.pass]
    · have eq : Local T True s ((e :: es).foldl (fun s e => s.closeFile e.1) s) := .closeFiles
      exact ⟨eq.caps, fun P => by rw [eq.standing]⟩

section
variable (hr : Remembered s)
include hr

theorem Remembered.ofCaps (caps : t.caps = s.caps)
    (held : ∀ P, (t.standing P).held = (s.standing P).held) : Remembered t := fun P hh => by
  rw [held]
  exact hr P (caps ▸ hh)

theorem Remembered.addProc {g : Bool} :
    Remembered (s.addProc U caps (s.childStanding T caps g)) := fun P hh => by
  by_cases mine : P = U
  · subst mine
    have mem : holdsNet caps = true := by simpa [NetState.addProc] using hh
    cases g <;> simpa [NetState.addProc, NetState.childStanding, Standing.pass] using mem
  · have pre := hr P (by simpa [NetState.addProc, mine] using hh)
    simpa [NetState.addProc, mine] using pre

theorem Remembered.setCaps : Remembered (s.setCaps T caps) := fun P hh => by
  by_cases mine : P = T
  · subst mine
    have mem : holdsNet caps = true := by simpa [NetState.setCaps] using hh
    simp [NetState.setCaps, mem]
  · have pre := hr P (by simpa [NetState.setCaps, mine] using hh)
    simpa [NetState.setCaps, mine] using pre

theorem remembered_call (step : s.call T call = some t) : Remembered t := by
  by_cases here : call.local = true
  · have eq := same_call here step
    exact hr.ofCaps eq.caps fun P => by rw [eq.standing]
  cases call with
  | setCaps caps => cases step; exact hr.setCaps
  | sendmsg i fds peer =>
    cases step
    unfold sysSendmsg
    dsimp only
    repeat' split
    all_goals exact hr
  | recvmsg i =>
    cases step
    unfold sysRecvmsg
    split
    · exact hr.ofCaps install_keeps.1 install_keeps.2
    · exact hr
  | dropStaged u => cases step; exact hr
  | fork U =>
    obtain ⟨-, ⟨⟩⟩ := ite_none_left_eq_some.mp step
    exact hr.addProc
  | spawn U caps stdio =>
    obtain ⟨-, ⟨⟩⟩ := ite_none_left_eq_some.mp step
    unfold sysSpawn
    split <;> exact hr.addProc
  | _ => exact absurd rfl here

end

def StagedReach (s : NetState) : Prop :=
  ∀ u, ∀ e ∈ s.staged u, e.1.isInet = true → e.2.byReach = true

theorem StagedReach.drop (hs : StagedReach s) {u : Nat}
    (eq : t.staged = update s.staged u []) : StagedReach t := fun v e mem inet => by
  rw [eq] at mem
  by_cases mine : v = u
  · simp [mine] at mem
  · exact hs v e (by simpa [mine] using mem) inet

theorem StagedReach.sysSendmsg {fds : List Nat} {peer : Nat} (hs : StagedReach s)
    (hg : Guarded byReach s) : StagedReach (s.sysSendmsg T i fds peer) := by
  unfold NetState.sysSendmsg
  split
  · dsimp only
    split
    · intro v e mem inet
      by_cases mine : v = peer
      · subst mine
        simp only [update_self] at mem
        obtain old | new := mem_append.mp mem
        · exact hs v e old inet
        obtain ⟨g, sent, rfl⟩ := mem_map.mp new
        obtain ⟨fd, -, hf⟩ := mem_filterMap.mp sent
        exact standing_of_fileAt hg hf inet
      · exact hs v e (by simpa [mine] using mem) inet
    · exact hs
  · exact hs

theorem stagedReach_call (hs : StagedReach s) (hg : Guarded byReach s)
    (step : s.call T call = some t) : StagedReach t := by
  by_cases here : call.local = true
  · have eq := (same_call here step).staged
    exact fun u e mem => hs u e (eq ▸ mem)
  cases call with
  | setCaps caps => cases step; exact hs
  | sendmsg i fds peer => cases step; exact hs.sysSendmsg hg
  | recvmsg i =>
    cases step
    unfold sysRecvmsg
    split
    · exact hs.drop rfl
    · exact hs
  | dropStaged u => cases step; exact hs.drop rfl
  | fork U =>
    obtain ⟨-, ⟨⟩⟩ := ite_none_left_eq_some.mp step
    exact hs
  | spawn U caps stdio =>
    obtain ⟨-, ⟨⟩⟩ := ite_none_left_eq_some.mp step
    unfold sysSpawn
    split <;> exact hs
  | _ => exact absurd rfl here

theorem byReach_pass {dst src : Standing} (hh : src.byReach = true) :
    (dst.pass src).byReach = true := by
  simp only [Standing.byReach, Standing.pass, Bool.or_eq_true] at hh ⊢
  exact .inr (hh.elim (fun held => .inl (.inr held)) .inr)

theorem passesKept_byReach (hg : Guarded byReach s) (hs : StagedReach s) :
    PassesKept byReach s event := by
  obtain ⟨T, call⟩ := event
  cases call with
  | fork U =>
    intro g file inet
    obtain ⟨d, mine, rfl⟩ := mem_map.mp file
    obtain ⟨mem, table⟩ := mem_filter.mp mine
    have hh := hg.fds d mem inet
    rw [of_decide_eq_true table] at hh
    exact byReach_pass hh
  | spawn U caps stdio =>
    intro g hf inet
    exact byReach_pass (standing_of_fileAt hg hf inet)
  | recvmsg i =>
    simp only [PassesKept]
    split
    · intro e mem inet
      exact byReach_pass (hs _ e mem inet)
    · trivial
  | _ => trivial

end Steps

theorem guarded_netBoot (a : Standing → Bool) : Guarded a netBoot where
  fds d mem := by cases mem
  sent P mem := by cases mem
  known := ⟨fun d mem => (by cases mem), fun P mem => (by cases mem)⟩

theorem remembered_netBoot : Remembered netBoot := fun _ hh => by
  have none : holdsNet emptyCaps = false := by decide
  exact absurd (none.symm.trans hh) Bool.false_ne_true

instance (a : Standing → Bool) (s : NetState) (event : NetEvent) :
    Decidable (PairsKept a s event) := by
  obtain ⟨T, call⟩ := event
  rcases call <;> (dsimp only [PairsKept]; infer_instance)

instance (a : Standing → Bool) (s : NetState) (event : NetEvent) :
    Decidable (PassesKept a s event) := by
  obtain ⟨T, call⟩ := event
  cases call with
  | recvmsg i => dsimp only [PassesKept]; split <;> infer_instance
  | _ => dsimp only [PassesKept]; infer_instance

structure Sound (a : Standing → Bool) (s : NetState) : Prop where
  guarded : Guarded a s
  remembered : Remembered s

theorem sound_step {a : Standing → Bool} {s t : NetState} {event : NetEvent} (hg : Grows a)
    (hs : Sound a s) (pairs : PairsKept a s event) (hp : PassesKept a s event)
    (step : netStep s event = some t) : Sound a t := by
  obtain ⟨caller, step⟩ := ite_none_right_eq_some.mp step
  have adds := adds_call hg hs.guarded hs.remembered caller pairs hp step
  exact ⟨hs.guarded.adds adds, remembered_call hs.remembered step⟩

theorem sound_run_byHolder {events : List NetEvent} {s : NetState} (run : RunWhere netStep
      (fun s event => PairsKept byHolder s event ∧ PassesKept byHolder s event)
      netBoot events s) : Sound byHolder s :=
  run.invariant ⟨guarded_netBoot _, remembered_netBoot⟩ fun _ _ _ hs kept step =>
    sound_step grows_byHolder hs kept.1 kept.2 step

theorem sound_run_byReach {events : List NetEvent} {s : NetState}
    (run : RunWhere netStep (PairsKept byReach) netBoot events s) :
    Sound byReach s ∧ StagedReach s := by
  have hn : StagedReach netBoot := fun u e mem => by cases mem
  apply @RunWhere.invariant _ _ _ _ _ _ _ (fun s => Sound byReach s ∧ StagedReach s) run
  · exact ⟨⟨guarded_netBoot _, remembered_netBoot⟩, hn⟩
  rintro s event t ⟨hs, ht⟩ pairs step
  have hp : PassesKept byReach s event := passesKept_byReach hs.guarded ht
  refine ⟨sound_step grows_byReach hs pairs hp step, ?_⟩
  obtain ⟨-, step⟩ := ite_none_right_eq_some.mp step
  exact stagedReach_call ht hs.guarded step

/-- No process without authority uses the network, where every `socketpair` has authority;
when authority is counted through one hand only, every descriptor passed on must give it as
well. -/
theorem network_needs_authority {events : List NetEvent} {s : NetState} :
    (RunWhere netStep (PairsKept Standing.byReach) netBoot events s →
      ∀ P, (s.standing P).byReach = false → NoNetwork s P) ∧
    (RunWhere netStep (fun s event =>
        PairsKept Standing.byHolder s event ∧ PassesKept Standing.byHolder s event)
        netBoot events s →
      ∀ P, (s.standing P).byHolder = false → NoNetwork s P) :=
  ⟨fun run _ none => (sound_run_byReach run).1.guarded.noNetwork none,
    fun run _ none => (sound_run_byHolder run).guarded.noNetwork none⟩

def netCaps : CapTable :=
  capGrant emptyCaps capKindNetSocket capRightsRead

def authorisedEvents : List NetEvent :=
  [⟨0, .setCaps netCaps⟩, ⟨0, .socket false⟩, ⟨0, .sendto 0 true true⟩, ⟨0, .socketpair⟩,
    ⟨0, .spawn 1 emptyCaps 0⟩, ⟨1, .sendto 0 true true⟩, ⟨0, .spawn 2 emptyCaps 9⟩]

theorem network_needs_authority_granted : ∃ s,
    RunWhere netStep (PairsKept Standing.byReach) netBoot authorisedEvents s ∧
    RunWhere netStep (fun s event =>
      PairsKept Standing.byHolder s event ∧ PassesKept Standing.byHolder s event)
      netBoot authorisedEvents s ∧
    s.sent = [1, 0] ∧ (s.standing 2).byReach = false ∧ NoNetwork s 2 := by
  have ends : ∃ s, RunWhere netStep (fun s event => PairsKept Standing.byReach s event ∧
      PairsKept Standing.byHolder s event ∧ PassesKept Standing.byHolder s event)
      netBoot authorisedEvents s ∧ s.sent = [1, 0] ∧ (s.standing 2).byReach = false :=
    exists_runWhere
  obtain ⟨s, run, sent, none⟩ := ends
  have reach := run.mono fun _ _ kept => kept.1
  exact ⟨s, reach, run.mono fun _ _ kept => kept.2, sent, none,
    network_needs_authority.1 reach 2 none⟩

/-- A process that never held the capability and was given no descriptor sends a packet
through a `socketpair`; and one that was given a descriptor through two hands has an `AF_INET`
descriptor, though neither it nor the process that gave it ever held the capability. -/
theorem network_without_authority :
    (∃ s, Run netStep netBoot [⟨0, .socketpair⟩, ⟨0, .sendto 0 true true⟩] s ∧
      s.standing 0 = ⟨false, false, false⟩ ∧ s.sent = [0] ∧
      fileAt s.fds 0 0 = some (.inet 0)) ∧
    ∃ s, Run netStep netBoot [⟨0, .setCaps netCaps⟩, ⟨0, .socket false⟩,
        ⟨0, .spawn 1 emptyCaps 0⟩, ⟨1, .spawn 2 emptyCaps 0⟩] s ∧
      (s.standing 2).byHolder = false ∧ fileAt s.fds 2 0 = some (.inet 0) :=
  ⟨exists_run, exists_run⟩

end Aegis.NetAuthority
