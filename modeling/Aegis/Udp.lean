import Aegis.LabelledRun

/-! UDP ports: the binding table of `udp.c` and the sockets that `sys_socket.c` binds to it.
The table is keyed by port and a socket has a `local_port` of its own; `sys_bind` sets the
second before it asks for the first, and `sock_vfs_close` releases by port. `Owned` says that
the two agree, and `UdpKept` for which binds they do. -/

namespace Aegis.Udp

open LabelledRun Function List

def udpBindingsMax : Nat := 16

def sockTableSize : Nat := 64

def sockNone : Nat := 0xFFFFFFFF

def udpRxSlots : Nat := 8

def udpRxMaxbuf : Nat := 1500

structure Datagram where
  addr : Nat
  srcPort : Nat
  dstPort : Nat
  payload : List Nat
  deriving DecidableEq

structure Binding where
  port : Nat
  sockId : Nat
  deriving DecidableEq

structure UdpSock where
  live : Bool
  dgram : Bool
  localPort : Nat
  rx : List Datagram

structure UdpState where
  bindings : Nat → Binding
  socks : Nat → UdpSock
  sent : List Datagram

namespace UdpState

variable (s : UdpState)

def setSock (k : Nat) (sock : UdpSock) : UdpState :=
  { s with socks := update s.socks k sock }

def findPort (port : Nat) : Option Nat :=
  (List.range udpBindingsMax).find? fun i => (s.bindings i).port = port ∧ (s.bindings i).port ≠ 0

def freeEntry : Option Nat :=
  (List.range udpBindingsMax).find? fun i => (s.bindings i).port = 0

def udpBind (port sockId : Nat) : UdpState × Int :=
  if (s.findPort port).isSome then (s, -1)
  else match s.freeEntry with
    | some i => ({ s with bindings := update s.bindings i ⟨port, sockId⟩ }, 0)
    | none => (s, -1)

def udpUnbind (port : Nat) : UdpState :=
  if port = 0 then s
  else { s with bindings := fun i => if (s.bindings i).port = port then ⟨0, 0⟩ else s.bindings i }

def push (k : Nat) (d : Datagram) : UdpState :=
  if (s.socks k).rx.length + 1 = udpRxSlots then s
  else s.setSock k { s.socks k with
    rx := (s.socks k).rx ++ [{ d with payload := d.payload.take udpRxMaxbuf }] }

def udpRx (d : Datagram) : UdpState :=
  match s.findPort d.dstPort with
  | some i =>
    let sid := (s.bindings i).sockId
    if sid = sockNone ∨ sockTableSize ≤ sid ∨ (s.socks sid).live = false then s else s.push sid d
  | none => s

/-- `sock_alloc`, and `sock_free` again when no descriptor is free. -/
def sysSocket (dgram fdFree : Bool) : UdpState :=
  match (List.range sockTableSize).find? fun k => (s.socks k).live = false with
  | some k => s.setSock k ⟨fdFree, dgram, 0, []⟩
  | none => s

/-- The port and state of the socket are set before the table is asked. -/
def sysBind (k port : Nat) : UdpState × Int :=
  if (s.socks k).live = false then (s, -9)
  else if port = 0 then (s, -22)
  else
    let bound := s.setSock k { s.socks k with localPort := port }
    if (s.socks k).dgram then
      let (after, r) := bound.udpBind port k
      (after, if r = 0 then 0 else -98)
    else (bound, 0)

def sysSendto (k addr dstPort : Nat) (payload : List Nat) : UdpState :=
  if (s.socks k).live ∧ (s.socks k).dgram then
    { s with sent := s.sent ++ [⟨addr, (s.socks k).localPort, dstPort, payload.take 1472⟩] }
  else s

def sysRecvfrom (k : Nat) : UdpState :=
  if (s.socks k).live ∧ (s.socks k).dgram then
    s.setSock k { s.socks k with rx := (s.socks k).rx.tail }
  else s

def sockVfsClose (k : Nat) : UdpState :=
  let after :=
    if (s.socks k).live ∧ (s.socks k).dgram ∧ (s.socks k).localPort ≠ 0 then
      s.udpUnbind (s.socks k).localPort
    else s
  after.setSock k { s.socks k with live := false }

end UdpState

inductive UdpEvent
  | socket (dgram fdFree : Bool)
  | bind (k port : Nat)
  | sendto (k addr dstPort : Nat) (payload : List Nat)
  | recvfrom (k : Nat)
  | close (k : Nat)
  | datagram (d : Datagram)

def udpStep (s : UdpState) : UdpEvent → Option UdpState
  | .socket dgram fdFree => some (s.sysSocket dgram fdFree)
  | .bind k port => if k < sockTableSize then some (s.sysBind k port).1 else none
  | .sendto k addr dstPort payload => some (s.sysSendto k addr dstPort payload)
  | .recvfrom k => some (s.sysRecvfrom k)
  | .close k => some (s.sockVfsClose k)
  | .datagram d => some (s.udpRx d)

def udpBoot : UdpState where
  bindings _ := ⟨0, 0⟩
  socks _ := ⟨false, false, 0, []⟩
  sent := []

def Owns (s : UdpState) (p k : Nat) : Prop :=
  p ≠ 0 ∧ ∃ i < udpBindingsMax, s.bindings i = ⟨p, k⟩

instance (s : UdpState) (p k : Nat) : Decidable (Owns s p k) :=
  inferInstanceAs (Decidable (_ ∧ _))

def Claims (s : UdpState) (p k : Nat) : Prop :=
  (s.socks k).live = true ∧ (s.socks k).dgram = true ∧ (s.socks k).localPort = p
  deriving Decidable

/-- A bound port has one owner, which is a live socket with that port and the only one, and
a datagram to the port goes to the owner. -/
structure Owned (s : UdpState) : Prop where
  claims : ∀ p k, Owns s p k → k < sockTableSize ∧ Claims s p k
  sole : ∀ p k j, Owns s p k → Claims s p j → j = k
  delivers : ∀ k (d : Datagram), Owns s d.dstPort k → s.udpRx d = s.push k d

structure OwnerMoves (s : UdpState) (event : UdpEvent) (t : UdpState) : Prop where
  stays : ∀ p k, Owns s p k → event ≠ .close k → Owns t p k
  begins : ∀ p k, Owns t p k → Owns s p k ∨ event = .bind k p
  ends : ∀ p k, event = .close k → ¬Owns t p k

/-- A UDP socket binds the port it owns already; or it owns none, nobody owns the port, and
no other socket claims it if there is a free entry. -/
def UdpKept (s : UdpState) : UdpEvent → Prop
  | .bind k port =>
    (s.socks k).live = true ∧ (s.socks k).dgram = true ∧ port ≠ 0 →
      Owns s port k ∨
      ¬Owns s (s.socks k).localPort k ∧ s.findPort port = none ∧
        (s.freeEntry = none ∨ ∀ j < sockTableSize, Claims s port j → j = k)
  | _ => True

instance (s : UdpState) (event : UdpEvent) : Decidable (UdpKept s event) := by
  rcases event <;> (dsimp only [UdpKept]; infer_instance)

variable {s t : UdpState} {event : UdpEvent} {p q k j i : Nat} {d : Datagram}

theorem exists_of_findPort (hf : s.findPort p = some i) : Owns s p (s.bindings i).sockId := by
  have hh := find?_some hf
  have hi := mem_range.mp (mem_of_find?_eq_some hf)
  simp only [decide_eq_true_eq] at hh
  exact ⟨hh.1 ▸ hh.2, i, hi, by rw [← hh.1]⟩

theorem findPort_eq_none : s.findPort p = none ↔ ∀ k, ¬Owns s p k := by
  constructor
  · rintro none k ⟨hn, i, hi, entry⟩
    have here := find?_eq_none.mp none i (mem_range.mpr hi)
    simp [entry, hn] at here
  · intro hb
    cases hf : s.findPort p with
    | none => rfl
    | some i => exact absurd (exists_of_findPort hf) (hb _)

inductive UdpMove (s t : UdpState) : UdpEvent → Prop
  | quiet {event : UdpEvent} (notClose : ∀ k, event ≠ .close k)
      (owns : ∀ p k, Owns t p k ↔ Owns s p k)
      (claims : ∀ p k, p ≠ 0 → (Claims t p k ↔ Claims s p k)) : UdpMove s t event
  | closes {k : Nat} (owns : ∀ p j, Owns t p j ↔ Owns s p j ∧ ¬Claims s p k)
      (claims : ∀ p j, Claims t p j ↔ Claims s p j ∧ j ≠ k) : UdpMove s t (.close k)
  | binds {k port : Nat} (inside : k < sockTableSize)
      (own : (s.socks k).live = true ∧ (s.socks k).dgram = true ∧ port ≠ 0)
      (claims : ∀ p j, Claims t p j ↔ if j = k then p = port else Claims s p j)
      (owns : s.findPort port = none ∧ (s.freeEntry ≠ none ∧
          ∀ p j, Owns t p j ↔ Owns s p j ∨ p = port ∧ j = k) ∨
        (s.findPort port ≠ none ∨ s.freeEntry = none) ∧ ∀ p j, Owns t p j ↔ Owns s p j) :
      UdpMove s t (.bind k port)

theorem UdpMove.still (hn : ∀ k, event ≠ .close k) : UdpMove s s event :=
  .quiet hn (fun _ _ => Iff.rfl) fun _ _ _ => Iff.rfl

theorem owns_congr (bindings : t.bindings = s.bindings) (p k : Nat) : Owns t p k ↔ Owns s p k := by
  rw [Owns, bindings, Owns]

open UdpState

theorem claims_setSock {sock : UdpSock} (p j : Nat) : Claims (s.setSock k sock) p j ↔
      if j = k then sock.live = true ∧ sock.dgram = true ∧ sock.localPort = p
      else Claims s p j := by
  by_cases here : j = k
  · subst here
    simp [Claims, setSock]
  · simp [Claims, setSock, here]

theorem claims_setRx {rx : List Datagram} (p j : Nat) :
    Claims (s.setSock k { s.socks k with rx := rx }) p j ↔ Claims s p j := by
  rw [claims_setSock]
  split
  · next here => rw [here, Claims]
  · rfl

theorem push_move (hn : ∀ k, event ≠ .close k) : UdpMove s (s.push k d) event := by
  unfold push
  split
  · exact .still hn
  · exact .quiet hn (fun _ _ => Iff.rfl) fun p j _ => claims_setRx p j

theorem sysSocket_move {dgram hf : Bool} : UdpMove s (s.sysSocket dgram hf) (.socket dgram hf) := by
  unfold sysSocket
  split
  · next k hn =>
    have free : (s.socks k).live = false := by simpa using find?_some hn
    refine .quiet (by simp) (fun _ _ => Iff.rfl) fun p j nonzero => ?_
    rw [claims_setSock]
    split
    · next here =>
      subst here
      simp [Claims, free, Ne.symm nonzero]
    · rfl
  · exact .still (by simp)

theorem udpUnbind_owns (hn : q ≠ 0) (p j : Nat) :
    Owns (s.udpUnbind q) p j ↔ Owns s p j ∧ p ≠ q := by
  simp only [Owns, udpUnbind, if_neg hn]
  constructor
  · rintro ⟨pos, i, hi, entry⟩
    split at entry
    · cases entry
      exact absurd rfl pos
    next other =>
    rw [entry] at other
    exact ⟨⟨pos, i, hi, entry⟩, other⟩
  · rintro ⟨⟨pos, i, hi, entry⟩, other⟩
    refine ⟨pos, i, hi, ?_⟩
    rw [if_neg (by rwa [entry])]
    exact entry

theorem sockVfsClose_move : UdpMove s (s.sockVfsClose k) (.close k) := by
  refine .closes (fun p j => ?_) fun p j => ?_
  · by_cases hb : (s.socks k).live = true ∧ (s.socks k).dgram = true ∧ (s.socks k).localPort ≠ 0
    · have owns := @udpUnbind_owns s (s.socks k).localPort hb.2.2 p j
      have table : (s.sockVfsClose k).bindings = (s.udpUnbind (s.socks k).localPort).bindings := by
        simp [sockVfsClose, setSock, hb]
      rw [owns_congr table, owns]
      simp [Claims, hb.1, hb.2.1, eq_comm]
    · have table : (s.sockVfsClose k).bindings = s.bindings := by
        simp only [sockVfsClose, setSock, if_neg hb]
      rw [owns_congr table, iff_self_and]
      rintro ⟨hn, -⟩ ⟨live, dgram, rfl⟩
      exact hb ⟨live, dgram, hn⟩
  · have socks : Claims (s.sockVfsClose k) p j ↔
        Claims (s.setSock k { s.socks k with live := false }) p j := by
      unfold sockVfsClose udpUnbind
      split <;> [split; skip] <;> rfl
    rw [socks, claims_setSock]
    split
    · next here => simp [here]
    · next other => simp [other]

theorem udpBind_owns (port k : Nat) : (s.findPort port = none ∧ (s.freeEntry ≠ none ∧ (port ≠ 0 →
      ∀ p j, Owns (s.udpBind port k).1 p j ↔ Owns s p j ∨ p = port ∧ j = k)) ∨
    (s.findPort port ≠ none ∨ s.freeEntry = none) ∧ (s.udpBind port k).1 = s) := by
  unfold udpBind
  cases hf : s.findPort port with
  | some i => exact .inr ⟨.inl (by simp), by simp⟩
  | none =>
    cases free : s.freeEntry with
    | none => exact .inr ⟨.inr rfl, by simp⟩
    | some i =>
      refine .inl ⟨rfl, by simp, fun hn p j => ?_⟩
      have hi := mem_range.mp (mem_of_find?_eq_some free)
      have he : (s.bindings i).port = 0 := by simpa using find?_some free
      simp only [Option.isSome_none, Bool.false_eq_true, if_false, Owns]
      constructor
      · rintro ⟨pos, e, hb, entry⟩
        by_cases here : e = i
        · subst here
          rw [update_self] at entry
          cases entry
          exact .inr ⟨rfl, rfl⟩
        · rw [update_of_ne here] at entry
          exact .inl ⟨pos, e, hb, entry⟩
      · rintro (⟨pos, e, hb, entry⟩ | ⟨rfl, rfl⟩)
        · have ha : e ≠ i := by
            rintro rfl
            rw [entry] at he
            exact pos he
          exact ⟨pos, e, hb, by rw [update_of_ne ha, entry]⟩
        · exact ⟨hn, i, hi, update_self ..⟩

theorem sysBind_move (hi : k < sockTableSize) : UdpMove s (s.sysBind k p).1 (.bind k p) := by
  unfold sysBind
  split
  · exact .still nofun
  next live =>
  split
  · exact .still nofun
  next hn =>
  have live : (s.socks k).live = true := by simpa using live
  have hc (q j : Nat) := @claims_setSock s k { s.socks k with localPort := p } q j
  by_cases dgram : (s.socks k).dgram = true
  · rw [if_pos dgram]
    generalize marked : s.setSock k { s.socks k with localPort := p } = bound
    have entries : bound.bindings = s.bindings := by rw [← marked]; rfl
    have search : bound.findPort p = s.findPort p := by
      rw [findPort, entries, findPort]
    have free : bound.freeEntry = s.freeEntry := by
      rw [freeEntry, entries, freeEntry]
    have socks : (bound.udpBind p k).1.socks = bound.socks := by
      unfold udpBind
      split
      · rfl
      · split <;> rfl
    refine .binds hi ⟨live, dgram, hn⟩ (fun q j => ?_) ?_
    · have eq : Claims (bound.udpBind p k).1 q j ↔ Claims bound q j := by
        rw [Claims, socks, Claims]
      rw [eq, ← marked, hc]
      simp [live, dgram, eq_comm]
    · have cases := @udpBind_owns bound p k
      rw [search, free] at cases
      obtain ⟨hu, room, ha⟩ | ⟨hf, eq⟩ := cases
      · exact .inl ⟨hu, room, fun q j => by rw [ha hn, owns_congr entries]⟩
      · exact .inr ⟨hf, fun q j => by rw [eq, owns_congr entries]⟩
  · rw [if_neg dgram]
    refine .quiet nofun (fun _ _ => Iff.rfl) fun q j _ => ?_
    rw [hc]
    split
    · next here =>
      subst here
      simp [Claims, dgram]
    · rfl

theorem udpStep_move (step : udpStep s event = some t) : UdpMove s t event := by
  cases event with
  | socket dgram hf =>
    cases step
    exact sysSocket_move
  | bind k port =>
    obtain ⟨hi, ⟨⟩⟩ := Option.ite_none_right_eq_some.mp step
    exact sysBind_move hi
  | sendto k addr dstPort payload =>
    cases step
    unfold sysSendto
    split <;> exact .quiet (by simp) (fun _ _ => Iff.rfl) fun _ _ _ => Iff.rfl
  | recvfrom k =>
    cases step
    unfold sysRecvfrom
    split
    · exact .quiet (by simp) (fun _ _ => Iff.rfl) fun p j _ => claims_setRx p j
    · exact .still (by simp)
  | close k =>
    cases step
    exact sockVfsClose_move
  | datagram d =>
    cases step
    unfold udpRx
    split
    · dsimp only
      split
      · exact .still (by simp)
      · exact push_move (by simp)
    · exact .still (by simp)

structure Agree (s : UdpState) : Prop where
  inside : ∀ p k, p ≠ 0 → Claims s p k → k < sockTableSize
  claims : ∀ p k, Owns s p k → Claims s p k
  sole : ∀ p k j, Owns s p k → Claims s p j → j = k

theorem Agree.congr (agree : Agree s) (owns : ∀ p k, Owns t p k ↔ Owns s p k)
    (claims : ∀ p k, p ≠ 0 → (Claims t p k ↔ Claims s p k)) : Agree t where
  inside p k nonzero claim := agree.inside p k nonzero ((claims p k nonzero).mp claim)
  claims p k has := (claims p k has.1).mpr (agree.claims p k ((owns p k).mp has))
  sole p k j has claim := agree.sole p k j ((owns p k).mp has) ((claims p j has.1).mp claim)

theorem Agree.owned (agree : Agree s) : Owned s where
  claims p k owns := ⟨agree.inside p k owns.1 (agree.claims p k owns), agree.claims p k owns⟩
  sole := agree.sole
  delivers k d owns := by
    cases found : s.findPort d.dstPort with
    | none => exact absurd owns (findPort_eq_none.mp found k)
    | some i =>
      have mine := exists_of_findPort found
      have same := agree.sole _ _ _ owns (agree.claims _ _ mine)
      have inside := agree.inside _ _ owns.1 (agree.claims _ _ owns)
      obtain ⟨live, -, -⟩ := agree.claims _ _ owns
      have below : k ≠ sockNone := by
        have : sockTableSize ≤ sockNone := by decide
        omega
      rw [udpRx, found]
      simp [same, below, live, Nat.not_le.mpr inside]

theorem Claims.port_eq (h1 : Claims s p k) (h2 : Claims s q k) : p = q := h1.2.2.symm.trans h2.2.2

theorem agree_step (ha : Agree s) (kept : UdpKept s event) (move : UdpMove s t event) :
    Agree t := by
  cases move with
  | quiet _ owns hl => exact ha.congr owns hl
  | @closes k owns hl =>
    refine ⟨fun p j hn hc => ?_, fun p j has => ?_, fun p i j has hc => ?_⟩
    · exact ha.inside p j hn ((hl p j).mp hc).1
    · obtain ⟨ho, other⟩ := (owns p j).mp has
      have hc := ha.claims p j ho
      exact (hl p j).mpr ⟨hc, fun he => other (he ▸ hc)⟩
    · exact ha.sole p i j ((owns p i).mp has).1 ((hl p j).mp hc).1
  | @binds k port hi own hl owns =>
    obtain mine | ⟨hd, hu, unclaimed⟩ := kept own
    · -- the socket binds its own port again: nothing changes
      have ht : s.findPort port ≠ none := fun none => findPort_eq_none.mp none k mine
      have owns := (owns.resolve_left fun free => ht free.1).2
      have hc := ha.claims port k mine
      have he (p j : Nat) : Claims t p j ↔ Claims s p j := by
        rw [hl]
        split
        · next here =>
          subst here
          exact ⟨fun eq => eq ▸ hc, fun other => other.port_eq hc⟩
        · rfl
      exact ha.congr owns fun p j _ => he p j
    · have idle (p : Nat) : ¬Owns s p k := fun has =>
        hd ((ha.claims p k has).2.2 ▸ has)
      have hb := findPort_eq_none.mp hu
      have old (p j : Nat) (has : Owns s p j) : j ≠ k ∧ p ≠ port :=
        ⟨fun he => idle p (he ▸ has), fun he => hb j (he ▸ has)⟩
      have hi' (p j : Nat) (hn : p ≠ 0) (hc : Claims t p j) : j < sockTableSize := by
        rw [hl] at hc
        split at hc
        · next here => exact here ▸ hi
        · exact ha.inside p j hn hc
      have kept (p j : Nat) (has : Owns s p j) : Claims t p j := by
        rw [hl, if_neg (old p j has).1]
        exact ha.claims p j has
      have hs (p i j : Nat) (has : Owns s p i) (hc : Claims t p j) : j = i := by
        rw [hl] at hc
        split at hc
        · exact absurd hc (old p i has).2
        · exact ha.sole p i j has hc
      obtain ⟨-, room, had⟩ | ⟨-, he⟩ := owns
      · refine ⟨hi', fun p j has => ?_, fun p i j has hc => ?_⟩
        · obtain pre | ⟨rfl, rfl⟩ := (had p j).mp has
          · exact kept p j pre
          · rw [hl, if_pos rfl]
        · obtain pre | ⟨rfl, rfl⟩ := (had p i).mp has
          · exact hs p i j pre hc
          rw [hl] at hc
          split at hc
          · assumption
          · have only := unclaimed.resolve_left room
            exact only j (ha.inside p j own.2.2 hc) hc
      · exact ⟨hi', fun p j has => kept p j ((he p j).mp has),
          fun p i j has => hs p i j ((he p i).mp has)⟩

theorem ownerMoves (agree : Agree s) (move : UdpMove s t event) : OwnerMoves s event t := by
  cases move with
  | quiet notClose owns claims =>
    exact ⟨fun p k has _ => (owns p k).mpr has, fun p k has => .inl ((owns p k).mp has),
      fun p k closes => absurd closes (notClose k)⟩
  | @closes k owns claims =>
    refine ⟨fun p j has other => ?_, fun p j has => .inl ((owns p j).mp has).1, ?_⟩
    · refine (owns p j).mpr ⟨has, fun claim => other ?_⟩
      rw [agree.sole p j k has claim]
    rintro p j ⟨⟩ has
    obtain ⟨owned, other⟩ := (owns p _).mp has
    exact other (agree.claims p _ owned)
  | @binds k port inside own claims owns =>
    obtain ⟨-, -, added⟩ | ⟨-, same⟩ := owns
    · refine ⟨fun p j has _ => (added p j).mpr (.inl has), fun p j has => ?_, by simp⟩
      obtain before | ⟨rfl, rfl⟩ := (added p j).mp has
      · exact .inl before
      · exact .inr rfl
    · exact ⟨fun p j has _ => (same p j).mpr has, fun p j has => .inl ((same p j).mp has), by simp⟩

theorem agree_boot : Agree udpBoot where
  inside p k hn claim := by simp [Claims, udpBoot] at claim
  claims p k has := by
    obtain ⟨hn, i, -, entry⟩ := has
    cases entry
    exact absurd rfl hn
  sole p k j has claim := by simp [Claims, udpBoot] at claim

/-- In every run whose binds meet `UdpKept`, ports are owned, and a further such step moves
a port only with its owner. -/
theorem udp_ports_owned {events : List UdpEvent} (run : RunWhere udpStep UdpKept udpBoot events s) :
    Owned s ∧ ∀ event t, UdpKept s event → udpStep s event = some t → OwnerMoves s event t := by
  have agree : Agree s := run.invariant agree_boot fun _ _ _ agree kept step =>
    agree_step agree kept (udpStep_move step)
  exact ⟨agree.owned, fun event t _ step => ownerMoves agree (udpStep_move step)⟩

def twoPorts : List UdpEvent :=
  [.socket true true, .socket true true, .bind 0 53, .bind 1 68, .bind 0 53, .sendto 1 9 67 [1],
    .datagram ⟨9, 67, 68, [2, 3]⟩, .close 0]

theorem udp_ports_owned_twoPorts :
    ∃ s, RunWhere udpStep UdpKept udpBoot twoPorts s ∧ Owned s ∧ Owns s 68 1 ∧
      ¬Owns s 53 0 ∧ (s.socks 1).rx = [⟨9, 67, 68, [2, 3]⟩] :=
  exists_runWhere_with (fun _ run => (udp_ports_owned run).1)

/-- A bind that fails still sets `local_port`, and the close of that socket removes the
binding of the owner. A socket that binds a second port keeps the first in the table; after
its close the slot is taken by a socket that gets the datagrams of the old port. -/
theorem udp_ports_lost : (∃ s, Run udpStep udpBoot
        [.socket true true, .bind 0 53, .socket true true, .bind 1 53, .close 1] s ∧
      Claims s 53 0 ∧ s.findPort 53 = none) ∧
    ∃ s, Run udpStep udpBoot
        [.socket true true, .bind 0 53, .bind 0 54, .close 0, .socket true true,
          .datagram ⟨9, 67, 53, [1]⟩] s ∧
      Owns s 53 0 ∧ (s.socks 0).localPort = 0 ∧ (s.socks 0).rx = [⟨9, 67, 53, [1]⟩] :=
  ⟨exists_run, exists_run⟩

end Aegis.Udp
