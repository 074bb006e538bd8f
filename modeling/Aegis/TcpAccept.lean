import Aegis.TcpRun

/-! Which unacceptable segments a connection takes, and when `snd_una` stays behind `snd_nxt`.
Each state looks at flags only; the sequence number is compared for data alone. -/

namespace Aegis.Tcp

open LabelledRun TcpConn
open ByteLayout (Byte)

def TcpState.InFlight : TcpState → Prop
  | .closed | .listen | .timeWait => False
  | _ => True

/-- Data or FIN that are not next, a reset outside the window that is announced, or an
acknowledgement of something never sent. -/
def Unacceptable (c : TcpConn) (g : Segment) : Prop :=
  (g.flags.fin = true ∨ g.payload ≠ []) ∧ g.seq ≠ c.rcvNxt ∨
    g.flags.rst = true ∧ min c.space 0xFFFF ≤ seqSub g.seq c.rcvNxt ∨
    g.flags.ack = true ∧ seqGt g.ack c.sndNxt = true
  deriving Decidable

def TcpConn.unacked (c : TcpConn) : Nat := seqSub c.sndNxt c.sndUna

/-- An established connection gets no acknowledgement of something never sent, and no more than
`2 ^ 31` numbers are ever unacknowledged. -/
def AcksSent (s : TcpSlot) : TcpEvent → Prop
  | .rx _ g => s.conn.state = .established → g.flags.ack = true →
      seqGt g.ack s.conn.sndUna = true → seqGt g.ack s.conn.sndNxt = false
  | .send data sends => s.conn.Sends data sends → s.conn.unacked + data.length ≤ 2 ^ 31
  | .close => s.conn.state = .established → s.conn.unacked + 1 ≤ 2 ^ 31
  | .counted _ => s.conn.unacked + 1 ≤ 2 ^ 31
  | _ => True

instance (s : TcpSlot) (event : TcpEvent) : Decidable (AcksSent s event) := by
  rcases event <;> (dsimp only [AcksSent]; infer_instance)

section
variable {c d : TcpConn} {s t : TcpSlot} {event : TcpEvent}

theorem seqLe_iff (numbers : c.Numbers) : seqLe c.sndUna c.sndNxt = true ↔ c.unacked ≤ 2 ^ 31 := by
  have nxt := numbers.nxt
  have una := numbers.una
  rw [seqLe, Bool.or_eq_true, decide_eq_true_iff, decide_eq_true_iff]
  simp only [unacked, seqSub]
  omega

theorem keeps_iff (now : Nat) (c : TcpConn) (g : Segment) :
    Keeps c (c.rx now g).conn ↔ Ignored c g := by
  obtain ⟨hs, eq⟩ | ⟨ht, hc⟩ := (rx_moves now c g).effect
  · exact iff_of_true ⟨eq.state, eq.rcv, eq.una⟩ hs
  · exact iff_of_false hc ht

/-! ### What a step does to the numbers -/

/-- A new connection, the same numbers, more numbers sent, or what a segment does. -/
inductive NumberStep (s : TcpSlot) : TcpEvent → TcpConn → Prop
  | fresh {event : TcpEvent} {d : TcpConn} (numbers : d.Numbers) (none : d.unacked ≤ 1) :
      NumberStep s event d
  | same {event : TcpEvent} {d : TcpConn} (nxt : d.sndNxt = s.conn.sndNxt)
      (una : d.sndUna = s.conn.sndUna) (rcv : d.rcvNxt = s.conn.rcvNxt) : NumberStep s event d
  | sent {event : TcpEvent} {d : TcpConn} (n : Nat)
      (room : AcksSent s event → s.conn.unacked + n ≤ 2 ^ 31)
      (nxt : d.sndNxt = (s.conn.sndNxt + n) % 2 ^ 32) (una : d.sndUna = s.conn.sndUna)
      (rcv : d.rcvNxt = s.conn.rcvNxt) : NumberStep s event d
  | rx {now : Nat} {g : Segment} {d : TcpConn} (wire : g.Wire) (moves : RxMove s.conn g d) :
      NumberStep s (.rx now g) d

theorem unacked_fresh (una : c.sndUna = c.sndNxt) : c.unacked ≤ 1 := by
  rw [unacked, una, seqSub_self]
  exact Nat.zero_le 1

theorem unacked_syn {n : Nat} (una : c.sndUna = n % 2 ^ 32)
    (nxt : c.sndNxt = (n % 2 ^ 32 + 1) % 2 ^ 32) : c.unacked ≤ 1 := by
  rw [unacked, una, nxt]
  simp only [seqSub]
  omega

theorem number_step (hs : slotStep s event = some t) : NumberStep s event t.conn := by
  cases event with
  | listen port sockId =>
    rw [slotStep] at hs
    split at hs
    · cases hs
      exact .fresh ⟨Nat.two_pow_pos 32, Nat.two_pow_pos 32, Nat.two_pow_pos 32⟩ (unacked_fresh rfl)
    · cases hs
  | syn now g hl =>
    rw [slotStep] at hs
    split at hs
    · cases hs
      exact .fresh ⟨Nat.mod_lt _ (by decide), Nat.mod_lt _ (by decide), Nat.mod_lt _ (by decide)⟩
        (unacked_syn (n := now) rfl rfl)
    · cases hs
  | connect now myIp sockId dstIp dstPort =>
    rw [slotStep] at hs
    split at hs
    · cases hs
      exact .fresh ⟨Nat.mod_lt _ (by decide), Nat.mod_lt _ (by decide), Nat.two_pow_pos 32⟩
        (unacked_fresh rfl)
    · cases hs
  | counted now =>
    rw [slotStep] at hs
    split at hs
    · cases hs
    · cases hs
      exact .sent 1 id rfl rfl rfl
  | rx now g =>
    rw [slotStep] at hs
    split at hs
    · next he =>
      rw [conn_of_some hs]
      exact .rx he.2 (rx_moves now s.conn g)
    · cases hs
  | tick now =>
    cases hs
    rcases tick_conn now s.conn with conn | conn | conn <;>
      (dsimp only; rw [conn]) <;> exact .same rfl rfl rfl
  | send data hd =>
    rw [conn_of_some hs]
    rcases send_conn s.conn data hd with ⟨hn, conn⟩ | ⟨-, conn⟩ <;> rw [conn]
    · exact .sent data.length (fun sent => sent hn) rfl rfl rfl
    · exact .same rfl rfl rfl
  | close =>
    rw [conn_of_some hs]
    rcases close_conn s.conn with ⟨state, conn⟩ | ⟨-, conn⟩ <;> rw [conn]
    · exact .sent 1 (fun sent => sent state) rfl rfl rfl
    · exact .same rfl rfl rfl
  | recv maxLen =>
    have eq := recv_same s.conn maxLen
    rw [conn_of_some hs]
    exact .same eq.nxt eq.una eq.rcv
  | setSock sockId =>
    rw [conn_of_some hs]
    exact .same rfl rfl rfl

/-! ### Every number has 32 bits -/

theorem RxMove.numbers {g : Segment} (hm : RxMove c g d) (wire : g.Wire) (numbers : c.Numbers) :
    d.Numbers := by
  refine ⟨?_, ?_, ?_⟩
  · rw [hm.nxt]
    exact numbers.nxt
  · rcases hm.una with una | una | ⟨-, -, -, una⟩ <;> rw [una]
    · exact numbers.una
    · exact numbers.nxt
    · exact wire.2
  · rcases hm.rcv with rcv | lt
    · rw [rcv]
      exact numbers.rcv
    · exact lt

theorem TcpConn.Numbers.step (numbers : s.conn.Numbers) (hs : slotStep s event = some t) :
    t.conn.Numbers := by
  cases number_step hs with
  | fresh numbers => exact numbers
  | same nxt una rcv => exact ⟨nxt ▸ numbers.nxt, una ▸ numbers.una, rcv ▸ numbers.rcv⟩
  | sent n _ nxt una rcv =>
    exact ⟨nxt ▸ Nat.mod_lt _ (by decide), una ▸ numbers.una, rcv ▸ numbers.rcv⟩
  | rx wire hm => exact hm.numbers wire numbers

theorem numbers_reached {ok : TcpSlot → TcpEvent → Prop} {events : List TcpEvent}
    (run : RunWhere slotStep ok zeroSlot events s) : s.conn.Numbers := by
  induction run with
  | nil => exact ⟨Nat.two_pow_pos 32, Nat.two_pow_pos 32, Nat.two_pow_pos 32⟩
  | snoc _ _ hs numbers => exact numbers.step hs

/-! ### The order of `snd_una` and `snd_nxt` -/

theorem seqSub_ack {nxt ack : Nat} (nxtBound : nxt < 2 ^ 32) (ackBound : ack < 2 ^ 32)
    (sent : seqGt ack nxt = false) : seqSub nxt ack ≤ 2 ^ 31 := by
  rw [seqGt, Bool.and_eq_false_iff, decide_eq_false_iff_not, decide_eq_false_iff_not] at sent
  unfold seqSub at *
  omega

theorem unacked_sent {n : Nat} (numbers : c.Numbers) (room : c.unacked + n ≤ 2 ^ 31)
    (nxt : d.sndNxt = (c.sndNxt + n) % 2 ^ 32) (una : d.sndUna = c.sndUna) :
    d.unacked ≤ 2 ^ 31 := by
  have nxtBound := numbers.nxt
  have unaBound := numbers.una
  rw [unacked, nxt, una]
  rw [unacked] at room
  simp only [seqSub] at *
  omega

theorem RxMove.order {g : Segment} (hm : RxMove c g d) (wire : g.Wire) (numbers : c.Numbers)
    (order : c.unacked ≤ 2 ^ 31)
    (sent : c.state = .established → g.flags.ack = true → seqGt g.ack c.sndUna = true →
      seqGt g.ack c.sndNxt = false) : d.unacked ≤ 2 ^ 31 := by
  rw [unacked] at *
  rcases hm.una with una | una | ⟨state, flag, hg, una⟩ <;> rw [hm.nxt, una]
  · exact order
  · rw [seqSub_self]
    exact Nat.zero_le _
  · exact seqSub_ack numbers.nxt wire.2 (sent state flag hg)

theorem order_step (numbers : s.conn.Numbers) (order : s.conn.unacked ≤ 2 ^ 31)
    (sent : AcksSent s event) (hs : slotStep s event = some t) : t.conn.unacked ≤ 2 ^ 31 := by
  cases number_step hs with
  | fresh _ none => exact le_trans none (by decide)
  | same nxt una _ =>
    rw [unacked, nxt, una]
    exact order
  | sent n room nxt una _ => exact unacked_sent numbers (room sent) nxt una
  | rx wire hm => exact hm.order wire numbers order sent

theorem order_reached {events : List TcpEvent}
    (run : RunWhere slotStep AcksSent zeroSlot events s) : s.conn.unacked ≤ 2 ^ 31 := by
  induction run with
  | nil => exact Nat.zero_le _
  | snoc pre sent hs order => exact order_step (numbers_reached pre) order sent hs

/-- In every state of a slot an unacceptable segment changes nothing exactly if the state does not
take its flags; and while only sent numbers are acknowledged `snd_una` is not after `snd_nxt`. -/
theorem segments_checked {events : List TcpEvent} (run : Run slotStep zeroSlot events s) :
    (∀ now g, g.Wire → s.conn.state.InFlight → Unacceptable s.conn g →
      (Keeps s.conn (s.conn.rx now g).conn ↔ Ignored s.conn g)) ∧
    (RunWhere slotStep AcksSent zeroSlot events s → seqLe s.conn.sndUna s.conn.sndNxt = true) := by
  have numbers := numbers_reached run
  exact ⟨fun now g _ _ _ => keeps_iff now s.conn g,
    fun sent => (seqLe_iff numbers).mpr (order_reached sent)⟩

end

def peerSegment (seq ack : Nat) (flags : Flags) : Segment :=
  ⟨2, 1, 4000, 80, seq, ack, flags, 1000, []⟩

def strayData : Segment := { peerSegment 90000 8 ackOnly with payload := [1] }

def handshake : List TcpEvent :=
  [.syn 7 (peerSegment 100 0 synOnly) 3, .rx 8 (peerSegment 101 8 ackOnly)]

theorem segments_checked_handshake :
    ∃ s, RunWhere slotStep AcksSent zeroSlot handshake s ∧ s.conn.state = .established ∧
      Unacceptable s.conn strayData ∧ Keeps s.conn (s.conn.rx 9 strayData).conn ∧
      seqLe s.conn.sndUna s.conn.sndNxt = true := by
  refine exists_runWhere_of (fun s => s.conn.state = .established ∧ Unacceptable s.conn strayData ∧
    seqGt strayData.ack s.conn.sndUna = false ∧ strayData.seq ≠ s.conn.rcvNxt) ?_
  rintro s run ⟨state, unacceptable, old, stray⟩
  obtain ⟨keeps, order⟩ := segments_checked (run.mono fun _ _ _ => trivial)
  have ignored : Ignored s.conn strayData := by
    rw [Ignored, state]
    refine ⟨Bool.false_ne_true, Bool.false_ne_true, ?_, fun stores => stray stores.2.1⟩
    rw [old]
    exact fun both => Bool.false_ne_true both.2
  have flight : s.conn.state.InFlight := by rw [state]; trivial
  exact ⟨state, unacceptable, (keeps 9 strayData (by decide) flight unacceptable).mpr ignored,
    order run⟩

/-- A reset from far outside the window closes the connection, an end of stream with any number
ends the stream, and the acknowledgement of 1000 numbers that were never sent is taken. -/
theorem reset_anywhere : ∃ s, Run slotStep zeroSlot handshake s ∧ s.conn.state = .established ∧
      (Unacceptable s.conn (peerSegment 90000 0 rstOnly) ∧
        (s.conn.rx 9 (peerSegment 90000 0 rstOnly)).conn.state = .closed) ∧
      (Unacceptable s.conn (peerSegment 90000 8 finAck) ∧
        (s.conn.rx 9 (peerSegment 90000 8 finAck)).conn.state = .closeWait) ∧
      ∃ t, slotStep s (.rx 9 (peerSegment 101 1008 ackOnly)) = some t ∧
        seqLe t.conn.sndUna t.conn.sndNxt = false := by
  refine exists_run_of (fun s => s.conn.state = .established ∧
    (Unacceptable s.conn (peerSegment 90000 0 rstOnly) ∧
      (s.conn.rx 9 (peerSegment 90000 0 rstOnly)).conn.state = .closed) ∧
    (Unacceptable s.conn (peerSegment 90000 8 finAck) ∧
      (s.conn.rx 9 (peerSegment 90000 8 finAck)).conn.state = .closeWait) ∧
    (slotStep s (.rx 9 (peerSegment 101 1008 ackOnly))).any
      (fun t => !seqLe t.conn.sndUna t.conn.sndNxt) = true) ?_
  rintro s - ⟨state, reset, fin, last⟩
  obtain ⟨t, steps, order⟩ := (Option.any_eq_true ..).mp last
  exact ⟨state, reset, fin, t, steps, by simpa using order⟩

/-! ### Handshakes -/

theorem slotStep_established {s t : TcpSlot} {event : TcpEvent} (hs : slotStep s event = some t)
    (now : t.conn.state = .established) :
    s.conn.state = .established ∨ ∃ time g, event = .rx time g ∧ Completes s.conn g := by
  cases event with
  | listen | syn | connect =>
    obtain ⟨-, eq⟩ := Option.ite_none_right_eq_some.mp hs
    cases eq
    cases now
  | counted =>
    obtain ⟨-, eq⟩ := Option.ite_none_left_eq_some.mp hs
    cases eq
    exact .inl now
  | rx time g =>
    obtain ⟨-, eq⟩ := Option.ite_none_right_eq_some.mp hs
    rw [conn_of_some eq] at now
    exact ((rx_moves time s.conn g).opens now).imp_right fun done => ⟨time, g, rfl, done⟩
  | tick time =>
    cases hs
    rcases tick_conn time s.conn with eq | eq | eq <;> rw [eq] at now
    · exact .inl now
    · cases now
    · exact .inl now
  | send data sends =>
    rw [conn_of_some hs] at now
    rcases send_conn s.conn data sends with ⟨-, eq⟩ | ⟨-, eq⟩ <;> rw [eq] at now <;>
      exact .inl now
  | close =>
    rw [conn_of_some hs] at now
    rcases close_conn s.conn with ⟨-, eq⟩ | ⟨-, eq⟩ <;> rw [eq] at now
    · cases now
    · exact .inl now
  | recv maxLen =>
    rw [conn_of_some hs, (recv_same s.conn maxLen).state] at now
    exact .inl now
  | setSock =>
    cases hs
    exact .inl now

/-- An established connection was let through by a segment that acknowledges its SYN, and has been
established ever since. -/
theorem established_by_handshake {events : List TcpEvent} {s : TcpSlot}
    (run : Run slotStep zeroSlot events s) (now : s.conn.state = .established) :
    ∃ before time g after t u, events = before ++ .rx time g :: after ∧
      Run slotStep zeroSlot before t ∧ Completes t.conn g ∧ slotStep t (.rx time g) = some u ∧
      RunWhere slotStep (fun r _ => r.conn.state = .established) u after s := by
  obtain ⟨before, event, after, t, u, rfl, front, out, enters, there, rest⟩ :=
    RunWhere.entered (P := fun r => r.conn.state = .established) run nofun now
  obtain ⟨time, g, rfl, done⟩ := (slotStep_established enters there).resolve_left out
  exact ⟨before, time, g, after, t, u, rfl, front, done, enters, rest⟩

theorem established_by_handshake_ack : ∃ s, Run slotStep zeroSlot handshake s ∧
    ∃ before time g after t, handshake = before ++ .rx time g :: after ∧
      Run slotStep zeroSlot before t ∧ Completes t.conn g :=
  exists_run_of (fun s => s.conn.state = .established) fun _ run now => by
    obtain ⟨before, time, g, after, t, -, eq, front, done, -⟩ := established_by_handshake run now
    exact ⟨before, time, g, after, t, eq, front, done⟩

end Aegis.Tcp
