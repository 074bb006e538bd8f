import Aegis.TcpAccept

/-! The retransmission timer. It is set for the SYN only, and it sends what is at `snd_nxt`, which
is behind the SYN as soon as the SYN is counted. A timer of 0 is off, also when the clock is
there. -/

namespace Aegis.Tcp

open LabelledRun List

/-- A tick sends the segment at `snd_una` again, or closes the connection and wakes its user. -/
def Recovers (now : Nat) (c : TcpConn) : Prop :=
  (∃ r ∈ (c.tick now).sent, r.seq = c.sndUna) ∨
    (c.tick now).conn.state = .closed ∧ (c.sockId = sockNone ∨ c.sockId ∈ (c.tick now).wakes)

/-- The SYNs that are sent again have the first number, and the timer is set while something is
not acknowledged. -/
structure Retransmits (s : TcpSlot) : Prop where
  same : ∀ r ∈ s.resent, r.seq = s.isn
  armed : s.conn.state ≠ .closed → s.conn.sndUna ≠ s.conn.sndNxt → s.conn.retransmitAt ≠ 0

/-- The timer is never set to 0, no SYN is sent again after it was counted, and data, FIN and
acknowledgements of something never sent come only while the timer is set. -/
def Covered (s : TcpSlot) : TcpEvent → Prop
  | .syn now _ _ | .counted now => (now + rtoInitial) % 2 ^ 32 ≠ 0
  | .rx _ g => s.conn.state = .established → s.conn.retransmitAt = 0 → g.flags.ack = true →
      seqGt g.ack s.conn.sndNxt = false
  | .tick now => s.conn.fires now = true → s.conn.retransmitCount < retransmitMax →
      s.conn.sndUna ≠ s.conn.sndNxt →
      s.conn.state ≠ .synSent ∧ s.conn.state ≠ .synRcvd ∧ (now + s.conn.rto) % 2 ^ 32 ≠ 0
  | .send data sends => s.conn.Sends data sends → data.length % 2 ^ 32 ≠ 0 →
      s.conn.retransmitAt ≠ 0
  | .close => s.conn.state = .established → s.conn.retransmitAt ≠ 0
  | .listen .. | .connect .. | .recv _ | .setSock _ => True

instance (s : TcpSlot) (event : TcpEvent) : Decidable (Covered s event) := by
  rcases event <;> (dsimp only [Covered]; infer_instance)

section
variable {now : Nat} {c d : TcpConn} {s t : TcpSlot} {event : TcpEvent}

theorem mem_control {flags : Flags} {r : Sent} (sent : r ∈ c.control flags) :
    r.seq = c.sndNxt ∧ r.flags = flags := by
  rw [TcpConn.control, TcpConn.segment, if_neg (by decide)] at sent
  obtain rfl := mem_singleton.mp sent
  exact ⟨rfl, rfl⟩

theorem mem_resend {r : Sent} (sent : r ∈ c.resend) :
    r.seq = c.sndNxt ∧ (c.state = .synSent ∨ c.state = .synRcvd) := by
  rw [TcpConn.resend] at sent
  split at sent
  · next state => exact ⟨(mem_control sent).1, .inr state⟩
  · next state => exact ⟨(mem_control sent).1, .inl state⟩
  · cases sent

theorem recovers_iff (hf : c.fires now = true) (hw : c.sndUna ≠ c.sndNxt) :
    Recovers now c ↔ retransmitMax ≤ c.retransmitCount := by
  rw [Recovers]
  obtain ⟨last, hr⟩ | ⟨more, hr⟩ := tick_fires hf <;> rw [hr]
  · refine iff_of_true (.inr ⟨rfl, ?_⟩) last
    by_cases user : c.sockId = sockNone
    · exact .inl user
    · rw [if_neg user]
      exact .inr mem_cons_self
  · refine iff_of_false ?_ (Nat.not_le_of_lt more)
    rintro (⟨r, sent, number⟩ | ⟨hc, -⟩)
    · exact hw (number.symm.trans (mem_resend sent).1)
    · rw [TcpConn.fires, Bool.and_eq_true_iff, decide_eq_true_iff] at hf
      exact hf.1.1 hc

/-! ### What every step keeps -/

structure TimerInv (s : TcpSlot) : Prop extends Retransmits s where
  first : s.conn.state = .synSent ∨ s.conn.state = .synRcvd → s.conn.sndUna = s.isn

theorem TimerInv.same_numbers (inv : TimerInv s) (eq : SameNumbers s.conn d) :
    TimerInv { s with conn := d } := by
  refine ⟨⟨inv.same, ?_⟩, ?_⟩
  · dsimp only
    rw [eq.state, eq.una, eq.nxt, eq.timer]
    exact inv.armed
  · dsimp only
    rw [eq.state, eq.una]
    exact inv.first

theorem TimerInv.rx {g : Segment} (inv : TimerInv s) (ho : s.conn.state ≠ .closed)
    (hm : RxMove s.conn g d)
    (hc : s.conn.state = .established → s.conn.retransmitAt = 0 → g.flags.ack = true →
      seqGt g.ack s.conn.sndNxt = false) : TimerInv { s with conn := d } := by
  refine ⟨⟨inv.same, fun hs hw => ?_⟩, fun he => ?_⟩
  · rcases hm.timer with timer | ⟨-, hl | all⟩
    · rw [hm.nxt] at hw
      dsimp only
      rw [timer]
      intro off
      -- With the timer off everything was acknowledged, so only more than that moves `snd_una`.
      have all : s.conn.sndUna = s.conn.sndNxt := by_contra fun hw => inv.armed ho hw off
      rcases hm.una with una | una | ⟨state, flag, hg, una⟩
      · exact hw (una.trans all)
      · exact hw una
      · rw [all, hc state off flag] at hg
        cases hg
    · exact absurd hl hs
    · exact absurd all hw
  · obtain ⟨state, una⟩ := hm.handshake he
    rw [state] at he
    exact una.trans (inv.first he)

theorem TimerInv.tick (inv : TimerInv s)
    (hc : s.conn.fires now = true → s.conn.retransmitCount < retransmitMax →
      s.conn.sndUna ≠ s.conn.sndNxt →
      s.conn.state ≠ .synSent ∧ s.conn.state ≠ .synRcvd ∧ (now + s.conn.rto) % 2 ^ 32 ≠ 0) :
    TimerInv { s with
      conn := (s.conn.tick now).conn
      resent := s.resent ++ (s.conn.tick now).sent.filter fun r => r.flags.syn } := by
  have gone : TimerInv { s with conn := { s.conn with state := .closed } } :=
    ⟨⟨inv.same, fun ho => absurd rfl ho⟩, fun he => by rcases he with e | e <;> cases e⟩
  cases hf : s.conn.fires now with
  | false =>
    obtain ⟨conn | conn, sent⟩ := tick_waits hf <;> rw [conn, sent, filter_nil, append_nil]
    · exact inv
    · exact gone
  | true =>
    obtain ⟨-, hr⟩ | ⟨more, hr⟩ := tick_fires hf <;> rw [hr]
    · have none : (s.conn.control rstOnly).filter (fun r => r.flags.syn) = [] := by
        refine filter_eq_nil_iff.mpr fun r sent => ?_
        rw [(mem_control sent).2]
        exact Bool.false_ne_true
      dsimp only
      rw [none, append_nil]
      exact gone
    · refine ⟨⟨fun r sent => ?_, fun ho hw => (hc hf more hw).2.2⟩, inv.first⟩
      rcases mem_append.mp sent with old | new
      · exact inv.same r old
      obtain ⟨number, he⟩ := mem_resend (mem_of_mem_filter new)
      have uncounted : s.conn.sndUna = s.conn.sndNxt := by
        by_contra hw
        obtain ⟨notSent, notRcvd, -⟩ := hc hf more hw
        exact he.elim notSent notRcvd
      exact number.trans (uncounted.symm.trans (inv.first he))

theorem TimerInv.step (inv : TimerInv s) (numbers : s.conn.Numbers) (hc : Covered s event)
    (hs : slotStep s event = some t) : TimerInv t := by
  cases event with
  | listen port sockId =>
    rw [slotStep] at hs
    split at hs
    · cases hs
      refine ⟨⟨inv.same, fun _ hw => absurd rfl hw⟩, fun he => ?_⟩
      rcases he with he | he <;> cases he
    · cases hs
  | syn now g hl =>
    rw [slotStep] at hs
    split at hs
    · cases hs
      exact ⟨⟨fun r none => absurd none not_mem_nil, fun _ _ => hc⟩, fun _ => rfl⟩
    · cases hs
  | connect now myIp sockId dstIp dstPort =>
    rw [slotStep] at hs
    split at hs
    · cases hs
      exact ⟨⟨fun r none => absurd none not_mem_nil, fun _ hw => absurd rfl hw⟩, fun _ => rfl⟩
    · cases hs
  | counted now =>
    rw [slotStep] at hs
    split at hs
    · cases hs
    · cases hs
      exact ⟨⟨inv.same, fun _ _ => hc⟩, inv.first⟩
  | rx now g =>
    rw [slotStep] at hs
    split at hs
    · next hn =>
      cases hs
      exact inv.rx hn.1 (rx_moves now s.conn g) hc
    · cases hs
  | tick now =>
    cases hs
    exact inv.tick hc
  | send data hd =>
    cases hs
    rcases send_conn s.conn data hd with ⟨ha, conn⟩ | ⟨-, conn⟩ <;> rw [conn]
    · refine ⟨⟨inv.same, fun ho hw => ?_⟩, inv.first⟩
      by_cases hm : data.length % 2 ^ 32 = 0
      · refine inv.armed ho fun all => hw (all.trans ?_)
        have lt := numbers.nxt
        dsimp only
        omega
      · exact hc ha hm
    · exact inv
  | close =>
    cases hs
    rcases close_conn s.conn with ⟨state, conn⟩ | ⟨-, conn⟩ <;> rw [conn]
    · refine ⟨⟨inv.same, fun _ _ => hc state⟩, fun he => ?_⟩
      rcases he with he | he <;> cases he
    · exact inv
  | recv maxLen =>
    cases hs
    exact inv.same_numbers (recv_same s.conn maxLen)
  | setSock sockId =>
    cases hs
    exact ⟨⟨inv.same, inv.armed⟩, inv.first⟩

theorem timer_reached {events : List TcpEvent}
    (run : RunWhere slotStep Covered zeroSlot events s) : TimerInv s := by
  induction run with
  | nil => exact ⟨⟨fun r none => absurd none not_mem_nil, fun _ waits => absurd rfl waits⟩,
      fun _ => rfl⟩
  | snoc before covered steps inv => exact inv.step (numbers_reached before) covered steps

/-- The timer of a connection that waits for an acknowledgement sends from `snd_una` or closes
exactly if it has fired three times before; and as long as every step is covered, SYNs are sent
again with their number and the timer is set. -/
theorem retransmission_faithful (c : TcpConn) (now : Nat) (events : List TcpEvent) (s : TcpSlot) :
    (c.fires now = true → c.sndUna ≠ c.sndNxt →
      (Recovers now c ↔ retransmitMax ≤ c.retransmitCount)) ∧
    (RunWhere slotStep Covered zeroSlot events s → Retransmits s) :=
  ⟨recovers_iff, fun run => (timer_reached run).toRetransmits⟩

end

def synTimeouts : List TcpEvent :=
  [.syn 7 (peerSegment 100 0 synOnly) 3, .tick 107, .tick 400, .tick 1000]

theorem retransmission_faithful_handshake :
    (∃ s, Run slotStep zeroSlot synTimeouts s ∧ s.conn.sndUna ≠ s.conn.sndNxt ∧
      Recovers 1800 s.conn) ∧
    ∃ s, RunWhere slotStep Covered zeroSlot handshake s ∧ s.conn.state = .established ∧
      Retransmits s := by
  constructor
  · refine exists_run_of (fun s => s.conn.fires 1800 = true ∧ s.conn.sndUna ≠ s.conn.sndNxt ∧
      retransmitMax ≤ s.conn.retransmitCount) ?_
    rintro s - ⟨fires, waits, last⟩
    exact ⟨waits, ((retransmission_faithful s.conn 1800 [] s).1 fires waits).mpr last⟩
  · exact exists_runWhere_of (fun s => s.conn.state = .established)
      fun s run state => ⟨state, (retransmission_faithful s.conn 0 _ s).2 run⟩

/-- The SYN-ACK that is sent again has the number after the first one; and after one byte, or the
FIN, was sent, nothing will ever send it again. -/
theorem resent_syn_shifted : (∃ s, Run slotStep zeroSlot (synTimeouts.take 2) s ∧ s.isn = 7 ∧
      s.resent.map Sent.seq = [8]) ∧
    (∃ s, Run slotStep zeroSlot (handshake ++ [.send [1] true]) s ∧
      s.conn.state = .established ∧ s.conn.sndUna ≠ s.conn.sndNxt ∧ s.conn.retransmitAt = 0) ∧
    ∃ s, Run slotStep zeroSlot (handshake ++ [.close]) s ∧
      s.conn.state = .finWait1 ∧ s.conn.sndUna ≠ s.conn.sndNxt ∧ s.conn.retransmitAt = 0 :=
  ⟨exists_run, exists_run, exists_run⟩

end Aegis.Tcp
