import Netcode.Transport.PacketLink

/-!
# Recovery of the reliable channel after an outage

A round trip: `a` flushes a packet, it reaches `b`, and a header that `b`
issues afterwards reaches `a`, with nothing else delivered in between. The
header acknowledges the packet exactly when `b` either advances to its
sequence or finds it among the 32 below the newest one it knows. After 32768
lost packets in a row `b` does neither.
-/

namespace Netcode.Transport

open Netcode.Library

theorem advance_ne_zero (s : UInt16) : advance s ≠ 0 := by
  rw [advance]
  split_ifs with h
  · decide
  · exact h

theorem eq_sub_ofNat_iff {a b : UInt16} {i : ℕ} (hi : i < 65536) :
    b = a - UInt16.ofNat i ↔ (a - b).toNat = i := by
  have ha := a.toNat_lt
  have hb := b.toNat_lt
  rw [← UInt16.toNat_inj, toNat_sub_ofNat _ (by omega), UInt16.toNat_sub]
  omega

namespace Connection

/-- On arrival, `sequence` becomes the newest one or lies in the 32 below it. -/
def Reports (c : Connection) (sequence : UInt16) : Prop :=
  c.receivedAny = false ∨ sequenceGreaterThan sequence c.remoteSequence = true ∨
    (c.remoteSequence - sequence).toNat ≤ 32

def Numbered (c : Connection) : Prop := c.receivedAny = true → c.remoteSequence ≠ 0

theorem Numbered.onReceived {c : Connection} {h : PacketHeader} (hc : c.Numbered)
    (hseq : h.sequence ≠ 0) : (c.onReceived h).Numbered := by
  intro _
  rw [onReceived_remoteSequence]
  rcases c.recordReceived_remoteSequence h.sequence with heq | ⟨hany, heq⟩
  · rwa [heq]
  · rw [heq]
    exact hc hany

theorem acknowledges_sub_iff {c : Connection} (hc : c.remoteSequence ≠ 0) {i : ℕ} (hi : i ≤ 32) :
    c.nextHeader.1.Acknowledges (c.remoteSequence - UInt16.ofNat i) ↔
      i = 0 ∨ c.received (slot (c.remoteSequence - UInt16.ofNat i)) = true := by
  constructor
  · intro hack
    obtain ⟨-, htop | ⟨j, -, hreceived, -⟩⟩ := nextHeader_acknowledges hack
    · have hsub := (eq_sub_ofNat_iff (by omega)).mp htop.symm
      rw [UInt16.sub_self, UInt16.toNat_zero] at hsub
      exact Or.inl hsub.symm
    · exact Or.inr hreceived
  · intro h
    cases i with
    | zero => exact ⟨hc, Or.inl (by simp [nextHeader])⟩
    | succ j =>
      have hreceived := h.resolve_left (Nat.succ_ne_zero j)
      exact ⟨hc, Or.inr ⟨j, by omega, (buildAckBits_ackBit c (by omega)).trans hreceived, rfl⟩⟩

theorem acknowledges_iff_reports {c d : Connection} {h : PacketHeader} (hc : c.Numbered)
    (hseq : h.sequence ≠ 0) (hremote : d.remoteSequence = (c.onReceived h).remoteSequence)
    (hreceived : d.received = (c.onReceived h).received) :
    d.nextHeader.1.Acknowledges h.sequence ↔ c.Reports h.sequence := by
  have hnonzero : d.remoteSequence ≠ 0 := by
    rw [hremote]
    exact hc.onReceived hseq (onReceived_receivedAny _ _)
  rw [onReceived_remoteSequence] at hremote
  by_cases hnew : (!c.receivedAny || sequenceGreaterThan h.sequence c.remoteSequence) = true
  · have htop : h.sequence = d.remoteSequence := by
      rw [hremote, recordReceived, if_pos hnew]
    have hreports : c.Reports h.sequence := by
      rw [Bool.or_eq_true, Bool.not_eq_true'] at hnew
      rcases hnew with hany | hgt
      · exact Or.inl hany
      · exact Or.inr (Or.inl hgt)
    exact iff_of_true ⟨hnonzero, Or.inl htop⟩ hreports
  · have htop : d.remoteSequence = c.remoteSequence := by
      rw [hremote, recordReceived, if_neg hnew]
    rw [Bool.or_eq_true, not_or, Bool.not_eq_true', Bool.not_eq_false] at hnew
    constructor
    · intro hack
      right
      right
      obtain ⟨-, heq | ⟨i, hi, -, heq⟩⟩ := nextHeader_acknowledges hack
      · simp [heq, htop]
      · rw [htop, eq_sub_ofNat_iff (by omega)] at heq
        omega
    · intro hreports
      rcases hreports with hany | hgt | hle
      · exact absurd hany (by simp [hnew.1])
      · exact absurd hgt hnew.2
      · have heq : h.sequence = d.remoteSequence -
            UInt16.ofNat (c.remoteSequence - h.sequence).toNat := by
          rw [htop]
          exact (eq_sub_ofNat_iff (by omega)).mpr rfl
        have hbit : d.received (slot h.sequence) = true := by
          rw [hreceived, onReceived_received, Function.update_self]
        have hack := (acknowledges_sub_iff hnonzero hle).mpr (Or.inr (heq ▸ hbit))
        rwa [← heq] at hack

structure SameReceipts (c d : Connection) : Prop where
  remoteSequence : d.remoteSequence = c.remoteSequence
  received : d.received = c.received
  receivedAny : d.receivedAny = c.receivedAny

theorem SameReceipts.onReceived {c d : Connection} (h : c.SameReceipts d) (p : PacketHeader) :
    (c.onReceived p).SameReceipts (d.onReceived p) := by
  constructor
  · simp only [onReceived_remoteSequence, recordReceived, h.receivedAny, h.remoteSequence]
  · simp only [onReceived_received, h.received]
  · simp only [onReceived_receivedAny]

end Connection

theorem PacketHeader.Acknowledges.exists_sub {h : PacketHeader} {t : UInt16}
    (ha : h.Acknowledges t) : ∃ i ≤ 32, t = h.ack - UInt16.ofNat i := by
  obtain ⟨-, heq | ⟨i, hi, -, heq⟩⟩ := ha
  · exact ⟨0, by omega, by simpa using heq⟩
  · exact ⟨i + 1, by omega, heq⟩

def Action.Quiet : Action → Prop
  | .poll packets => packets = []
  | _ => True

def Link.Event.Quiet : Link.Event → Prop
  | .atA action | .atB action => action.Quiet

theorem Action.Quiet.possible {action : Action} (h : action.Quiet) (y : Side) :
    action.Possible y := by
  cases action with
  | poll packets => exact fun p hp => absurd hp (by simp [show packets = [] from h])
  | _ => trivial

theorem Link.Event.Quiet.enabled {e : Link.Event} (h : e.Quiet) (s : Link) :
    Link.machine.Enabled s e := by
  cases e with
  | atA action => exact Action.Quiet.possible h s.b
  | atB action => exact Action.Quiet.possible h s.a

theorem Side.sent_act (x : Side) (action : Action) : x.sent <+: (x.act action).sent := by
  cases action with
  | flush => exact List.prefix_append _ _
  | _ => exact List.prefix_rfl

theorem Side.sameReceipts_quiet {c : Connection} {x : Side} {action : Action}
    (ha : action.Quiet) (h : c.SameReceipts x.peer.connection) :
    c.SameReceipts (x.act action).peer.connection := by
  cases action with
  | poll packets =>
    obtain rfl : packets = [] := ha
    exact h
  | flush => exact { h with }
  | _ => exact h

structure Side.Carrying (x : Side) (t : UInt16) (ms : List Message) : Prop where
  held : ∀ m ∈ ms, m ∈ x.peer.mux.reliable.held
  inFlight : ∃ ids, x.peer.mux.reliable.inFlight t = some ids ∧ ∀ m ∈ ms, m.id ∈ ids

theorem Side.Carrying.flush (x : Side) :
    (x.act .flush).Carrying x.peer.connection.localSequence x.peer.mux.reliable.held := by
  constructor
  · intro m hm
    have hheld := x.peer.flush_held
    exact hheld ▸ hm
  · have hids : (x.act .flush).peer.mux.reliable.inFlight x.peer.connection.localSequence =
        some (x.peer.mux.reliable.unacked.map (·.msg.id)) := Function.update_self ..
    refine ⟨_, hids, fun m hm => ?_⟩
    obtain ⟨p, hp, hm⟩ := List.mem_map.mp hm
    exact List.mem_map.mpr ⟨p, hp, hm ▸ rfl⟩

theorem Side.Carrying.quiet {x : Side} {t : UInt16} {ms : List Message} (h : x.Carrying t ms)
    {action : Action} (ha : action.Quiet) : (x.act action).Carrying t ms := by
  cases action with
  | queueReliable payload =>
    refine ⟨fun m hm => ?_, h.inFlight⟩
    have hheld := x.peer.mux.reliable.queue_held payload
    exact hheld ▸ List.mem_append_left _ (h.held m hm)
  | queueUnreliable payload => exact ⟨h.held, h.inFlight⟩
  | poll packets =>
    obtain rfl : packets = [] := ha
    exact ⟨h.held, h.inFlight⟩
  | flush =>
    have hnew := Side.Carrying.flush x
    refine ⟨fun m hm => hnew.held m (h.held m hm), ?_⟩
    by_cases ht : t = x.peer.connection.localSequence
    · obtain ⟨ids, hids, hall⟩ := hnew.inFlight
      exact ⟨ids, ht ▸ hids, fun m hm => hall m (h.held m hm)⟩
    · obtain ⟨ids, hids, hall⟩ := h.inFlight
      exact ⟨ids, (Function.update_of_ne ht ..).trans hids, hall⟩

theorem Link.runFrom_quiet {s : Link} {es : List Link.Event}
    (hes : ∀ e ∈ es, e.Quiet) {t : UInt16} {ms : List Message} {c : Connection}
    (ha : s.a.Carrying t ms) (hb : c.SameReceipts s.b.peer.connection) :
    (Link.machine.runFrom s es).a.Carrying t ms ∧
      c.SameReceipts (Link.machine.runFrom s es).b.peer.connection := by
  induction es generalizing s with
  | nil => exact ⟨ha, hb⟩
  | cons e es ih =>
    have he := hes e List.mem_cons_self
    have hrest : ∀ e' ∈ es, e'.Quiet := fun e' he' => hes e' (List.mem_cons_of_mem _ he')
    cases e with
    | atA action => exact ih hrest (ha.quiet he) hb
    | atB action => exact ih hrest ha (Side.sameReceipts_quiet he hb)

structure Side.Numbered (x : Side) : Prop where
  localSequence : x.peer.connection.localSequence ≠ 0
  sent : ∀ p ∈ x.sent, p.header.sequence ≠ 0
  pending : ∀ m ∈ x.peer.mux.unreliable.pending, m.channel = Channel.unreliable
  connection : x.peer.connection.Numbered

theorem Side.Numbered.poll {x y : Side} (hx : x.Numbered) (hy : y.Numbered)
    {packets : List Packet} (hp : ∀ p ∈ packets, p ∈ y.sent) :
    (x.act (.poll packets)).Numbered := by
  suffices hfold : ∀ ps : List Packet, (∀ p ∈ ps, p ∈ y.sent) → ∀ q : PacketPeer,
      q.connection.localSequence ≠ 0 →
      (∀ m ∈ q.mux.unreliable.pending, m.channel = Channel.unreliable) → q.connection.Numbered →
      (ps.foldl PacketPeer.receive q).connection.localSequence ≠ 0 ∧
        (∀ m ∈ (ps.foldl PacketPeer.receive q).mux.unreliable.pending,
          m.channel = Channel.unreliable) ∧
        (ps.foldl PacketPeer.receive q).connection.Numbered by
    obtain ⟨hl, hu, hc⟩ := hfold packets hp x.peer hx.localSequence hx.pending hx.connection
    exact ⟨hl, hx.sent, hu, hc⟩
  intro ps
  induction ps with
  | nil => exact fun _ q hl hu hc => ⟨hl, hu, hc⟩
  | cons p ps ih =>
    intro hps q hl hu hc
    have hpy := hps p List.mem_cons_self
    refine ih (fun r hr => hps r (List.mem_cons_of_mem _ hr)) (q.receive p) ?_ ?_ ?_
    · change (q.connection.onReceived p.header).localSequence ≠ 0
      rwa [Connection.onReceived_localSequence]
    · change ∀ m ∈ (PacketPeer.retire _ p.header.ack q.mux).unreliable.pending, _
      exact PacketPeer.retire_induction
        (P := fun n => ∀ m ∈ n.unreliable.pending, m.channel = Channel.unreliable) hu
        fun n i _ hn => hn
    · exact hc.onReceived (hy.sent p hpy)

theorem Side.Numbered.act {x y : Side} (hx : x.Numbered) (hy : y.Numbered) {action : Action}
    (ha : action.Possible y) : (x.act action).Numbered := by
  cases action with
  | queueReliable payload => exact { hx with }
  | queueUnreliable payload =>
    refine { hx with pending := fun m hm => ?_ }
    rcases List.mem_append.mp hm with hm | hm
    · exact hx.pending m hm
    · rw [List.mem_singleton.mp hm]
  | flush =>
    refine ⟨advance_ne_zero _, fun p hp => ?_, fun m hm => absurd hm List.not_mem_nil,
      hx.connection⟩
    rcases List.mem_append.mp hp with hp | hp
    · exact hx.sent p hp
    · rw [List.mem_singleton.mp hp]
      exact hx.localSequence
  | poll packets => exact hx.poll hy ha

theorem Link.numbered {s : Link} (h : Link.machine.Reachable s) : s.a.Numbered ∧ s.b.Numbered := by
  apply Machine.Reachable.invariant (I := fun s : Link => s.a.Numbered ∧ s.b.Numbered) _ _ h
  · have hinit : Side.Numbered {} :=
      ⟨by decide, fun p hp => absurd hp List.not_mem_nil,
        fun m hm => absurd hm List.not_mem_nil, fun hany => absurd hany (by decide)⟩
    exact ⟨hinit, hinit⟩
  · intro s e hs he
    cases e with
    | atA action => exact ⟨hs.1.act hs.2 he, hs.2⟩
    | atB action => exact ⟨hs.1, hs.2.act hs.1 he⟩

theorem Side.Numbered.mem_held {x : Side} (hx : x.Numbered) {m : Message}
    (hm : m ∈ x.peer.flush.1.messages) (hreliable : m.channel = Channel.reliable) :
    m ∈ x.peer.mux.reliable.held := by
  rcases List.mem_append.mp hm with hm | hm
  · exact hm
  · exact absurd ((hx.pending m hm).symm.trans hreliable) (by decide)

namespace Link

/-- `a` flushes, the packet reaches `b`, and the next header of `b` reaches `a`,
with runs of quiet steps around the two deliveries. -/
def roundTrip (s : Link) (outbound between inbound : List Link.Event) : Link :=
  let arriving := machine.runFrom (machine.next s (.atA .flush)) outbound
  let answering := machine.runFrom (machine.next arriving (.atB (.poll [s.a.peer.flush.1]))) between
  let returning := machine.runFrom (machine.next answering (.atB .flush)) inbound
  machine.next returning (.atA (.poll [answering.b.peer.flush.1]))

theorem reachable_runFrom_quiet {s : Link} (h : machine.Reachable s) {es : List Link.Event}
    (hes : ∀ e ∈ es, e.Quiet) : machine.Reachable (machine.runFrom s es) := by
  induction es generalizing s with
  | nil => exact h
  | cons e es ih =>
    have henabled := Link.Event.Quiet.enabled (hes e List.mem_cons_self) s
    exact ih (h.step e henabled) fun e' he' => hes e' (List.mem_cons_of_mem _ he')

theorem sent_runFrom (s : Link) (es : List Link.Event) :
    s.a.sent <+: (machine.runFrom s es).a.sent ∧ s.b.sent <+: (machine.runFrom s es).b.sent := by
  induction es generalizing s with
  | nil => exact ⟨List.prefix_rfl, List.prefix_rfl⟩
  | cons e es ih =>
    obtain ⟨ha, hb⟩ := ih (machine.next s e)
    cases e with
    | atA action => exact ⟨(s.a.sent_act action).trans ha, hb⟩
    | atB action => exact ⟨ha, (s.b.sent_act action).trans hb⟩

/-- A round trip is a run of the link. -/
theorem roundTrip_reachable {s : Link} (h : machine.Reachable s)
    {outbound between inbound : List Link.Event} (hout : ∀ e ∈ outbound, e.Quiet)
    (hbetween : ∀ e ∈ between, e.Quiet) (hin : ∀ e ∈ inbound, e.Quiet) :
    machine.Reachable (s.roundTrip outbound between inbound) := by
  have harriving := reachable_runFrom_quiet (h.step (Event.atA .flush) trivial) hout
  have hpacket : s.a.peer.flush.1 ∈
      (machine.runFrom (machine.next s (.atA .flush)) outbound).a.sent :=
    (sent_runFrom _ outbound).1.subset (List.mem_append_right _ List.mem_cons_self)
  have hanswering := reachable_runFrom_quiet (harriving.step (Event.atB (.poll _))
    fun p hp => (List.mem_singleton.mp hp).symm ▸ hpacket) hbetween
  have hreturning := reachable_runFrom_quiet (hanswering.step (Event.atB .flush) trivial) hin
  apply hreturning.step (Event.atA (.poll _))
  intro p hp
  obtain rfl := List.mem_singleton.mp hp
  exact (sent_runFrom _ inbound).2.subset (List.mem_append_right _ List.mem_cons_self)

theorem answer_acknowledges_iff {s arriving answering : Link} (hs : s.a.Numbered)
    (hb : s.b.Numbered) (harriving : s.b.peer.connection.SameReceipts arriving.b.peer.connection)
    (hanswering : (arriving.b.peer.connection.onReceived s.a.peer.flush.1.header).SameReceipts
      answering.b.peer.connection) :
    answering.b.peer.flush.1.header.Acknowledges s.a.peer.connection.localSequence ↔
      s.b.peer.connection.Reports s.a.peer.connection.localSequence := by
  have hsame := harriving.onReceived s.a.peer.flush.1.header
  apply Connection.acknowledges_iff_reports (h := s.a.peer.flush.1.header) hb.connection
    hs.localSequence
  · rw [hanswering.remoteSequence, hsame.remoteSequence]
  · rw [hanswering.received, hsame.received]

/-- One round trip retires whatever the packet carried, provided the packet is one
that `b` reports. -/
theorem roundTrip_of_reports {s : Link} (h : machine.Reachable s)
    {outbound between inbound : List Link.Event} (hout : ∀ e ∈ outbound, e.Quiet)
    (hbetween : ∀ e ∈ between, e.Quiet) (hin : ∀ e ∈ inbound, e.Quiet)
    (hreports : s.b.peer.connection.Reports s.a.peer.flush.1.header.sequence) :
    ∀ m ∈ s.a.peer.flush.1.messages, m.channel = Channel.reliable →
      m ∉ (s.roundTrip outbound between inbound).a.peer.mux.reliable.held := by
  intro m hm hreliable
  obtain ⟨ha, hb⟩ := numbered h
  have hheld : m ∈ s.a.peer.mux.reliable.held := ha.mem_held hm hreliable
  obtain ⟨ha₁, hb₁⟩ := runFrom_quiet hout (s := machine.next s (.atA .flush))
    (Side.Carrying.flush s.a) (Connection.SameReceipts.mk rfl rfl rfl)
  set arriving := machine.runFrom (machine.next s (.atA .flush)) outbound
  obtain ⟨ha₂, hb₂⟩ := runFrom_quiet hbetween
    (s := machine.next arriving (.atB (.poll [s.a.peer.flush.1]))) ha₁
    (Connection.SameReceipts.mk rfl rfl rfl)
  set answering := machine.runFrom (machine.next arriving (.atB (.poll [s.a.peer.flush.1]))) between
  obtain ⟨ha₃, -⟩ := runFrom_quiet hin (s := machine.next answering (.atB .flush)) ha₂
    (Connection.SameReceipts.mk rfl rfl rfl)
  set returning := machine.runFrom (machine.next answering (.atB .flush)) inbound
  have hack := (answer_acknowledges_iff ha hb hb₁ hb₂).mpr hreports
  obtain ⟨i, hi, hti⟩ := hack.exists_sub
  obtain ⟨ids, hids, hall⟩ := ha₃.inFlight
  have hacked : (returning.a.peer.connection.onReceived answering.b.peer.flush.1.header).isAcked
      s.a.peer.connection.localSequence = true :=
    (Connection.onReceived_acked ..).mpr (Or.inr ⟨_, hack, rfl⟩)
  rw [hti] at hids hacked
  intro hstill
  have hgone := (PacketPeer.mem_held_retire_iff.mp hstill).2 i hi hacked
  rw [hids, Option.getD_some] at hgone
  exact hgone (hall m hheld)

/-- After the round trip `a` takes `t` for acknowledged: it is the newest sequence `b`
knows, or its slot is set on one of the two sides, by the arriving packet at the latest. -/
def Recalls (s : Link) (t : UInt16) : Prop :=
  t = s.b.peer.connection.remoteSequence ∨ slot t = slot s.a.peer.connection.localSequence ∨
    s.b.peer.connection.received (slot t) = true ∨ s.a.peer.connection.acked (slot t) = true

/-- An earlier packet carried `m`, and it is one of the 33 up to the newest that `b` knows. -/
def Recalled (s : Link) (m : Message) : Prop :=
  ∃ i ≤ 32, s.Recalls (s.b.peer.connection.remoteSequence - UInt16.ofNat i) ∧
    m.id ∈ (s.a.peer.mux.reliable.inFlight
      (s.b.peer.connection.remoteSequence - UInt16.ofNat i)).getD []

def answer (s : Link) : PacketHeader :=
  (s.b.peer.connection.onReceived s.a.peer.flush.1.header).nextHeader.1

section Unreported

variable {s : Link} {i : ℕ}

theorem answer_ack (hreports : ¬ s.b.peer.connection.Reports s.a.peer.flush.1.header.sequence) :
    s.answer.ack = s.b.peer.connection.remoteSequence := by
  have hstale : ¬ (!s.b.peer.connection.receivedAny || sequenceGreaterThan
      s.a.peer.flush.1.header.sequence s.b.peer.connection.remoteSequence) = true := by
    rw [Bool.or_eq_true, not_or, Bool.not_eq_true']
    exact ⟨fun h => hreports (Or.inl h), fun h => hreports (Or.inr (Or.inl h))⟩
  have hack : s.answer.ack =
      (s.b.peer.connection.onReceived s.a.peer.flush.1.header).remoteSequence := rfl
  rw [hack, Connection.onReceived_remoteSequence, Connection.recordReceived]
  exact if_neg hstale

theorem answer_acknowledges_sub_iff (hb : s.b.Numbered)
    (hreports : ¬ s.b.peer.connection.Reports s.a.peer.flush.1.header.sequence) (hi : i ≤ 32) :
    s.answer.Acknowledges (s.b.peer.connection.remoteSequence - UInt16.ofNat i) ↔ i = 0 ∨
      slot (s.b.peer.connection.remoteSequence - UInt16.ofNat i) =
        slot s.a.peer.connection.localSequence ∨
      s.b.peer.connection.received
        (slot (s.b.peer.connection.remoteSequence - UInt16.ofNat i)) = true := by
  have hremote : (s.b.peer.connection.onReceived s.a.peer.flush.1.header).remoteSequence =
      s.b.peer.connection.remoteSequence := answer_ack hreports
  have hany : s.b.peer.connection.receivedAny = true := by
    rw [← Bool.not_eq_false]
    exact fun hnone => hreports (Or.inl hnone)
  have hack := Connection.acknowledges_sub_iff (hremote ▸ hb.connection hany) hi
  rw [hremote, Connection.onReceived_received] at hack
  apply hack.trans
  apply or_congr_right
  have hsequence : s.a.peer.flush.1.header.sequence = s.a.peer.connection.localSequence := rfl
  rw [hsequence]
  by_cases hslot : slot (s.b.peer.connection.remoteSequence - UInt16.ofNat i) =
      slot s.a.peer.connection.localSequence
  · simp only [hslot, Function.update_self, true_or]
  · rw [Function.update_of_ne hslot, or_iff_right hslot]

theorem eq_zero_of_slot_sub {a : UInt16} (hi : i ≤ 32) (h : slot a = slot (a - UInt16.ofNat i)) :
    i = 0 := by
  have ha := a.toNat_lt
  rw [slot_eq_iff, toNat_sub_ofNat _ (by omega)] at h
  omega

theorem isAcked_answer_iff (hb : s.b.Numbered)
    (hreports : ¬ s.b.peer.connection.Reports s.a.peer.flush.1.header.sequence) (hi : i ≤ 32) :
    (s.a.peer.connection.nextHeader.2.onReceived s.answer).isAcked
        (s.b.peer.connection.remoteSequence - UInt16.ofNat i) = true ↔
      s.Recalls (s.b.peer.connection.remoteSequence - UInt16.ofNat i) := by
  have hissued : s.a.peer.connection.nextHeader.2.acked = Function.update
      s.a.peer.connection.acked (slot s.a.peer.connection.localSequence) false := rfl
  have hanswer := answer_acknowledges_sub_iff hb hreports hi
  rw [Connection.isAcked, Connection.onReceived_acked, hissued]
  by_cases hslot : slot (s.b.peer.connection.remoteSequence - UInt16.ofNat i) =
      slot s.a.peer.connection.localSequence
  · exact iff_of_true (Or.inr ⟨_, hanswer.mpr (Or.inr (Or.inl hslot)), rfl⟩) (Or.inr (Or.inl hslot))
  · rw [Function.update_of_ne hslot]
    constructor
    · intro h
      rcases h with hold | ⟨t, hack, hslots⟩
      · exact Or.inr (Or.inr (Or.inr hold))
      · obtain ⟨j, hj, ht⟩ := hack.exists_sub
        rw [answer_ack hreports] at ht
        rw [ht] at hack hslots
        rcases (answer_acknowledges_sub_iff hb hreports hj).mp hack with h0 | hown | hreceived
        · rw [h0] at hslots
          obtain rfl := eq_zero_of_slot_sub hi (by simpa using hslots)
          exact Or.inl (by simp)
        · exact absurd (hslots.symm.trans hown) hslot
        · exact Or.inr (Or.inr (Or.inl (hslots ▸ hreceived)))
    · intro h
      rcases h with htop | hown | hreceived | hold
      · have hsub := (eq_sub_ofNat_iff (by omega)).mp htop.symm
        rw [UInt16.sub_self, UInt16.toNat_zero] at hsub
        exact Or.inr ⟨_, hanswer.mpr (Or.inl hsub.symm), rfl⟩
      · exact absurd hown hslot
      · exact Or.inr ⟨_, hanswer.mpr (Or.inr (Or.inr hreceived)), rfl⟩
      · exact Or.inl hold

theorem mem_held_roundTrip_iff (hb : s.b.Numbered)
    (hreports : ¬ s.b.peer.connection.Reports s.a.peer.flush.1.header.sequence) {m : Message}
    (hm : m ∈ s.a.peer.mux.reliable.held) :
    m ∈ (s.roundTrip [] [] []).a.peer.mux.reliable.held ↔ ¬ s.Recalled m := by
  have hheld := (Side.Carrying.flush s.a).held m hm
  have hinFlight : ∀ i ≤ 32, (s.a.act .flush).peer.mux.reliable.inFlight
      (s.b.peer.connection.remoteSequence - UInt16.ofNat i) =
        s.a.peer.mux.reliable.inFlight (s.b.peer.connection.remoteSequence - UInt16.ofNat i) := by
    intro i hi
    apply Function.update_of_ne
    intro heq
    have hsub := (eq_sub_ofNat_iff (by omega)).mp heq.symm
    exact hreports (Or.inr (Or.inr (hsub.le.trans hi)))
  have hpolled : (s.roundTrip [] [] []).a.peer.mux =
      PacketPeer.retire (s.a.peer.connection.nextHeader.2.onReceived s.answer) s.answer.ack
        (s.a.act .flush).peer.mux := rfl
  rw [hpolled, answer_ack hreports, PacketPeer.mem_held_retire_iff, and_iff_right hheld]
  simp only [Recalled, not_exists, not_and]
  apply forall₂_congr
  intro i hi
  rw [isAcked_answer_iff hb hreports hi, hinFlight i hi]

end Unreported

/-- From every reachable state one round trip retires whatever the packet carried if
`b` reports the packet, whatever is queued or lost meanwhile. With nothing in between it
retires everything exactly if `b` reports the packet or recalls all it carried. -/
theorem roundTrip_retires {s : Link} (h : machine.Reachable s) :
    (s.b.peer.connection.Reports s.a.peer.flush.1.header.sequence →
      ∀ outbound between inbound : List Link.Event, (∀ e ∈ outbound, e.Quiet) →
        (∀ e ∈ between, e.Quiet) → (∀ e ∈ inbound, e.Quiet) →
        ∀ m ∈ s.a.peer.flush.1.messages, m.channel = Channel.reliable →
          m ∉ (s.roundTrip outbound between inbound).a.peer.mux.reliable.held) ∧
    ((∀ m ∈ s.a.peer.flush.1.messages, m.channel = Channel.reliable →
        m ∉ (s.roundTrip [] [] []).a.peer.mux.reliable.held) ↔
      s.b.peer.connection.Reports s.a.peer.flush.1.header.sequence ∨
        ∀ m ∈ s.a.peer.flush.1.messages, m.channel = Channel.reliable → s.Recalled m) := by
  obtain ⟨ha, hb⟩ := numbered h
  have hnil : ∀ e ∈ ([] : List Link.Event), e.Quiet := fun e he => absurd he List.not_mem_nil
  constructor
  · intro hreports outbound between inbound hout hbetween hin
    exact roundTrip_of_reports h hout hbetween hin hreports
  · by_cases hreports : s.b.peer.connection.Reports s.a.peer.flush.1.header.sequence
    · exact iff_of_true (roundTrip_of_reports h hnil hnil hnil hreports) (Or.inl hreports)
    · rw [or_iff_right hreports]
      apply forall₃_congr
      intro m hm hreliable
      rw [mem_held_roundTrip_iff hb hreports (ha.mem_held hm hreliable), not_not]

def queuedOnce : Link := machine.next machine.init (.atA (.queueReliable [7]))

theorem roundTrip_retires_queuedOnce :
    ⟨.reliable, 0, [7]⟩ ∉ (queuedOnce.roundTrip [.atA .flush] [.atB (.queueReliable [8])]
      []).a.peer.mux.reliable.held := by
  have hreach : machine.Reachable queuedOnce :=
    Machine.Reachable.init.step (M := machine) (Event.atA (.queueReliable [7])) trivial
  have hout : ∀ e ∈ [Event.atA .flush], e.Quiet := by simp [Event.Quiet, Action.Quiet]
  have hbetween : ∀ e ∈ [Event.atB (.queueReliable [8])], e.Quiet := by
    simp [Event.Quiet, Action.Quiet]
  have hcarried : ⟨.reliable, 0, [7]⟩ ∈ queuedOnce.a.peer.flush.1.messages := by decide
  exact (roundTrip_retires hreach).1 (Or.inl rfl) _ _ [] hout hbetween
    (fun e he => absurd he List.not_mem_nil) _ hcarried rfl

structure Silent (x : Side) (k : ℕ) : Prop where
  localSequence : x.peer.connection.localSequence = sequenceAt k
  unacked : x.peer.mux.reliable.unacked = []
  nextId : x.peer.mux.reliable.nextId = 0
  inFlight : ∀ t ids, x.peer.mux.reliable.inFlight t = some ids → ids = []

theorem Silent.flush {x : Side} {k : ℕ} (h : Silent x k) : Silent (x.act .flush) (k + 1) := by
  have hids : (x.act .flush).peer.mux.reliable.inFlight =
      Function.update x.peer.mux.reliable.inFlight x.peer.connection.localSequence
        (some (x.peer.mux.reliable.unacked.map (·.msg.id))) := rfl
  have hunacked : (x.act .flush).peer.mux.reliable.unacked =
      x.peer.mux.reliable.unacked.map (fun p => { p with sends := p.sends + 1 }) := rfl
  refine ⟨?_, by rw [hunacked, h.unacked, List.map_nil], h.nextId, fun t ids ht => ?_⟩
  · exact Connection.nextHeader_localSequence h.localSequence
  · rw [hids, h.unacked] at ht
    by_cases hseq : t = x.peer.connection.localSequence
    · rw [hseq, Function.update_self] at ht
      exact (Option.some.inj ht).symm
    · rw [Function.update_of_ne hseq] at ht
      exact h.inFlight t ids ht

theorem Silent.flushes {s : Link} {k : ℕ} (h : Silent s.a k) (n : ℕ) :
    Silent (machine.runFrom s (List.replicate n (.atA .flush))).a (k + n) ∧
      (machine.runFrom s (List.replicate n (.atA .flush))).b = s.b := by
  induction n generalizing s k with
  | zero => exact ⟨h, rfl⟩
  | succ n ih =>
    obtain ⟨hsilent, hb⟩ := ih (s := machine.next s (.atA .flush)) h.flush
    rw [Nat.add_assoc, Nat.add_comm 1 n] at hsilent
    exact ⟨hsilent, hb⟩

def firstContact : Link :=
  machine.runFrom machine.init [.atA .flush, .atB (.poll [⟨⟨1, 0, 0⟩, []⟩])]

def outage (n : ℕ) : Link :=
  machine.next (machine.runFrom firstContact (List.replicate n (.atA .flush)))
    (.atA (.queueReliable [42]))

theorem outage_reachable (n : ℕ) : machine.Reachable (outage n) := by
  have hflushes : ∀ n : ℕ, ∀ s, machine.Admits s (List.replicate n (.atA .flush)) := by
    intro n
    induction n with
    | zero => exact fun _ => trivial
    | succ n ih => exact fun s => ⟨trivial, ih _⟩
  have hfirst : machine.Reachable firstContact := Machine.Reachable.init.runFrom (by decide)
  exact (hfirst.runFrom (hflushes n _)).step (Event.atA (.queueReliable [42])) trivial

theorem firstContact_silent : Silent firstContact.a 1 :=
  Silent.flush (x := {}) ⟨rfl, rfl, rfl, fun t ids ht => absurd ht (by simp)⟩

theorem outage_localSequence (n : ℕ) :
    (outage n).a.peer.connection.localSequence = sequenceAt (1 + n) :=
  (firstContact_silent.flushes n).1.localSequence

theorem outage_held (n : ℕ) :
    (⟨Channel.reliable, 0, [42]⟩ : Message) ∈ (outage n).a.peer.mux.reliable.held := by
  have hq := ReliableSender.queue_held
    (machine.runFrom firstContact (List.replicate n (.atA .flush))).a.peer.mux.reliable [42]
  rw [(firstContact_silent.flushes n).1.nextId] at hq
  exact hq ▸ List.mem_append_right _ List.mem_cons_self

theorem outage_carried (n : ℕ) :
    (⟨Channel.reliable, 0, [42]⟩ : Message) ∈ (outage n).a.peer.flush.1.messages :=
  List.mem_append_left _ (outage_held n)

theorem outage_inFlight (n : ℕ) (t : UInt16) (ids : List MessageId)
    (h : (outage n).a.peer.mux.reliable.inFlight t = some ids) : ids = [] :=
  (firstContact_silent.flushes n).1.inFlight t ids h

theorem outage_receiver (n : ℕ) : (outage n).b = firstContact.b :=
  (firstContact_silent.flushes n).2

theorem outage_keeps {n : ℕ} (hn : ¬ firstContact.b.peer.connection.Reports (sequenceAt (1 + n))) :
    (⟨Channel.reliable, 0, [42]⟩ : Message) ∈
      ((outage n).roundTrip [] [] []).a.peer.mux.reliable.held := by
  have hseq : (outage n).a.peer.flush.1.header.sequence = sequenceAt (1 + n) :=
    outage_localSequence n
  have hreports : ¬ (outage n).b.peer.connection.Reports
      (outage n).a.peer.flush.1.header.sequence := by
    rw [hseq, outage_receiver]
    exact hn
  apply (mem_held_roundTrip_iff (numbered (outage_reachable n)).2 hreports (outage_held n)).mpr
  intro hrecalled
  obtain ⟨i, -, -, hid⟩ := hrecalled
  cases hids : (outage n).a.peer.mux.reliable.inFlight
      ((outage n).b.peer.connection.remoteSequence - UInt16.ofNat i) with
  | none => simp [hids] at hid
  | some ids => simp [hids, outage_inFlight n _ ids hids] at hid

/-- The packet that ends an outage of 32768 packets is not acknowledged. -/
theorem outage_not_recovered :
    ¬ ∀ s, machine.Reachable s → ∀ outbound between inbound : List Link.Event,
      (∀ e ∈ outbound, e.Quiet) → (∀ e ∈ between, e.Quiet) → (∀ e ∈ inbound, e.Quiet) →
      ∀ m ∈ s.a.peer.flush.1.messages, m.channel = Channel.reliable →
        m ∉ (s.roundTrip outbound between inbound).a.peer.mux.reliable.held := by
  intro hclaim
  have hnil : ∀ e ∈ ([] : List Link.Event), e.Quiet := fun e he => absurd he List.not_mem_nil
  have hfar : ¬ firstContact.b.peer.connection.Reports (sequenceAt (1 + 32768)) := by
    have hany : firstContact.b.peer.connection.receivedAny = true := rfl
    have hremote : firstContact.b.peer.connection.remoteSequence = 1 := rfl
    rw [Connection.Reports, hany, hremote]
    decide
  exact hclaim _ (outage_reachable _) [] [] [] hnil hnil hnil _ (outage_carried _) rfl
    (outage_keeps hfar)

end Link

end Netcode.Transport
