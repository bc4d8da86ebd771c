import Netcode.Library.Machine
import Netcode.Library.Window
import Netcode.Transport.PacketPeer

/-!
# Two peers over a lossy network

Each side queues messages, flushes packets and polls. The network keeps every
packet ever flushed, and a poll takes any list of the other side's packets, so
loss, duplication, reordering and delay are all choices of that list.

`Flow x y lo hi base d` is the invariant of one direction. It says that `x`
still holds the messages from position `base` on, that `y` has handed on the
first `d`, that the `k`-th packet of `x` carries the window from `lo k` to
`hi k`, and that every top acknowledgement `y` has sent is genuine. The ack bits
below the top one may be stale; retiring on them is harmless, because the
newer packet at the top carried everything that was still held.
-/

namespace Netcode.Transport

open Netcode.Library

structure Side where
  peer : PacketPeer := {}
  sent : List Packet := []
  queued : List Message := []
  delivered : List Message := []

inductive Action
  | queueReliable (payload : Bytes)
  | queueUnreliable (payload : Bytes)
  | flush
  | poll (packets : List Packet)

def Side.act (x : Side) : Action → Side
  | .queueReliable payload =>
    { x with
      peer := x.peer.queueReliable payload
      queued := x.queued ++ [⟨Channel.reliable, x.peer.mux.reliable.nextId, payload⟩] }
  | .queueUnreliable payload => { x with peer := x.peer.queueUnreliable payload }
  | .flush => { x with peer := x.peer.flush.2, sent := x.sent ++ [x.peer.flush.1] }
  | .poll packets =>
    let r := x.peer.poll packets
    { x with peer := r.2, delivered := x.delivered ++ r.1.reliable }

def Side.withMux (x : Side) (m : ChannelMux) : Side := { x with peer := { x.peer with mux := m } }

/-- A poll only ever sees packets that the other side `y` has flushed. -/
def Action.Possible (y : Side) : Action → Prop
  | .poll packets => ∀ p ∈ packets, p ∈ y.sent
  | _ => True

instance (y : Side) : (action : Action) → Decidable (action.Possible y)
  | .poll packets => inferInstanceAs (Decidable (∀ p ∈ packets, p ∈ y.sent))
  | .queueReliable _ | .queueUnreliable _ | .flush => isTrue trivial

structure Link where
  a : Side := {}
  b : Side := {}

inductive Link.Event
  | atA (action : Action)
  | atB (action : Action)

def Link.machine : Machine Link Link.Event where
  init := {}
  Enabled s e := match e with
    | .atA action => action.Possible s.b
    | .atB action => action.Possible s.a
  next s e := match e with
    | .atA action => { s with a := s.a.act action }
    | .atB action => { s with b := s.b.act action }

instance (s : Link) : (e : Link.Event) → Decidable (Link.machine.Enabled s e)
  | .atA action => inferInstanceAs (Decidable (action.Possible s.b))
  | .atB action => inferInstanceAs (Decidable (action.Possible s.a))

def maxPackets : ℕ := 65503
def maxMessages : ℕ := 65536

structure Flow (x y : Side) (lo hi : ℕ → ℕ) (base d : ℕ) : Prop where
  base_le : base ≤ d
  le_length : d ≤ x.queued.length
  ids : x.queued.map (·.id) = (List.range x.queued.length).map UInt16.ofNat
  reliable : ∀ m ∈ x.queued, m.channel = Channel.reliable
  unreliable : ∀ m ∈ x.peer.mux.unreliable.pending, m.channel = Channel.unreliable
  nextId : x.peer.mux.reliable.nextId = UInt16.ofNat x.queued.length
  localSequence : x.peer.connection.localSequence = sequenceAt x.sent.length
  held : x.peer.mux.reliable.held = x.queued.drop base
  packets : ∀ k p, x.sent[k]? = some p → p.header.sequence = sequenceAt k ∧
    p.messages.filter (·.channel = Channel.reliable) = window x.queued (lo k) (hi k)
  lo_le : ∀ k < x.sent.length, lo k ≤ base
  hi_le : ∀ k < x.sent.length, hi k ≤ x.queued.length
  hi_mono : ∀ j k, j ≤ k → k < x.sent.length → hi j ≤ hi k
  inFlight : ∀ s ids, x.peer.mux.reliable.inFlight s = some ids → ∃ k < x.sent.length,
    s = sequenceAt k ∧ ids = (window x.queued (lo k) (hi k)).map (·.id)
  delivered : y.delivered = x.queued.take d
  seen : ∀ i, i ∈ y.peer.demux.reliable.seen ↔ ∃ m ∈ x.queued.take d, m.id = i
  newest : y.peer.connection.remoteSequence = 0 ∨ ∃ k < x.sent.length,
    y.peer.connection.remoteSequence = sequenceAt k ∧ hi k ≤ d
  acks : ∀ p ∈ y.sent, p.header.ack = 0 ∨ ∃ k < x.sent.length,
    p.header.ack = sequenceAt k ∧ hi k ≤ d

def Side.InBounds (x : Side) : Prop :=
  x.sent.length ≤ maxPackets ∧ x.queued.length ≤ maxMessages

namespace Flow

variable {x y : Side} {lo hi : ℕ → ℕ} {base d : ℕ}

theorem init : Flow {} {} (fun _ => 0) (fun _ => 0) 0 0 := by
  constructor <;> simp [sequenceAt, ReliableSender.held]

theorem nodup (f : Flow x y lo hi base d) (hb : x.InBounds) :
    (x.queued.map (·.id)).Nodup := by
  rw [f.ids]
  apply List.Nodup.map_on _ List.nodup_range
  intro i hi j hj hij
  have hlen : x.queued.length ≤ 65536 := hb.2
  have hval := congrArg UInt16.toNat hij
  rw [UInt16.toNat_ofNat', UInt16.toNat_ofNat'] at hval
  rw [List.mem_range] at hi hj
  omega

theorem held_reliable (f : Flow x y lo hi base d) :
    ∀ m ∈ x.peer.mux.reliable.held, m.channel = Channel.reliable := by
  rw [f.held]
  exact fun m hm => f.reliable m (List.mem_of_mem_drop hm)

theorem flush_messages (f : Flow x y lo hi base d) :
    x.peer.flush.1.messages.filter (·.channel = Channel.reliable) =
      window x.queued base x.queued.length := by
  have hr : x.peer.mux.reliable.held.filter (·.channel = Channel.reliable) =
      x.peer.mux.reliable.held :=
    List.filter_eq_self.mpr fun m hm => decide_eq_true (f.held_reliable m hm)
  have hu : x.peer.mux.unreliable.pending.filter (·.channel = Channel.reliable) = [] := by
    apply List.filter_eq_nil_iff.mpr
    intro m hm
    rw [f.unreliable m hm]
    decide
  have hm : x.peer.flush.1.messages =
      x.peer.mux.reliable.held ++ x.peer.mux.unreliable.pending := rfl
  rw [hm, List.filter_append, hr, hu, List.append_nil, f.held, window_length_eq]

theorem queueReliable (f : Flow x y lo hi base d) (payload : Bytes) :
    Flow (x.act (.queueReliable payload)) y lo hi base d := by
  have hq : (x.act (.queueReliable payload)).queued =
      x.queued ++ [⟨Channel.reliable, x.peer.mux.reliable.nextId, payload⟩] := rfl
  have hlen : (x.act (.queueReliable payload)).queued.length = x.queued.length + 1 := by
    rw [hq, List.length_append, List.length_singleton]
  have htake : (x.act (.queueReliable payload)).queued.take d = x.queued.take d := by
    rw [hq, List.take_append_of_le_length f.le_length]
  have hwin : ∀ k < x.sent.length, window (x.act (.queueReliable payload)).queued (lo k) (hi k) =
      window x.queued (lo k) (hi k) := fun k hk => window_append (f.hi_le k hk)
  refine { f with le_length := ?_, ids := ?_, reliable := ?_, nextId := ?_, held := ?_,
                  packets := ?_, hi_le := ?_, inFlight := ?_, delivered := ?_, seen := ?_ }
  · have hd := f.le_length
    omega
  · rw [hlen, hq, List.map_append, f.ids, List.range_succ, List.map_append]
    simp [f.nextId]
  · intro m hm
    rcases List.mem_append.mp (hq ▸ hm) with hm | hm
    · exact f.reliable m hm
    · rw [List.mem_singleton.mp hm]
  · rw [hlen, UInt16.ofNat_add, ← f.nextId]
    rfl
  · have hb : base ≤ x.queued.length := f.base_le.trans f.le_length
    rw [hq, List.drop_append_of_le_length hb, ← f.held]
    exact x.peer.mux.reliable.queue_held payload
  · intro k p hp
    have hk : k < x.sent.length := (List.getElem?_eq_some_iff.mp hp).1
    rw [hwin k hk]
    exact f.packets k p hp
  · intro k hk
    have hh := f.hi_le k hk
    omega
  · intro s ids hs
    obtain ⟨k, hk, hseq, hids⟩ := f.inFlight s ids hs
    exact ⟨k, hk, hseq, by rw [hids, hwin k hk]⟩
  · rw [htake, f.delivered]
  · rw [htake]
    exact f.seen

theorem senderFlush (f : Flow x y lo hi base d) :
    Flow (x.act .flush) y (fun k => if k < x.sent.length then lo k else base)
      (fun k => if k < x.sent.length then hi k else x.queued.length) base d := by
  have hq : (x.act .flush).queued = x.queued := rfl
  have hsent : (x.act .flush).sent = x.sent ++ [x.peer.flush.1] := rfl
  have hlen : (x.act .flush).sent.length = x.sent.length + 1 := by
    rw [hsent, List.length_append, List.length_singleton]
  have hgenuine : ∀ s, (s = (0 : UInt16) ∨ ∃ k < x.sent.length, s = sequenceAt k ∧ hi k ≤ d) →
      s = 0 ∨ ∃ k < (x.act .flush).sent.length, s = sequenceAt k ∧
        (if k < x.sent.length then hi k else x.queued.length) ≤ d := by
    intro s hs
    rcases hs with h0 | ⟨k, hk, hseq, hh⟩
    · exact Or.inl h0
    · exact Or.inr ⟨k, by omega, hseq, by rwa [if_pos hk]⟩
  refine { f with unreliable := fun m hm => absurd hm List.not_mem_nil, localSequence := ?_,
                  held := ?_, packets := ?_, lo_le := ?_, hi_le := ?_, hi_mono := ?_,
                  inFlight := ?_, newest := hgenuine _ f.newest,
                  acks := fun p hp => hgenuine _ (f.acks p hp) }
  · exact hlen ▸ Connection.nextHeader_localSequence f.localSequence
  · rw [hq, ← f.held]
    exact x.peer.flush_held
  · intro k p hp
    rw [hq]
    rcases getElem?_concat (hsent ▸ hp) with hold | ⟨hkn, hnew⟩
    · have hk := (List.getElem?_eq_some_iff.mp hold).1
      simpa only [hk, if_true] using f.packets k p hold
    · rw [hkn, hnew, if_neg (lt_irrefl _), if_neg (lt_irrefl _)]
      exact ⟨f.localSequence, f.flush_messages⟩
  · intro k hk
    split_ifs with h
    · exact f.lo_le k h
    · exact le_rfl
  · intro k hk
    split_ifs with h
    · exact f.hi_le k h
    · exact le_rfl
  · intro j k hjk hk
    by_cases h : k < x.sent.length
    · simpa only [h, lt_of_le_of_lt hjk h, if_true] using f.hi_mono j k hjk h
    · rw [if_neg h]
      split_ifs with hj
      · exact f.hi_le j hj
      · exact le_rfl
  · intro s ids hs
    have hupd : (x.act .flush).peer.mux.reliable.inFlight = Function.update
        x.peer.mux.reliable.inFlight x.peer.connection.localSequence
        (some (x.peer.mux.reliable.unacked.map (·.msg.id))) := rfl
    rw [hq]
    rw [hupd, f.localSequence] at hs
    by_cases hseq : s = sequenceAt x.sent.length
    · rw [hseq, Function.update_self, Option.some.injEq] at hs
      refine ⟨x.sent.length, by omega, hseq, ?_⟩
      have hmap : x.peer.mux.reliable.unacked.map (·.msg.id) =
          x.peer.mux.reliable.held.map (·.id) := by
        simp [ReliableSender.held]
      rw [← hs, if_neg (lt_irrefl _), if_neg (lt_irrefl _), hmap, f.held, window_length_eq]
    · rw [Function.update_of_ne hseq] at hs
      obtain ⟨k, hk, hs', hids⟩ := f.inFlight s ids hs
      exact ⟨k, by omega, hs', by simpa only [hk, if_true] using hids⟩

theorem queueUnreliable (f : Flow x y lo hi base d) (payload : Bytes) :
    Flow (x.act (.queueUnreliable payload)) y lo hi base d := by
  refine { f with unreliable := ?_ }
  intro m hm
  rcases List.mem_append.mp hm with hm | hm
  · exact f.unreliable m hm
  · rw [List.mem_singleton.mp hm]

theorem scanned_le {n k j i : ℕ} (hn : n ≤ maxPackets) (hk : k < n) (hj : j < n) (hi : i ≤ 32)
    (h : sequenceAt j = sequenceAt k - UInt16.ofNat i) : j ≤ k := by
  have hv := congrArg UInt16.toNat h
  rw [toNat_sub_ofNat _ (by omega), toNat_sequenceAt, toNat_sequenceAt] at hv
  rw [maxPackets] at hn
  omega

theorem scanned_zero {n j i : ℕ} (hn : n ≤ maxPackets) (hj : j < n) (hi : i ≤ 32) :
    sequenceAt j ≠ 0 - UInt16.ofNat i := by
  intro h
  have hv := congrArg UInt16.toNat h
  rw [toNat_sub_ofNat _ (by omega), toNat_sequenceAt, UInt16.toNat_zero] at hv
  rw [maxPackets] at hn
  omega

theorem onAcked (f : Flow x y lo hi base d) (hb : x.InBounds) {ack : UInt16} {i : ℕ} (hi32 : i ≤ 32)
    (hack : ack = 0 ∨ ∃ k < x.sent.length, ack = sequenceAt k ∧ hi k ≤ d) :
    ∃ base', Flow (x.withMux (x.peer.mux.onAcked (ack - UInt16.ofNat i))) y lo hi base' d := by
  have hheld := x.peer.mux.reliable.onAcked_held (ack - UInt16.ofNat i)
  have hflight := x.peer.mux.reliable.onAcked_inFlight (ack - UInt16.ofNat i)
  have hold : ∀ s ids, (x.peer.mux.onAcked (ack - UInt16.ofNat i)).reliable.inFlight s = some ids →
      x.peer.mux.reliable.inFlight s = some ids := by
    intro s ids hs
    change (x.peer.mux.reliable.onAcked (ack - UInt16.ofNat i)).inFlight s = some ids at hs
    rw [hflight] at hs
    by_cases hseq : s = ack - UInt16.ofNat i
    · rw [hseq, Function.update_self] at hs
      exact absurd hs (by simp)
    · rwa [Function.update_of_ne hseq] at hs
  have hnext := x.peer.mux.reliable.onAcked_nextId (ack - UInt16.ofNat i)
  cases hids : x.peer.mux.reliable.inFlight (ack - UInt16.ofNat i) with
  | none =>
    refine ⟨base, { f with nextId := hnext.trans f.nextId, held := ?_,
                           inFlight := fun s ids hs => f.inFlight s ids (hold s ids hs) }⟩
    rw [hids] at hheld
    exact (hheld.trans (by simp)).trans f.held
  | some ids =>
    obtain ⟨j, hj, hseq, hwin⟩ := f.inFlight _ _ hids
    have hjd : hi j ≤ d := by
      rcases hack with h0 | ⟨k, hk, hak, hkd⟩
      · exact absurd (h0 ▸ hseq.symm) (scanned_zero hb.1 hj hi32)
      · have hjk := scanned_le hb.1 hk hj hi32 (hak ▸ hseq.symm)
        exact (f.hi_mono j k hjk hk).trans hkd
    have hbase := f.base_le
    refine ⟨max base (hi j), { f with base_le := by omega, nextId := hnext.trans f.nextId,
                                      held := ?_, lo_le := ?_,
                                      inFlight := fun s ids hs =>
                                        f.inFlight s ids (hold s ids hs) }⟩
    · rw [hids, Option.getD_some, hwin, f.held] at hheld
      exact hheld.trans (filter_drop_window (f.nodup hb) (f.lo_le j hj))
    · intro k hk
      have hlo := f.lo_le k hk
      omega

theorem receive (f : Flow x y lo hi base d) (hb : x.InBounds) {packet : Packet}
    (hp : packet ∈ y.sent) :
    ∃ base', Flow { x with peer := x.peer.receive packet } y lo hi base' d := by
  let c := x.peer.connection.onReceived packet.header
  have hc : c.localSequence = x.peer.connection.localSequence :=
    Connection.onReceived_localSequence _ _
  have fc : Flow { x with peer := { x.peer with connection := c } } y lo hi base d :=
    { f with localSequence := hc.trans f.localSequence }
  apply PacketPeer.retire_induction
    (P := fun m => ∃ base', Flow { x with peer := { x.peer with connection := c, mux := m } } y
      lo hi base' d) ⟨base, fc⟩
  intro m i hi32 hm
  obtain ⟨base', fm⟩ := hm
  exact fm.onAcked hb hi32 (f.acks packet hp)

theorem senderPoll (f : Flow x y lo hi base d) (hb : x.InBounds) {packets : List Packet}
    (hp : ∀ p ∈ packets, p ∈ y.sent) : ∃ base', Flow (x.act (.poll packets)) y lo hi base' d := by
  have hfold : ∀ ps : List Packet, (∀ p ∈ ps, p ∈ y.sent) → ∀ (q : PacketPeer) (b : ℕ),
      Flow { x with peer := q } y lo hi b d →
      ∃ base', Flow { x with peer := ps.foldl PacketPeer.receive q } y lo hi base' d := by
    intro ps
    induction ps with
    | nil => exact fun _ q b fq => ⟨b, fq⟩
    | cons packet ps ih =>
      intro hps q b fq
      obtain ⟨b', fr⟩ := fq.receive hb (hps packet List.mem_cons_self)
      exact ih (fun p hp => hps p (List.mem_cons_of_mem _ hp)) _ b' fr
  obtain ⟨base', fr⟩ := hfold packets hp x.peer base f
  exact ⟨base', { fr with }⟩

theorem receiverFlush (f : Flow x y lo hi base d) : Flow x (y.act .flush) lo hi base d := by
  refine { f with acks := ?_ }
  intro p hp
  rcases List.mem_append.mp hp with hp | hp
  · exact f.acks p hp
  · rw [List.mem_singleton.mp hp]
    exact f.newest

theorem receive_window {r : ReliableReceiver} (hnd : (x.queued.map (·.id)).Nodup) {l h : ℕ}
    (hseen : ∀ i, i ∈ r.seen ↔ ∃ m ∈ x.queued.take d, m.id = i) (hl : l ≤ d) :
    (r.receive (window x.queued l h)).1 = window x.queued d h ∧
      ∀ i, i ∈ (r.receive (window x.queued l h)).2.seen ↔
        ∃ m ∈ x.queued.take (max d h), m.id = i := by
  have hstale : ∀ k ≤ d, ∀ m ∈ window x.queued l k, m.id ∈ r.seen := by
    intro k hk m hm
    have hmk := mem_take_of_mem_window hm
    exact (hseen m.id).mpr ⟨m, (List.take_sublist_take_left hk).subset hmk, rfl⟩
  rcases Nat.le_total h d with hh | hh
  · rw [ReliableReceiver.receive_stale (hstale h hh), window_eq_nil hh, Nat.max_eq_left hh]
    exact ⟨rfl, hseen⟩
  · have hfresh : ∀ m ∈ window x.queued d h, m.id ∉ r.seen := by
      intro m hm hmem
      obtain ⟨n, hn, hid⟩ := (hseen m.id).mp hmem
      have hdrop : m ∈ x.queued.drop d := by
        rw [← window_append_drop hh]
        exact List.mem_append_left _ hm
      have hkey := key_notMem_window (l := 0) hnd hdrop
      exact hkey (hid ▸ List.mem_map_of_mem hn)
    rw [← window_append_window hl hh, ReliableReceiver.receive_append,
      ReliableReceiver.receive_stale (hstale d le_rfl),
      ReliableReceiver.receive_fresh (nodup_window hnd) hfresh, Nat.max_eq_right hh]
    refine ⟨rfl, fun i => ?_⟩
    rw [ReliableReceiver.receive_seen, hseen, ← take_append_window hh]
    simp only [List.mem_append, or_and_right, exists_or]

theorem receive_packets (f : Flow x y lo hi base d) (hb : x.InBounds) {packets : List Packet}
    (hp : ∀ p ∈ packets, p ∈ x.sent) :
    ∃ d', d ≤ d' ∧ d' ≤ x.queued.length ∧
      (y.peer.demux.reliable.receive (packets.flatMap fun p =>
        p.messages.filter (·.channel = Channel.reliable))).1 = window x.queued d d' ∧
      (∀ i, i ∈ (y.peer.demux.reliable.receive (packets.flatMap fun p =>
        p.messages.filter (·.channel = Channel.reliable))).2.seen ↔
          ∃ m ∈ x.queued.take d', m.id = i) ∧
      ∀ p ∈ packets, ∃ k < x.sent.length, p.header.sequence = sequenceAt k ∧ hi k ≤ d' := by
  suffices hfold : ∀ ps : List Packet, (∀ p ∈ ps, p ∈ x.sent) → ∀ (r : ReliableReceiver) (e : ℕ),
      d ≤ e → e ≤ x.queued.length →
      (∀ i, i ∈ r.seen ↔ ∃ m ∈ x.queued.take e, m.id = i) →
      ∃ d', e ≤ d' ∧ d' ≤ x.queued.length ∧
        (r.receive (ps.flatMap fun p => p.messages.filter (·.channel = Channel.reliable))).1 =
          window x.queued e d' ∧
        (∀ i, i ∈ (r.receive (ps.flatMap fun p =>
          p.messages.filter (·.channel = Channel.reliable))).2.seen ↔
            ∃ m ∈ x.queued.take d', m.id = i) ∧
        ∀ p ∈ ps, ∃ k < x.sent.length, p.header.sequence = sequenceAt k ∧ hi k ≤ d' from
    hfold packets hp _ d le_rfl f.le_length f.seen
  intro ps
  induction ps with
  | nil =>
    intro _ r e _ he hseen
    exact ⟨e, le_rfl, he, (window_eq_nil le_rfl).symm, hseen, fun p hp => absurd hp (by simp)⟩
  | cons p ps ih =>
    intro hps r e hde he hseen
    obtain ⟨k, hk⟩ := List.getElem?_of_mem (hps p List.mem_cons_self)
    have hkl : k < x.sent.length := (List.getElem?_eq_some_iff.mp hk).1
    obtain ⟨hseq, hmsgs⟩ := f.packets k p hk
    have hlo : lo k ≤ e := ((f.lo_le k hkl).trans f.base_le).trans hde
    have hhi := f.hi_le k hkl
    obtain ⟨hout, hseen'⟩ := receive_window (h := hi k) (f.nodup hb) hseen hlo
    obtain ⟨d', hmax, hd', hout', hseen'', hrest⟩ := ih
      (fun q hq => hps q (List.mem_cons_of_mem _ hq)) _ (max e (hi k)) (by omega) (by omega) hseen'
    rw [List.flatMap_cons, hmsgs, ReliableReceiver.receive_append]
    refine ⟨d', by omega, hd', ?_, hseen'', ?_⟩
    · rw [hout, hout']
      rcases Nat.le_total (hi k) e with h | h
      · rw [Nat.max_eq_left h, window_eq_nil h, List.nil_append]
      · rw [Nat.max_eq_right h, window_append_window h (by omega)]
    · intro q hq
      rcases List.mem_cons.mp hq with hq | hq
      · exact ⟨k, hkl, hq ▸ hseq, by omega⟩
      · exact hrest q hq

theorem receiverPoll (f : Flow x y lo hi base d) (hb : x.InBounds) {packets : List Packet}
    (hp : ∀ p ∈ packets, p ∈ x.sent) : ∃ d', Flow x (y.act (.poll packets)) lo hi base d' := by
  obtain ⟨d', hdd, hd', hout, hseen, hpk⟩ := f.receive_packets hb hp
  have hdemux : (packets.foldl PacketPeer.receive y.peer).demux = y.peer.demux :=
    PacketPeer.foldl_receive_demux _ _
  have hfilter : (packets.flatMap (·.messages)).filter (·.channel = Channel.reliable) =
      packets.flatMap fun p => p.messages.filter (·.channel = Channel.reliable) :=
    List.filter_flatMap
  have hgenuine : ∀ s, (s = (0 : UInt16) ∨ ∃ k < x.sent.length, s = sequenceAt k ∧ hi k ≤ d) →
      s = 0 ∨ ∃ k < x.sent.length, s = sequenceAt k ∧ hi k ≤ d' := by
    intro s hs
    rcases hs with h0 | ⟨k, hk, hseq, hh⟩
    · exact Or.inl h0
    · exact Or.inr ⟨k, hk, hseq, hh.trans hdd⟩
  refine ⟨d', { f with base_le := f.base_le.trans hdd, le_length := hd', delivered := ?_,
                       seen := ?_, newest := ?_, acks := fun p hp => hgenuine _ (f.acks p hp) }⟩
  · have hr : (y.act (.poll packets)).delivered = y.delivered ++
        ((packets.foldl PacketPeer.receive y.peer).demux.reliable.receive
          ((packets.flatMap (·.messages)).filter (·.channel = Channel.reliable))).1 := rfl
    rw [hr, hdemux, hfilter, hout, f.delivered, take_append_window hdd]
  · intro i
    have hr : (y.act (.poll packets)).peer.demux.reliable =
        ((packets.foldl PacketPeer.receive y.peer).demux.reliable.receive
          ((packets.flatMap (·.messages)).filter (·.channel = Channel.reliable))).2 := rfl
    rw [hr, hdemux, hfilter]
    exact hseen i
  · have hr : (y.act (.poll packets)).peer.connection =
        (packets.foldl PacketPeer.receive y.peer).connection := rfl
    rw [hr]
    rcases y.peer.foldl_receive_remoteSequence packets with h | ⟨q, hq, h⟩
    · rw [h]
      exact hgenuine _ f.newest
    · obtain ⟨k, hk, hseq, hh⟩ := hpk q hq
      exact Or.inr ⟨k, hk, h.trans hseq, hh⟩

end Flow

theorem Side.act_inBounds {x : Side} {action : Action} (hb : (x.act action).InBounds) :
    x.InBounds := by
  cases action with
  | queueReliable payload =>
    refine ⟨hb.1, Nat.le_trans ?_ hb.2⟩
    exact (List.sublist_append_left _ _).length_le
  | queueUnreliable payload => exact hb
  | flush =>
    refine ⟨Nat.le_trans ?_ hb.1, hb.2⟩
    exact (List.sublist_append_left _ _).length_le
  | poll packets => exact hb

theorem Flow.sender_act {x y : Side} {lo hi : ℕ → ℕ} {base d : ℕ} (f : Flow x y lo hi base d)
    (hb : x.InBounds) {action : Action} (ha : action.Possible y) :
    ∃ lo' hi' base', Flow (x.act action) y lo' hi' base' d := by
  cases action with
  | queueReliable payload => exact ⟨lo, hi, base, f.queueReliable payload⟩
  | queueUnreliable payload => exact ⟨lo, hi, base, f.queueUnreliable payload⟩
  | flush => exact ⟨_, _, base, f.senderFlush⟩
  | poll packets => exact ⟨lo, hi, f.senderPoll hb ha⟩

theorem Flow.receiver_act {x y : Side} {lo hi : ℕ → ℕ} {base d : ℕ} (f : Flow x y lo hi base d)
    (hb : x.InBounds) {action : Action} (ha : action.Possible x) :
    ∃ d', Flow x (y.act action) lo hi base d' := by
  cases action with
  | queueReliable payload => exact ⟨d, { f with }⟩
  | queueUnreliable payload => exact ⟨d, { f with }⟩
  | flush => exact ⟨d, f.receiverFlush⟩
  | poll packets => exact f.receiverPoll hb ha

theorem Link.flow {s : Link} (h : Link.machine.Reachable s) (hb : s.a.InBounds) :
    ∃ lo hi base d, Flow s.a s.b lo hi base d := by
  suffices hinv : s.a.InBounds → ∃ lo hi base d, Flow s.a s.b lo hi base d from hinv hb
  apply Machine.Reachable.invariant (I := fun s : Link => s.a.InBounds →
    ∃ lo hi base d, Flow s.a s.b lo hi base d) _ _ h
  · exact fun _ => ⟨_, _, 0, 0, Flow.init⟩
  · intro s e ih he hb
    cases e with
    | atA action =>
      have hb' := Side.act_inBounds hb
      obtain ⟨lo, hi, base, d, f⟩ := ih hb'
      obtain ⟨lo', hi', base', f'⟩ := f.sender_act hb' he
      exact ⟨lo', hi', base', d, f'⟩
    | atB action =>
      obtain ⟨lo, hi, base, d, f⟩ := ih hb
      obtain ⟨d', f'⟩ := f.receiver_act hb he
      exact ⟨lo, hi, base, d', f'⟩

/-- Whatever the network loses, duplicates, reorders or delays, `b` has handed
on a prefix of what `a` queued, and `a` has let go only of messages in it. -/
theorem Link.delivered_prefix {s : Link} (h : Link.machine.Reachable s)
    (hsent : s.a.sent.length ≤ maxPackets) (hqueued : s.a.queued.length ≤ maxMessages) :
    s.b.delivered <+: s.a.queued ∧
      ∀ m ∈ s.a.queued, m ∉ s.a.peer.mux.reliable.held → m ∈ s.b.delivered := by
  obtain ⟨lo, hi, base, d, f⟩ := Link.flow h ⟨hsent, hqueued⟩
  rw [f.delivered, f.held]
  refine ⟨List.take_prefix _ _, fun m hm hnot => ?_⟩
  rw [← List.take_append_drop base s.a.queued] at hm
  rcases List.mem_append.mp hm with hm | hm
  · exact (List.take_sublist_take_left f.base_le).subset hm
  · exact absurd hm hnot

def Link.lossyRun : Link :=
  Link.machine.runFrom Link.machine.init
    [.atA (.queueReliable [1]), .atA .flush, .atA (.queueReliable [2]), .atA .flush,
      .atB (.poll [⟨⟨2, 0, 0⟩, [⟨Channel.reliable, 0, [1]⟩, ⟨Channel.reliable, 1, [2]⟩]⟩]),
      .atB .flush, .atA (.poll [⟨⟨1, 2, 0⟩, []⟩])]

theorem Link.delivered_prefix_lossyRun :
    Link.lossyRun.b.delivered <+: Link.lossyRun.a.queued ∧ ∀ m ∈ Link.lossyRun.a.queued,
      m ∉ Link.lossyRun.a.peer.mux.reliable.held → m ∈ Link.lossyRun.b.delivered :=
  Link.delivered_prefix (Machine.Reachable.init.runFrom (by decide)) (by decide) (by decide)

end Netcode.Transport
