import Netcode.Library.Simulation
import Netcode.Transport.Interleaving
import Netcode.Transport.PacketLink
import Netcode.Transport.PeerRefinement

/-!
# Two peers over a datagram network

Each side is a whole peer with its clocks, its pacing and its reassembly table.
The network keeps every datagram ever sent, and a poll takes any list of the
other side's datagrams, so that loss, duplication, reordering and delay of single
fragments are all choices of that list. As long as no sequence has come round
again, a group holds fragments of one packet only; what comes out of the table
was flushed, and the two peers do what two packet-level peers do.
-/

namespace Netcode.Transport

open Netcode.Library

def Packet.bytes (p : Packet) : Bytes := serialize p.header p.messages

structure Packet.Carried (p : Packet) : Prop where
  fits : ∀ m ∈ p.messages, m.Fits
  small : p.bytes.length ≤ 255 * kMaxFragmentSize

instance (p : Packet) : Decidable p.Carried :=
  decidable_of_iff ((∀ m ∈ p.messages, m.payload.length ≤ 65535) ∧
    p.bytes.length ≤ 255 * kMaxFragmentSize) ⟨fun h => ⟨h.1, h.2⟩, fun h => ⟨h.fits, h.small⟩⟩

theorem Packet.Carried.deserialize_bytes {p : Packet} (h : p.Carried) :
    deserialize p.bytes = some (p.header, p.messages) := by
  have hsize := length_le_wireSize p.messages
  have hsmall := h.small
  rw [Packet.bytes, length_serialize h.fits, kMaxFragmentSize] at hsmall
  exact deserialize_serialize h.fits (by omega)

theorem length_datagram_le (s : UInt16) (p : Bytes) (i : ℕ) :
    (datagram s p i).length ≤ kRxBuffer := by
  have hpiece := length_piece_le kMaxFragmentSize p i
  have hheader : (fragmentHeader s p i).encode.length = 4 := rfl
  rw [datagram, List.length_append, hheader]
  exact (Nat.add_le_add_left hpiece 4).trans (by decide)

theorem take_datagram {s : UInt16} {p d : Bytes} (hd : d ∈ fragment s p) :
    d.take kRxBuffer = d := by
  obtain ⟨i, -, rfl⟩ := mem_fragment.mp hd
  exact List.take_of_length_le (length_datagram_le s p i)

theorem sequenceAt_injective {j k n : ℕ} (hn : n ≤ 65535) (hj : j < n) (hk : k < n)
    (h : sequenceAt j = sequenceAt k) : j = k := by
  have hval := congrArg UInt16.toNat h
  rw [toNat_sequenceAt, toNat_sequenceAt] at hval
  omega

namespace Reassembler

variable {r : Reassembler} {packets : List Packet} {p : Packet} {k : ℕ} {d : Bytes}

/-- Every group collects fragments of the packet that was flushed under its sequence. -/
def Collecting (packets : List Packet) (r : Reassembler) : Prop :=
  ∀ t g, r.groups.lookup t = some g →
    ∃ k p, packets[k]? = some p ∧ sequenceAt k = t ∧ g.Holds p.bytes

theorem Collecting.append (h : r.Collecting packets) (more : List Packet) :
    r.Collecting (packets ++ more) := by
  intro t g hg
  obtain ⟨k, p, hk, hseq, hholds⟩ := h t g hg
  have hlt := (List.getElem?_eq_some_iff.mp hk).1
  exact ⟨k, p, (List.getElem?_append_left hlt).trans hk, hseq, hholds⟩

theorem Collecting.of_groups (h : r.Collecting packets) (hk : packets[k]? = some p)
    {r' : Reassembler} (hgroups : ∀ t g, r'.groups.lookup t = some g →
      r.groups.lookup t = some g ∨ t = sequenceAt k ∧ g.Holds p.bytes) :
    r'.Collecting packets := by
  intro t g hg
  rcases hgroups t g hg with hold | ⟨ht, hholds⟩
  · exact h t g hold
  · exact ⟨k, p, hk, ht.symm, hholds⟩

theorem Collecting.reassemble (h : r.Collecting packets) (hlen : packets.length ≤ 65535)
    (hk : packets[k]? = some p) (hp : p.bytes.length ≤ 255 * kMaxFragmentSize)
    (hd : d ∈ fragment (sequenceAt k) p.bytes) (order : VisitOrder) :
    (∀ b, (r.reassemble order d).1 = some b → b = p.bytes) ∧
      (r.reassemble order d).2.Collecting packets := by
  obtain ⟨i, hi, rfl⟩ := mem_fragment.mp hd
  have hklt := (List.getElem?_eq_some_iff.mp hk).1
  rcases Nat.lt_or_ge 1 (fragmentCount p.bytes.length) with hmultiple | hone
  · cases hlook : r.groups.lookup (sequenceAt k) with
    | none =>
      obtain ⟨groups, hsub, -, hr⟩ := reassemble_created order hp hmultiple hi hlook
      have hopened := holds_fresh hp hmultiple
      have hlength := hopened.length
      have hput := hopened.put hp (i := i) (by omega)
        (by simp only [fresh, List.getElem_replicate])
      rw [hr]
      refine ⟨fun b hb => absurd hb (by simp), h.of_groups hk fun t g hg => ?_⟩
      rcases lookup_of_insert hg with ⟨ht, rfl⟩ | hold
      · exact Or.inr ⟨ht, hput⟩
      · exact Or.inl (hsub t g hold)
    | some g =>
      have hholds : g.Holds p.bytes := by
        obtain ⟨j, q, hj, hseq, hholds⟩ := h _ g hlook
        have hjlt := (List.getElem?_eq_some_iff.mp hj).1
        have hjk := sequenceAt_injective hlen hjlt hklt hseq
        rw [hjk, hk, Option.some.injEq] at hj
        exact hj ▸ hholds
      rw [reassemble_found order hp hmultiple hi hlook]
      by_cases hreject : Rejects g (fragmentHeader (sequenceAt k) p.bytes i)
      · rw [store_rejects hreject]
        exact ⟨fun b hb => absurd hb (by simp), h⟩
      · obtain ⟨hput, hstore⟩ := store_holds (r := r) (s := sequenceAt k) hholds hp hi hreject
        rw [hstore]
        split_ifs
        · refine ⟨fun b hb => absurd hb (by simp), h.of_groups hk fun t g' hg => ?_⟩
          rcases lookup_of_insert hg with ⟨ht, rfl⟩ | hold
          · exact Or.inr ⟨ht, hput⟩
          · exact Or.inl hold
        · exact ⟨fun b hb => (Option.some.inj hb).symm,
            h.of_groups hk fun t g' hg => Or.inl (lookup_of_erase hg)⟩
  · have hcount : fragmentCount p.bytes.length = 1 := by
      have hpos := fragmentCount_pos p.bytes.length
      omega
    obtain rfl : i = 0 := by omega
    rw [reassemble_whole hcount]
    exact ⟨fun b hb => (Option.some.inj hb).symm, h⟩

def drained (r : Reassembler) (arrivals : List Arrival) : Reassembler :=
  arrivals.foldl (fun r a => (r.reassemble a.1 (a.2.take kRxBuffer)).2) r

def Genuine (packets : List Packet) (d : Bytes) : Prop :=
  ∃ k p, packets[k]? = some p ∧ d ∈ fragment (sequenceAt k) p.bytes

theorem Collecting.decoded (h : r.Collecting packets) (hlen : packets.length ≤ 65535)
    (hcarried : ∀ p ∈ packets, p.Carried) {arrivals : List Arrival}
    (harrivals : ∀ a ∈ arrivals, Genuine packets a.2) :
    (∀ p ∈ r.decoded arrivals, p ∈ packets) ∧ (r.drained arrivals).Collecting packets := by
  induction arrivals generalizing r with
  | nil => exact ⟨fun p hp => absurd hp List.not_mem_nil, h⟩
  | cons a arrivals ih =>
    obtain ⟨k, p, hk, hd⟩ := harrivals a List.mem_cons_self
    have hpmem := List.mem_of_getElem? hk
    obtain ⟨hout, hnext⟩ := h.reassemble hlen hk (hcarried p hpmem).small hd a.1
    obtain ⟨hrest, hend⟩ := ih hnext fun a' ha' => harrivals a' (List.mem_cons_of_mem a ha')
    rw [decoded_cons, drained, List.foldl_cons, take_datagram hd]
    refine ⟨fun q hq => ?_, hend⟩
    rcases List.mem_append.mp hq with hq | hq
    · cases hr : (r.reassemble a.1 a.2).1 with
      | none => simp [hr] at hq
      | some b =>
        rw [hr, Option.bind_some, hout b hr, (hcarried p hpmem).deserialize_bytes] at hq
        have hqp : q = p := by simpa using hq
        rw [hqp]
        exact hpmem
    · exact hrest q hq

end Reassembler

variable {δ : Type*} [Scalar δ]

namespace Peer

def flushes (p : Peer δ) (nowUs : Micros) : List Packet :=
  if p.flushedOnce ∧ nowUs - p.lastFlushUs < p.governor.sendIntervalUs then []
  else [p.packets.flush.1]

theorem update_cases (p : Peer δ) (nowUs : Micros) :
    p.update nowUs = ([], p) ∧ p.flushes nowUs = [] ∨
      (p.update nowUs).1 = p.packets.datagrams ∧ p.flushes nowUs = [p.packets.flush.1] ∧
        (p.update nowUs).2.packets = p.packets.flush.2 ∧
        (p.update nowUs).2.reassembler = p.reassembler := by
  rw [update, flushes]
  split_ifs
  · exact Or.inl ⟨rfl, rfl⟩
  · exact Or.inr ⟨rfl, rfl, rfl, rfl⟩

theorem receive_reassembler (nowUs : Micros) (x : Peer δ × List Message) (a : Arrival) :
    (receive nowUs x a).1.reassembler =
      (x.1.reassembler.reassemble a.1 (a.2.take kRxBuffer)).2 := by
  rw [receive]
  split <;> rfl

theorem poll_reassembler (p : Peer δ) (nowUs : Micros) (arrivals : List Arrival) :
    (p.poll nowUs arrivals).2.reassembler = p.reassembler.drained arrivals := by
  have hfold : ∀ x : Peer δ × List Message, (arrivals.foldl (receive nowUs) x).1.reassembler =
      x.1.reassembler.drained arrivals := by
    induction arrivals with
    | nil => exact fun x => rfl
    | cons a arrivals ih =>
      intro x
      rw [List.foldl_cons, ih, receive_reassembler]
      rfl
  exact hfold (p, [])

theorem length_flushes_le (p : Peer δ) (nowUs : Micros) : (p.flushes nowUs).length ≤ 1 := by
  rw [flushes]
  split_ifs <;> simp

theorem update_bytesSent (p : Peer δ) (now : Micros) : (p.update now).2.bytesSent =
    p.bytesSent + UInt64.ofNat ((p.update now).1.map List.length).sum := by
  have hfold : ∀ (ds : List Bytes) (n : UInt64),
      ds.foldl (fun n d => n + UInt64.ofNat d.length) n =
        n + UInt64.ofNat (ds.map List.length).sum := by
    intro ds
    induction ds with
    | nil => exact fun n => (UInt64.add_zero n).symm
    | cons d ds ih =>
      intro n
      rw [List.foldl_cons, ih, List.map_cons, List.sum_cons, UInt64.ofNat_add, UInt64.add_assoc]
  rw [update]
  split_ifs
  · exact (UInt64.add_zero _).symm
  · exact hfold _ _

theorem update_packetsSent (p : Peer δ) (nowUs : Micros) :
    (p.update nowUs).2.packetsSent =
      p.packetsSent + UInt64.ofNat (p.flushes nowUs).length := by
  rw [update, flushes]
  split_ifs
  · exact (UInt64.add_zero p.packetsSent).symm
  · rfl

end Peer

namespace PacketPeer

theorem receive_sender (p : PacketPeer) (packet : Packet) :
    (p.receive packet).connection.localSequence = p.connection.localSequence ∧
      (p.receive packet).mux.unreliable = p.mux.unreliable ∧
      ∀ m ∈ (p.receive packet).mux.reliable.held, m ∈ p.mux.reliable.held := by
  refine ⟨Connection.onReceived_localSequence _ _, ?_, fun m hm => (mem_held_retire_iff.mp hm).1⟩
  exact retire_induction (P := fun m => m.unreliable = p.mux.unreliable) rfl fun _ _ _ h => h

theorem poll_sender (p : PacketPeer) (packets : List Packet) :
    (p.poll packets).2.connection.localSequence = p.connection.localSequence ∧
      (p.poll packets).2.mux.unreliable = p.mux.unreliable ∧
      ∀ m ∈ (p.poll packets).2.mux.reliable.held, m ∈ p.mux.reliable.held := by
  change (packets.foldl receive p).connection.localSequence = _ ∧
    (packets.foldl receive p).mux.unreliable = _ ∧
    ∀ m ∈ (packets.foldl receive p).mux.reliable.held, m ∈ p.mux.reliable.held
  induction packets generalizing p with
  | nil => exact ⟨rfl, rfl, fun m hm => hm⟩
  | cons packet packets ih =>
    obtain ⟨hlocal, hpending, hheld⟩ := ih (p.receive packet)
    obtain ⟨hlocal', hpending', hheld'⟩ := p.receive_sender packet
    exact ⟨hlocal.trans hlocal', hpending.trans hpending', fun m hm => hheld' m (hheld m hm)⟩

end PacketPeer

/-- A peer, the datagrams it sent, and a record of what it queued, flushed and handed on. -/
structure PeerSide (δ : Type*) [Scalar δ] where
  peer : Peer δ
  wire : List Bytes := []
  flushed : List Packet := []
  queued : List Message := []
  offered : List Bytes := []
  delivered : List Message := []
  received : List Bytes := []

inductive PeerAction
  | queueReliable (payload : Bytes)
  | queueUnreliable (payload : Bytes)
  | update (nowUs : Micros)
  | poll (nowUs : Micros) (arrivals : List Arrival)

namespace PeerSide

def act (x : PeerSide δ) : PeerAction → PeerSide δ
  | .queueReliable payload =>
    { x with
      peer := x.peer.queueReliable payload
      queued := x.queued ++ [⟨Channel.reliable, x.peer.mux.reliable.nextId, payload⟩] }
  | .queueUnreliable payload =>
    { x with peer := x.peer.queueUnreliable payload, offered := x.offered ++ [payload] }
  | .update nowUs =>
    let r := x.peer.update nowUs
    { x with
      peer := r.2
      wire := x.wire ++ r.1
      flushed := x.flushed ++ x.peer.flushes nowUs }
  | .poll nowUs arrivals =>
    let r := x.peer.poll nowUs arrivals
    { x with
      peer := r.2
      delivered := x.delivered ++ r.1.reliable
      received := x.received ++ r.1.unreliable.map (·.payload) }

def side (x : PeerSide δ) : Side := ⟨x.peer.packets, x.flushed, x.queued, x.delivered⟩

/-- All that was flushed fits the wire, and no sequence has come round again. -/
structure Carried (x : PeerSide δ) : Prop where
  packets : ∀ p ∈ x.flushed, p.Carried
  count : x.flushed.length ≤ maxPackets

def Counted (x : PeerSide δ) : Prop := x.peer.packetsSent = UInt64.ofNat x.flushed.length

theorem Counted.act {x : PeerSide δ} (h : x.Counted) (action : PeerAction) :
    (x.act action).Counted := by
  cases action with
  | queueReliable payload => exact h
  | queueUnreliable payload => exact h
  | update nowUs =>
    rw [Counted, PeerSide.act, List.length_append, UInt64.ofNat_add]
    exact (x.peer.update_packetsSent nowUs).trans (congrArg (· + _) h)
  | poll nowUs arrivals => exact (x.peer.untouched_poll nowUs arrivals).packetsSent.trans h

theorem Counted.foldl {x : PeerSide δ} (h : x.Counted) (actions : List PeerAction) :
    (actions.foldl PeerSide.act x).Counted := by
  induction actions generalizing x with
  | nil => exact h
  | cons action actions ih => exact ih (h.act action)

structure Grows (x y : PeerSide δ) : Prop where
  flushed : x.flushed <+: y.flushed
  queued : x.queued <+: y.queued
  delivered : x.delivered <+: y.delivered

theorem Grows.refl (x : PeerSide δ) : x.Grows x :=
  ⟨List.prefix_rfl, List.prefix_rfl, List.prefix_rfl⟩

theorem Grows.trans {x y z : PeerSide δ} (h : x.Grows y) (h' : y.Grows z) : x.Grows z :=
  ⟨h.flushed.trans h'.flushed, h.queued.trans h'.queued, h.delivered.trans h'.delivered⟩

theorem grows_act (x : PeerSide δ) (action : PeerAction) : x.Grows (x.act action) := by
  cases action with
  | queueReliable payload =>
    exact ⟨List.prefix_rfl, List.prefix_append _ _, List.prefix_rfl⟩
  | queueUnreliable payload => exact ⟨List.prefix_rfl, List.prefix_rfl, List.prefix_rfl⟩
  | update nowUs => exact ⟨List.prefix_append _ _, List.prefix_rfl, List.prefix_rfl⟩
  | poll nowUs arrivals => exact ⟨List.prefix_rfl, List.prefix_rfl, List.prefix_append _ _⟩

theorem grows_foldl (x : PeerSide δ) (actions : List PeerAction) :
    x.Grows (actions.foldl PeerSide.act x) := by
  induction actions generalizing x with
  | nil => exact .refl x
  | cons action actions ih => exact (x.grows_act action).trans (ih _)

theorem Carried.of_counted {x y : PeerSide δ} (h : x.Carried) (hy : y.Counted)
    {packets : List Packet} (hflushed : y.flushed = x.flushed ++ packets)
    (hlength : packets.length ≤ 1) (hpackets : ∀ p ∈ packets, p.Carried)
    (hsent : y.peer.packetsSent.toNat ≤ maxPackets) : y.Carried := by
  have hcount := h.count
  refine ⟨?_, ?_⟩
  · rw [hflushed]
    exact List.forall_mem_append.mpr ⟨h.packets, hpackets⟩
  · rw [hy, UInt64.toNat_ofNat', hflushed, List.length_append] at hsent
    rw [hflushed, List.length_append]
    rw [maxPackets] at hcount hsent ⊢
    omega

end PeerSide

/-- A poll only ever sees datagrams that the other side `y` has sent. -/
def PeerAction.Possible (y : PeerSide δ) : PeerAction → Prop
  | .poll _ arrivals => ∀ a ∈ arrivals, a.2 ∈ y.wire
  | _ => True

structure PeerLink (δ : Type*) [Scalar δ] where
  a : PeerSide δ
  b : PeerSide δ

namespace PeerLink

inductive Event
  | atA (action : PeerAction)
  | atB (action : PeerAction)

def init (remoteA remoteB : Endpoint) : PeerLink δ :=
  ⟨{ peer := { remote := remoteA } }, { peer := { remote := remoteB } }⟩

def machine (remoteA remoteB : Endpoint) : Machine (PeerLink δ) Event where
  init := init remoteA remoteB
  Enabled s e := match e with
    | .atA action => action.Possible s.b
    | .atB action => action.Possible s.a
  next s e := match e with
    | .atA action => { s with a := s.a.act action }
    | .atB action => { s with b := s.b.act action }

def Carried (s : PeerLink δ) : Prop := s.a.Carried ∧ s.b.Carried

def packets (s : PeerLink δ) : Link := ⟨s.a.side, s.b.side⟩

end PeerLink

/-- What `x` has sent, what `y` keeps of it in its table and what it has handed on. -/
structure Conveys (x y : PeerSide δ) : Prop where
  localSequence : x.peer.connection.localSequence = sequenceAt x.flushed.length
  wire : ∀ d ∈ x.wire, Reassembler.Genuine x.flushed d
  groups : y.peer.reassembler.Collecting x.flushed
  held : ∀ m ∈ x.peer.mux.reliable.held, m.channel = Channel.reliable
  pending : ∀ m ∈ x.peer.mux.unreliable.pending, m.payload ∈ x.offered
  messages : ∀ p ∈ x.flushed, ∀ m ∈ p.messages,
    m.channel ≠ Channel.reliable → m.payload ∈ x.offered
  received : ∀ payload ∈ y.received, payload ∈ x.offered

namespace Conveys

variable {x y : PeerSide δ}

theorem init (remoteA remoteB : Endpoint) :
    Conveys (δ := δ) { peer := { remote := remoteA } } { peer := { remote := remoteB } } := by
  constructor <;> simp [sequenceAt, Reassembler.Collecting, ReliableSender.held]

theorem genuine_append {packets : List Packet} {d : Bytes} (h : Reassembler.Genuine packets d)
    (more : List Packet) : Reassembler.Genuine (packets ++ more) d := by
  obtain ⟨k, p, hk, hd⟩ := h
  have hlt := (List.getElem?_eq_some_iff.mp hk).1
  exact ⟨k, p, (List.getElem?_append_left hlt).trans hk, hd⟩

theorem queueReliable (h : Conveys x y) (payload : Bytes) :
    Conveys (x.act (.queueReliable payload)) y := by
  refine { h with held := fun m hm => ?_ }
  have hheld : (x.act (.queueReliable payload)).peer.mux.reliable.held = _ :=
    x.peer.mux.reliable.queue_held payload
  rw [hheld] at hm
  rcases List.mem_append.mp hm with hm | hm
  · exact h.held m hm
  · rw [List.mem_singleton.mp hm]

theorem queueUnreliable (h : Conveys x y) (payload : Bytes) :
    Conveys (x.act (.queueUnreliable payload)) y where
  localSequence := h.localSequence
  wire := h.wire
  groups := h.groups
  held := h.held
  pending := fun m hm => by
    rcases List.mem_append.mp hm with hm | hm
    · exact List.mem_append_left _ (h.pending m hm)
    · rw [List.mem_singleton.mp hm]
      exact List.mem_append_right _ (List.mem_singleton_self payload)
  messages := fun p hp m hm hm' => List.mem_append_left _ (h.messages p hp m hm hm')
  received := fun b hb => List.mem_append_left _ (h.received b hb)

theorem flush_offered (h : Conveys x y) : ∀ m ∈ x.peer.packets.flush.1.messages,
    m.channel ≠ Channel.reliable → m.payload ∈ x.offered := by
  intro m hm hchannel
  have hmessages : x.peer.packets.flush.1.messages =
      x.peer.mux.reliable.held ++ x.peer.mux.unreliable.pending := rfl
  rw [hmessages] at hm
  rcases List.mem_append.mp hm with hm | hm
  · exact absurd (h.held m hm) hchannel
  · exact h.pending m hm

theorem senderUpdate (h : Conveys x y) (nowUs : Micros) :
    Conveys (x.act (.update nowUs)) y := by
  rcases x.peer.update_cases nowUs with ⟨hidle, hnone⟩ | ⟨hsent, hone, hpackets, -⟩
  · simpa only [PeerSide.act, hidle, hnone, List.append_nil] using h
  · have hwire : (x.act (.update nowUs)).wire = x.wire ++ x.peer.packets.datagrams := by
      rw [← hsent]
      rfl
    have hflushed : (x.act (.update nowUs)).flushed = x.flushed ++ [x.peer.packets.flush.1] := by
      rw [← hone]
      rfl
    have hpeer : (x.act (.update nowUs)).peer.packets = x.peer.packets.flush.2 := hpackets
    have hmux : (x.act (.update nowUs)).peer.mux = x.peer.packets.flush.2.mux :=
      congrArg PacketPeer.mux hpeer
    refine ⟨?_, ?_, ?_, ?_, ?_, ?_, h.received⟩
    · rw [hflushed, List.length_append, List.length_singleton]
      have hnext := Connection.nextHeader_localSequence h.localSequence
      exact (congrArg (·.connection.localSequence) hpeer).trans hnext
    · rw [hflushed, hwire]
      refine List.forall_mem_append.mpr ⟨fun d hd => genuine_append (h.wire d hd) _, fun d hd => ?_⟩
      refine ⟨x.flushed.length, x.peer.packets.flush.1, List.getElem?_concat_length, ?_⟩
      rw [← h.localSequence]
      exact hd
    · rw [hflushed]
      exact h.groups.append _
    · rw [hmux, PacketPeer.flush_held]
      exact h.held
    · rw [hmux]
      exact fun m hm => absurd hm List.not_mem_nil
    · rw [hflushed]
      exact List.forall_mem_append.mpr
        ⟨h.messages, List.forall_mem_singleton.mpr h.flush_offered⟩

theorem senderPoll (h : Conveys x y) (nowUs : Micros) (arrivals : List Arrival) :
    Conveys (x.act (.poll nowUs arrivals)) y := by
  have hpackets := (x.peer.poll_packets nowUs arrivals).2
  obtain ⟨hlocal, hpending, hheld⟩ :=
    x.peer.packets.poll_sender (x.peer.reassembler.decoded arrivals)
  rw [← hpackets] at hlocal hpending hheld
  refine { h with localSequence := hlocal.trans h.localSequence, held := fun m hm => ?_,
                  pending := fun m hm => ?_ }
  · exact h.held m (hheld m hm)
  · have hsame : (x.act (.poll nowUs arrivals)).peer.mux.unreliable = x.peer.mux.unreliable :=
      hpending
    rw [hsame] at hm
    exact h.pending m hm

theorem decoded (h : Conveys x y) (hx : x.Carried) {arrivals : List Arrival}
    (harrivals : ∀ a ∈ arrivals, a.2 ∈ x.wire) :
    (∀ p ∈ y.peer.reassembler.decoded arrivals, p ∈ x.flushed) ∧
      (y.peer.reassembler.drained arrivals).Collecting x.flushed :=
  h.groups.decoded (hx.count.trans (by decide)) hx.packets
    fun a ha => h.wire a.2 (harrivals a ha)

theorem receiverUpdate (h : Conveys x y) (nowUs : Micros) :
    Conveys x (y.act (.update nowUs)) := by
  refine { h with groups := ?_ }
  rcases y.peer.update_cases nowUs with ⟨hidle, -⟩ | ⟨-, -, -, hreassembler⟩
  · simpa only [PeerSide.act, hidle] using h.groups
  · simpa only [PeerSide.act, hreassembler] using h.groups

theorem receiverPoll (h : Conveys x y) (hx : x.Carried) (nowUs : Micros) {arrivals : List Arrival}
    (harrivals : ∀ a ∈ arrivals, a.2 ∈ x.wire) : Conveys x (y.act (.poll nowUs arrivals)) := by
  obtain ⟨hmem, hgroups⟩ := h.decoded hx harrivals
  refine { h with groups := ?_, received := ?_ }
  · simpa only [PeerSide.act, Peer.poll_reassembler] using hgroups
  · simp only [PeerSide.act, (y.peer.poll_packets nowUs arrivals).1]
    refine List.forall_mem_append.mpr ⟨h.received, fun b hb => ?_⟩
    obtain ⟨m, hm, rfl⟩ := List.mem_map.mp hb
    obtain ⟨hm, hchannel⟩ := List.mem_filter.mp hm
    obtain ⟨p, hp, hm⟩ := List.mem_flatMap.mp hm
    exact h.messages p (hmem p hp) m hm (of_decide_eq_true hchannel)

theorem sender_act (h : Conveys x y) (action : PeerAction) : Conveys (x.act action) y := by
  cases action with
  | queueReliable payload => exact h.queueReliable payload
  | queueUnreliable payload => exact h.queueUnreliable payload
  | update nowUs => exact h.senderUpdate nowUs
  | poll nowUs arrivals => exact h.senderPoll nowUs arrivals

theorem receiver_act (h : Conveys x y) (hx : x.Carried) {action : PeerAction}
    (haction : action.Possible x) : Conveys x (y.act action) := by
  cases action with
  | queueReliable payload => exact { h with }
  | queueUnreliable payload => exact { h with }
  | update nowUs => exact h.receiverUpdate nowUs
  | poll nowUs arrivals => exact h.receiverPoll hx nowUs haction

theorem receiver_foldl (h : Conveys x y) (hx : x.Carried)
    {actions : List PeerAction} (hactions : ∀ action ∈ actions, action.Possible x) :
    Conveys x (actions.foldl PeerSide.act y) := by
  induction actions generalizing y with
  | nil => exact h
  | cons action actions ih =>
    obtain ⟨haction, hrest⟩ := List.forall_mem_cons.mp hactions
    exact ih (h.receiver_act hx haction) hrest

end Conveys

def PeerAction.packets (x : PeerSide δ) : PeerAction → List Action
  | .queueReliable payload => [.queueReliable payload]
  | .queueUnreliable payload => [.queueUnreliable payload]
  | .update nowUs => (x.peer.flushes nowUs).map fun _ => .flush
  | .poll _ arrivals => [.poll (x.peer.reassembler.decoded arrivals)]

theorem PeerSide.side_act (x : PeerSide δ) (action : PeerAction) :
    (x.act action).side = (action.packets x).foldl Side.act x.side := by
  cases action with
  | queueReliable payload => rfl
  | queueUnreliable payload => rfl
  | update nowUs =>
    rcases x.peer.update_cases nowUs with ⟨hidle, hnone⟩ | ⟨-, hone, hpackets, -⟩
    · simp only [act, side, hidle, hnone, PeerAction.packets, List.map_nil, List.foldl_nil,
        List.append_nil]
    · simp only [act, side, hone, hpackets, PeerAction.packets, List.map_cons, List.map_nil,
        List.foldl_cons, List.foldl_nil, Side.act]
  | poll nowUs arrivals =>
    obtain ⟨hdelivery, hpackets⟩ := x.peer.poll_packets nowUs arrivals
    simp only [act, side, hdelivery, hpackets, PeerAction.packets, List.foldl_cons,
      List.foldl_nil, Side.act]

theorem Conveys.possible {x y : PeerSide δ} (h : Conveys x y) (hx : x.Carried)
    {action : PeerAction} (haction : action.Possible x) :
    ∀ act ∈ action.packets y, act.Possible x.side := by
  cases action with
  | queueReliable payload => exact List.forall_mem_singleton.mpr trivial
  | queueUnreliable payload => exact List.forall_mem_singleton.mpr trivial
  | update nowUs => exact List.forall_mem_map.mpr fun _ _ => trivial
  | poll nowUs arrivals => exact List.forall_mem_singleton.mpr (h.decoded hx haction).1

namespace Link

theorem run_atA {t : Link} {actions : List Action} (h : ∀ act ∈ actions, act.Possible t.b) :
    machine.AdmitsUnder (fun _ _ => True) t (actions.map .atA) ∧
      machine.runFrom t (actions.map .atA) = { t with a := actions.foldl Side.act t.a } := by
  induction actions generalizing t with
  | nil => exact ⟨trivial, rfl⟩
  | cons act actions ih =>
    obtain ⟨hact, hrest⟩ := List.forall_mem_cons.mp h
    obtain ⟨hadmits, hrun⟩ := ih (t := { t with a := t.a.act act }) hrest
    exact ⟨⟨trivial, hact, hadmits⟩, hrun⟩

theorem run_atB {t : Link} {actions : List Action} (h : ∀ act ∈ actions, act.Possible t.a) :
    machine.AdmitsUnder (fun _ _ => True) t (actions.map .atB) ∧
      machine.runFrom t (actions.map .atB) = { t with b := actions.foldl Side.act t.b } := by
  induction actions generalizing t with
  | nil => exact ⟨trivial, rfl⟩
  | cons act actions ih =>
    obtain ⟨hact, hrest⟩ := List.forall_mem_cons.mp h
    obtain ⟨hadmits, hrun⟩ := ih (t := { t with b := t.b.act act }) hrest
    exact ⟨⟨trivial, hact, hadmits⟩, hrun⟩

theorem reachable_swap {t : Link} (h : machine.Reachable t) : machine.Reachable ⟨t.b, t.a⟩ := by
  induction h with
  | init => exact Machine.Reachable.init
  | step _ e _ he ih =>
    cases e with
    | atA action => exact ih.step (.atB action) he
    | atB action => exact ih.step (.atA action) he

end Link

namespace PeerLink

variable {remoteA remoteB : Endpoint} {s : PeerLink δ}

theorem Carried.of_act {x : PeerSide δ} {action : PeerAction} (h : (x.act action).Carried) :
    x.Carried := by
  cases action with
  | update nowUs =>
    have hsub : x.flushed.Sublist (x.act (.update nowUs)).flushed := List.sublist_append_left _ _
    exact ⟨fun p hp => h.packets p (hsub.subset hp), hsub.length_le.trans h.count⟩
  | _ => exact ⟨h.packets, h.count⟩

theorem carried_back (s : PeerLink δ) (e : Event) :
    ((machine remoteA remoteB).next s e).Carried → s.Carried := by
  cases e with
  | atA action => exact fun h => ⟨Carried.of_act h.1, h.2⟩
  | atB action => exact fun h => ⟨h.1, Carried.of_act h.2⟩

theorem reachable_atA (h : (machine remoteA remoteB).Reachable s) {actions : List PeerAction}
    (hactions : ∀ action ∈ actions, action.Possible s.b) :
    (machine remoteA remoteB).Reachable { s with a := actions.foldl PeerSide.act s.a } := by
  induction actions generalizing s with
  | nil => exact h
  | cons action actions ih =>
    obtain ⟨haction, hrest⟩ := List.forall_mem_cons.mp hactions
    exact ih (h.step (.atA action) haction) hrest

theorem reachable_atB (h : (machine remoteA remoteB).Reachable s) {actions : List PeerAction}
    (hactions : ∀ action ∈ actions, action.Possible s.a) :
    (machine remoteA remoteB).Reachable { s with b := actions.foldl PeerSide.act s.b } := by
  induction actions generalizing s with
  | nil => exact h
  | cons action actions ih =>
    obtain ⟨haction, hrest⟩ := List.forall_mem_cons.mp hactions
    exact ih (h.step (.atB action) haction) hrest

/-- Peers over datagrams refine peers over packets, fragment by fragment. -/
theorem refines : Machine.Simulation (machine (δ := δ) remoteA remoteB)
    (fun s e => ((machine remoteA remoteB).next s e).Carried) Link.machine (fun _ _ => True)
    fun s t => t = s.packets ∧ Conveys s.a s.b ∧ Conveys s.b s.a where
  init := ⟨rfl, Conveys.init remoteA remoteB, Conveys.init remoteB remoteA⟩
  step := by
    intro s t e hst hcarried he
    obtain ⟨rfl, hab, hba⟩ := hst
    have hs := carried_back s e hcarried
    cases e with
    | atA action =>
      obtain ⟨hadmits, hrun⟩ := Link.run_atA (t := s.packets) (hba.possible hs.2 he)
      refine ⟨_, hadmits, ?_, hab.sender_act action, hba.receiver_act hs.2 he⟩
      rw [hrun]
      exact congrArg (fun a => (⟨a, s.b.side⟩ : Link)) (s.a.side_act action).symm
    | atB action =>
      obtain ⟨hadmits, hrun⟩ := Link.run_atB (t := s.packets) (hab.possible hs.1 he)
      refine ⟨_, hadmits, ?_, hab.receiver_act hs.1 he, hba.sender_act action⟩
      rw [hrun]
      exact congrArg (fun b => (⟨s.a.side, b⟩ : Link)) (s.b.side_act action).symm

theorem packets_reachable (h : (machine remoteA remoteB).Reachable s) (hs : s.Carried) :
    Link.machine.Reachable s.packets ∧ Conveys s.a s.b ∧ Conveys s.b s.a := by
  obtain ⟨t, ht, rfl, hab, hba⟩ := refines.reachable (h.under (fun s e _ => carried_back s e) hs)
  exact ⟨ht, hab, hba⟩

/-- `y` has handed on a prefix of the reliable messages that `x` queued, `x` has let go of
nothing else, and no unreliable message came out that was not put in. -/
def Delivers (x y : PeerSide δ) : Prop :=
  y.delivered <+: x.queued ∧
    (∀ m ∈ x.queued, m ∉ x.peer.mux.reliable.held → m ∈ y.delivered) ∧
    ∀ payload ∈ y.received, payload ∈ x.offered

theorem delivers_of_flow {x y : PeerSide δ} {lo hi : ℕ → ℕ} {base d : ℕ}
    (f : Flow x.side y.side lo hi base d) (h : Conveys x y) : Delivers x y := by
  have hdelivered : y.delivered = x.queued.take d := f.delivered
  have hheld : x.peer.mux.reliable.held = x.queued.drop base := f.held
  refine ⟨hdelivered ▸ List.take_prefix _ _, fun m hm hnot => ?_, h.received⟩
  rw [← List.take_append_drop base x.queued] at hm
  rcases List.mem_append.mp hm with hm | hm
  · exact hdelivered ▸ (List.take_sublist_take_left f.base_le).subset hm
  · exact absurd hm (hheld ▸ hnot)

/-- Whatever the network does with the single datagrams, each side hands on a prefix of
what the other queued, as long as both stay within the sequences and the ids. -/
theorem datagrams_deliver (h : (machine remoteA remoteB).Reachable s) (hs : s.Carried)
    (ha : s.a.queued.length ≤ maxMessages) (hb : s.b.queued.length ≤ maxMessages) :
    Delivers s.a s.b ∧ Delivers s.b s.a := by
  obtain ⟨hreach, hab, hba⟩ := packets_reachable h hs
  obtain ⟨_, _, _, _, fab⟩ := Link.flow hreach ⟨hs.1.count, ha⟩
  obtain ⟨_, _, _, _, fba⟩ := Link.flow (Link.reachable_swap hreach) ⟨hs.2.count, hb⟩
  exact ⟨delivers_of_flow fab hab, delivers_of_flow fba hba⟩

instance (y : PeerSide δ) : (action : PeerAction) → Decidable (action.Possible y)
  | .poll _ arrivals => inferInstanceAs (Decidable (∀ a ∈ arrivals, a.2 ∈ y.wire))
  | .queueReliable _ | .queueUnreliable _ | .update _ => isTrue trivial

instance (s : PeerLink δ) : (e : Event) → Decidable ((machine remoteA remoteB).Enabled s e)
  | .atA action => inferInstanceAs (Decidable (action.Possible s.b))
  | .atB action => inferInstanceAs (Decidable (action.Possible s.a))

def lossyRun : PeerLink ℚ :=
  (machine ⟨"b", 2⟩ ⟨"a", 1⟩).runFrom (init ⟨"b", 2⟩ ⟨"a", 1⟩)
    [.atA (.queueReliable [1]), .atA (.update 0), .atA (.queueReliable [2]),
      .atA (.queueUnreliable [9]), .atA (.update 40000),
      .atB (.poll 50000 (List.replicate 2 (VisitOrder.ascending,
        [2, 0, 0, 1, 2, 0, 0, 0, 0, 0, 0, 0, 3, 0, 1, 0, 0, 1, 0, 1, 1, 1, 0, 1, 0, 2,
          0, 0, 0, 1, 0, 9]))),
      .atB (.update 50000),
      .atA (.poll 60000 [(VisitOrder.ascending, [1, 0, 0, 1, 1, 0, 2, 0, 0, 0, 0, 0, 0, 0])])]

theorem datagrams_deliver_lossyRun :
    (Delivers lossyRun.a lossyRun.b ∧ Delivers lossyRun.b lossyRun.a) ∧
      lossyRun.b.delivered.map (·.payload) = [[1], [2]] ∧ lossyRun.b.received = [[9], [9]] ∧
      lossyRun.a.peer.mux.reliable.held = [] := by
  have hreach : (machine ⟨"b", 2⟩ ⟨"a", 1⟩).Reachable lossyRun :=
    Machine.Reachable.init.runFrom (by decide)
  have hcarried : lossyRun.Carried := by
    constructor <;> constructor <;> decide
  exact ⟨datagrams_deliver hreach hcarried (by decide) (by decide), by decide⟩

end PeerLink

end Netcode.Transport
