import Netcode.Transport.Peer
import Netcode.Transport.Pipeline

/-!
# A peer does what its packet-level peer does

`Peer.packets` forgets the clocks, the counters and the reassembly table. A flush
sends the datagrams of the packet-level flush, and a poll delivers what the
packet-level poll delivers from the packets that come out of the table.
-/

namespace Netcode.Transport

open Netcode.Library

namespace Reassembler

def decoded (r : Reassembler) (arrivals : List Arrival) : List Packet :=
  ((r.feed (arrivals.map fun a => (a.1, a.2.take kRxBuffer))).1.filterMap deserialize).map
    fun x => ⟨x.1, x.2⟩

theorem decoded_cons (r : Reassembler) (a : Arrival) (arrivals : List Arrival) :
    r.decoded (a :: arrivals) =
      (((r.reassemble a.1 (a.2.take kRxBuffer)).1.bind deserialize).map fun x =>
        (⟨x.1, x.2⟩ : Packet)).toList ++
        (r.reassemble a.1 (a.2.take kRxBuffer)).2.decoded arrivals := by
  simp only [decoded, List.map_cons, Reassembler.feed, List.filterMap_append, List.map_append]
  congr 1
  cases (r.reassemble a.1 (a.2.take kRxBuffer)).1 with
  | none => rfl
  | some blob =>
    simp only [Option.toList_some, List.filterMap_cons, List.filterMap_nil, Option.bind_some]
    cases deserialize blob <;> rfl

end Reassembler

namespace Peer

variable {δ : Type*} [Scalar δ]

def packets (p : Peer δ) : PacketPeer := ⟨p.connection, p.mux, p.demux⟩

theorem flush_packets (p : Peer δ) (nowUs : Micros) :
    (p.flush nowUs).1 = p.packets.datagrams ∧ (p.flush nowUs).2.packets = p.packets.flush.2 :=
  ⟨rfl, rfl⟩

theorem foldl_scanStep_mux (c : Connection) (ack : UInt16) (nowUs : Micros) (is : List ℕ)
    (x : ChannelMux × RttEstimator δ) :
    (is.foldl (scanStep c ack nowUs) x).1 = is.foldl (PacketPeer.retireStep c ack) x.1 := by
  induction is generalizing x with
  | nil => rfl
  | cons i is ih =>
    have hstep : (scanStep c ack nowUs x i).1 = PacketPeer.retireStep c ack x.1 i := by
      simp only [scanStep, PacketPeer.retireStep]
      split_ifs <;> rfl
    rw [List.foldl_cons, List.foldl_cons, ih, hstep]

theorem accept_packets (p : Peer δ) (nowUs : Micros) (header : PacketHeader)
    (msgs : List Message) :
    (p.accept nowUs header).packets = p.packets.receive ⟨header, msgs⟩ := by
  have hmux := foldl_scanStep_mux (p.connection.onReceived header) header.ack nowUs (List.range 33)
    (p.mux, p.rtt)
  simp only [accept, packets, hmux]
  rfl

theorem foldl_receive_packets (nowUs : Micros) (arrivals : List Arrival)
    (x : Peer δ × List Message) :
    (arrivals.foldl (receive nowUs) x).1.packets =
        (x.1.reassembler.decoded arrivals).foldl PacketPeer.receive x.1.packets ∧
      (arrivals.foldl (receive nowUs) x).2 =
        x.2 ++ (x.1.reassembler.decoded arrivals).flatMap (·.messages) := by
  induction arrivals generalizing x with
  | nil => exact ⟨rfl, (List.append_nil _).symm⟩
  | cons a arrivals ih =>
    obtain ⟨hpackets, hmsgs⟩ := ih (receive nowUs x a)
    rw [List.foldl_cons, hpackets, hmsgs, Reassembler.decoded_cons]
    cases hd : (x.1.reassembler.reassemble a.1 (a.2.take kRxBuffer)).1.bind deserialize with
    | none =>
      simp only [receive, hd, Option.map_none, Option.toList_none, List.nil_append]
      exact ⟨rfl, trivial⟩
    | some d =>
      simp only [receive, hd, Option.map_some, Option.toList_some, List.singleton_append,
        List.foldl_cons, List.flatMap_cons, List.append_assoc]
      rw [accept_packets _ nowUs d.1 d.2]
      exact ⟨rfl, rfl⟩

/-- A poll refines the packet-level poll on the packets that come out of the table. -/
theorem poll_packets (p : Peer δ) (nowUs : Micros) (arrivals : List Arrival) :
    (p.poll nowUs arrivals).1 = (p.packets.poll (p.reassembler.decoded arrivals)).1 ∧
      (p.poll nowUs arrivals).2.packets =
        (p.packets.poll (p.reassembler.decoded arrivals)).2 := by
  obtain ⟨hpackets, hmsgs⟩ := foldl_receive_packets nowUs arrivals (p, [])
  simp only [poll, PacketPeer.poll]
  rw [hmsgs, ← hpackets]
  exact ⟨rfl, rfl⟩

end Peer

end Netcode.Transport
