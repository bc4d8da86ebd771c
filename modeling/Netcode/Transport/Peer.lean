import Netcode.Transport.Fragment
import Netcode.Transport.PacketPeer
import Netcode.Transport.Timing
import Netcode.Transport.Wire

/-!
# A peer on a socket

The whole of a peer: `update` flushes a packet when the send interval has
elapsed and returns the datagrams it sends, `poll` drains the datagrams waiting
on its socket. What a flush and a poll do to the connection and the channels is
what a `PacketPeer` does with whole packets, and the last section says so.
-/

namespace Netcode.Transport

open Netcode.Library

structure Endpoint where
  ip : String
  port : UInt16
deriving Repr

/-- The size of the buffer a datagram is received into; what is longer is cut. -/
abbrev kRxBuffer : ℕ := 8192

structure Peer (δ : Type*) [Scalar δ] where
  remote : Endpoint
  connection : Connection := {}
  mux : ChannelMux := {}
  demux : ChannelDemux := {}
  reassembler : Reassembler := {}
  rtt : RttEstimator δ := {}
  governor : RateGovernor δ := {}
  lastFlushUs : Micros := 0
  flushedOnce : Bool := false
  bytesSent : UInt64 := 0
  packetsSent : UInt64 := 0
  fragmentsSent : UInt64 := 0

/-- A datagram on arrival, with the order in which an eviction that it causes
would visit the table. -/
abbrev Arrival := VisitOrder × Bytes

namespace Peer

variable {δ : Type*} [Scalar δ]

def queueReliable (p : Peer δ) (payload : Bytes) : Peer δ :=
  { p with mux := { p.mux with reliable := p.mux.reliable.queue payload } }

def queueUnreliable (p : Peer δ) (payload : Bytes) : Peer δ :=
  { p with mux := { p.mux with unreliable := p.mux.unreliable.queue payload } }

def flush (p : Peer δ) (nowUs : Micros) : List Bytes × Peer δ :=
  let h := p.connection.nextHeader
  let m := p.mux.pack h.1.sequence
  let blob := serialize h.1 m.1
  let rtt := p.rtt.onSent h.1.sequence nowUs
  let datagrams := fragment h.1.sequence blob
  (datagrams, { p with
    connection := h.2
    mux := m.2
    rtt := rtt
    bytesSent := datagrams.foldl (fun n d => n + UInt64.ofNat d.length) p.bytesSent
    fragmentsSent := datagrams.foldl (fun n _ => n + 1) p.fragmentsSent
    packetsSent := p.packetsSent + 1
    flushedOnce := true
    lastFlushUs := nowUs
    governor := p.governor.update rtt.smoothedUs nowUs })

def update (p : Peer δ) (nowUs : Micros) : List Bytes × Peer δ :=
  if p.flushedOnce ∧ nowUs - p.lastFlushUs < p.governor.sendIntervalUs then ([], p)
  else p.flush nowUs

def scanStep (c : Connection) (ack : UInt16) (nowUs : Micros) (x : ChannelMux × RttEstimator δ)
    (i : ℕ) : ChannelMux × RttEstimator δ :=
  let seq := ack - UInt16.ofNat i
  if c.isAcked seq then (x.1.onAcked seq, (x.2.onAcked seq nowUs).2) else x

def accept (p : Peer δ) (nowUs : Micros) (header : PacketHeader) : Peer δ :=
  let c := p.connection.onReceived header
  let x := (List.range 33).foldl (scanStep c header.ack nowUs) (p.mux, p.rtt)
  { p with connection := c, mux := x.1, rtt := x.2 }

def receive (nowUs : Micros) (x : Peer δ × List Message) (a : Arrival) : Peer δ × List Message :=
  let r := x.1.reassembler.reassemble a.1 (a.2.take kRxBuffer)
  let p := { x.1 with reassembler := r.2 }
  match r.1.bind deserialize with
  | none => (p, x.2)
  | some (header, msgs) => (p.accept nowUs header, x.2 ++ msgs)

def poll (p : Peer δ) (nowUs : Micros) (arrivals : List Arrival) : Delivery × Peer δ :=
  let x := arrivals.foldl (receive nowUs) (p, [])
  let r := x.1.demux.route x.2
  (r.1, { x.1 with demux := r.2 })

@[simp] theorem update_remote (p : Peer δ) (nowUs : Micros) :
    (p.update nowUs).2.remote = p.remote := by
  rw [update]
  split_ifs <;> rfl

@[simp] theorem receive_remote (nowUs : Micros) (x : Peer δ × List Message) (a : Arrival) :
    (receive nowUs x a).1.remote = x.1.remote := by
  rw [receive]
  split <;> rfl

@[simp] theorem poll_remote (p : Peer δ) (nowUs : Micros) (arrivals : List Arrival) :
    (p.poll nowUs arrivals).2.remote = p.remote := by
  have hfold : ∀ x : Peer δ × List Message,
      (arrivals.foldl (receive nowUs) x).1.remote = x.1.remote := by
    induction arrivals with
    | nil => exact fun x => rfl
    | cons a arrivals ih => exact fun x => (ih _).trans (receive_remote nowUs x a)
  exact hfold (p, [])

structure Untouched (p q : Peer δ) : Prop where
  governor : q.governor = p.governor
  lastFlushUs : q.lastFlushUs = p.lastFlushUs
  flushedOnce : q.flushedOnce = p.flushedOnce
  bytesSent : q.bytesSent = p.bytesSent
  packetsSent : q.packetsSent = p.packetsSent
  fragmentsSent : q.fragmentsSent = p.fragmentsSent

theorem Untouched.refl (p : Peer δ) : p.Untouched p := ⟨rfl, rfl, rfl, rfl, rfl, rfl⟩

theorem Untouched.trans {p q r : Peer δ} (h : p.Untouched q) (h' : q.Untouched r) :
    p.Untouched r :=
  ⟨h'.governor.trans h.governor, h'.lastFlushUs.trans h.lastFlushUs,
    h'.flushedOnce.trans h.flushedOnce, h'.bytesSent.trans h.bytesSent,
    h'.packetsSent.trans h.packetsSent, h'.fragmentsSent.trans h.fragmentsSent⟩

theorem untouched_receive (nowUs : Micros) (x : Peer δ × List Message) (a : Arrival) :
    x.1.Untouched (receive nowUs x a).1 := by
  rw [receive]
  split <;> exact ⟨rfl, rfl, rfl, rfl, rfl, rfl⟩

theorem untouched_poll (p : Peer δ) (nowUs : Micros) (arrivals : List Arrival) :
    p.Untouched (p.poll nowUs arrivals).2 := by
  have hfold : ∀ x : Peer δ × List Message,
      x.1.Untouched (arrivals.foldl (receive nowUs) x).1 := by
    induction arrivals with
    | nil => exact fun x => .refl x.1
    | cons a arrivals ih => exact fun x => (untouched_receive nowUs x a).trans (ih _)
  have hall := hfold (p, [])
  exact ⟨hall.governor, hall.lastFlushUs, hall.flushedOnce, hall.bytesSent, hall.packetsSent,
    hall.fragmentsSent⟩

theorem untouched_queueUnreliable (p : Peer δ) (payloads : List Bytes) :
    p.Untouched (payloads.foldl queueUnreliable p) := by
  induction payloads generalizing p with
  | nil => exact .refl p
  | cons payload payloads ih =>
    exact (⟨rfl, rfl, rfl, rfl, rfl, rfl⟩ : p.Untouched (p.queueUnreliable payload)).trans (ih _)

theorem poll_nil (p : Peer δ) (nowUs : Micros) : p.poll nowUs [] = ({}, p) := rfl

theorem poll_cut (p : Peer δ) (nowUs : Micros) (arrivals : List Arrival) :
    p.poll nowUs (arrivals.map fun a => (a.1, a.2.take kRxBuffer)) = p.poll nowUs arrivals := by
  have hcut : ∀ (x : Peer δ × List Message) (a : Arrival),
      receive nowUs x (a.1, a.2.take kRxBuffer) = receive nowUs x a := by
    intro x a
    simp only [receive, List.take_take, min_self]
  simp only [poll, List.foldl_map, hcut]

end Peer

end Netcode.Transport
