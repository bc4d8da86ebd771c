import Netcode.Transport.Connection
import Netcode.Transport.Channel

/-!
# A peer at packet level

The send and receive path of a peer with whole packets in place of datagrams:
`flush` stamps a header and attaches the packed messages, and `receive` does
what the poll loop does with one decoded packet before routing. The scan
covers `ack` and the 32 sequences before it.
-/

namespace Netcode.Transport

open Netcode.Library

structure Packet where
  header : PacketHeader
  messages : List Message
deriving DecidableEq, Repr

structure PacketPeer where
  connection : Connection := {}
  mux : ChannelMux := {}
  demux : ChannelDemux := {}

namespace PacketPeer

def queueReliable (p : PacketPeer) (payload : Bytes) : PacketPeer :=
  { p with mux := { p.mux with reliable := p.mux.reliable.queue payload } }

def queueUnreliable (p : PacketPeer) (payload : Bytes) : PacketPeer :=
  { p with mux := { p.mux with unreliable := p.mux.unreliable.queue payload } }

def flush (p : PacketPeer) : Packet × PacketPeer :=
  let h := p.connection.nextHeader
  let m := p.mux.pack h.1.sequence
  (⟨h.1, m.1⟩, { p with connection := h.2, mux := m.2 })

def retireStep (c : Connection) (ack : UInt16) (m : ChannelMux) (i : ℕ) : ChannelMux :=
  if c.isAcked (ack - UInt16.ofNat i) then m.onAcked (ack - UInt16.ofNat i) else m

def retire (c : Connection) (ack : UInt16) (m : ChannelMux) : ChannelMux :=
  (List.range 33).foldl (retireStep c ack) m

def receive (p : PacketPeer) (packet : Packet) : PacketPeer :=
  let c := p.connection.onReceived packet.header
  { p with connection := c, mux := retire c packet.header.ack p.mux }

def poll (p : PacketPeer) (packets : List Packet) : Delivery × PacketPeer :=
  let p := packets.foldl receive p
  let r := p.demux.route (packets.flatMap (·.messages))
  (r.1, { p with demux := r.2 })

@[simp] theorem flush_held (p : PacketPeer) : p.flush.2.mux.reliable.held = p.mux.reliable.held :=
  p.mux.reliable.pack_held _

@[simp] theorem foldl_receive_demux (p : PacketPeer) (packets : List Packet) :
    (packets.foldl receive p).demux = p.demux := by
  induction packets generalizing p with
  | nil => rfl
  | cons packet packets ih => rw [List.foldl_cons, ih]; rfl

theorem foldl_receive_remoteSequence (p : PacketPeer) (packets : List Packet) :
    (packets.foldl receive p).connection.remoteSequence = p.connection.remoteSequence ∨
      ∃ q ∈ packets, (packets.foldl receive p).connection.remoteSequence = q.header.sequence := by
  induction packets generalizing p with
  | nil => exact Or.inl rfl
  | cons packet packets ih =>
    rw [List.foldl_cons]
    rcases ih (p.receive packet) with h | ⟨q, hq, h⟩
    · have hr : (p.receive packet).connection.remoteSequence =
          (p.connection.recordReceived packet.header.sequence).remoteSequence :=
        Connection.onReceived_remoteSequence _ _
      rw [h, hr]
      rcases p.connection.recordReceived_remoteSequence packet.header.sequence with h' | ⟨-, h'⟩
      · exact Or.inr ⟨packet, List.mem_cons_self, h'⟩
      · exact Or.inl h'
    · exact Or.inr ⟨q, List.mem_cons_of_mem _ hq, h⟩

section Scan

variable {c : Connection} {ack : UInt16} {m : ChannelMux} {a : Message}

/-- Retiring a window of sequences keeps every property of the mux that each
single retirement inside the window keeps. -/
theorem foldl_retireStep_induction {P : ChannelMux → Prop} {is : List ℕ} (h0 : P m)
    (hstep : ∀ m, ∀ i ∈ is, P m → P (retireStep c ack m i)) :
    P (is.foldl (retireStep c ack) m) := by
  induction is generalizing m with
  | nil => exact h0
  | cons i is ih =>
    rw [List.foldl_cons]
    exact ih (hstep m i List.mem_cons_self h0)
      fun m j hj => hstep m j (List.mem_cons_of_mem _ hj)

theorem retire_induction {P : ChannelMux → Prop} (h0 : P m)
    (hstep : ∀ m, ∀ i ≤ 32, P m → P (m.onAcked (ack - UInt16.ofNat i))) :
    P (retire c ack m) := by
  apply foldl_retireStep_induction h0
  intro m i hi hm
  have hlt := List.mem_range.mp hi
  rw [retireStep]
  split_ifs
  · exact hstep m i (by omega) hm
  · exact hm

theorem retireStep_held (c : Connection) (ack : UInt16) (m : ChannelMux) (i : ℕ) :
    (retireStep c ack m i).reliable.held =
      if c.isAcked (ack - UInt16.ofNat i) then m.reliable.held.filter (fun a =>
        a.id ∉ (m.reliable.inFlight (ack - UInt16.ofNat i)).getD []) else m.reliable.held := by
  rw [retireStep]
  split_ifs
  · exact m.reliable.onAcked_held _
  · rfl

theorem retireStep_inFlight (c : Connection) (ack : UInt16) (m : ChannelMux) (i : ℕ) :
    (retireStep c ack m i).reliable.inFlight =
      if c.isAcked (ack - UInt16.ofNat i) then
        Function.update m.reliable.inFlight (ack - UInt16.ofNat i) none
      else m.reliable.inFlight := by
  rw [retireStep]
  split_ifs
  · exact m.reliable.onAcked_inFlight _
  · rfl

theorem mem_held_foldl_iff {is : List ℕ} : a ∈ (is.foldl (retireStep c ack) m).reliable.held ↔
    a ∈ m.reliable.held ∧ ∀ i ∈ is, c.isAcked (ack - UInt16.ofNat i) = true →
      a.id ∉ (m.reliable.inFlight (ack - UInt16.ofNat i)).getD [] := by
  induction is generalizing m with
  | nil => simp
  | cons i is ih =>
    rw [List.foldl_cons, ih, retireStep_held, retireStep_inFlight, List.forall_mem_cons]
    split_ifs with hacked
    · simp only [List.mem_filter, decide_eq_true_eq, hacked, true_imp_iff, and_assoc]
      refine and_congr_right fun _ => and_congr_right fun hgone => ?_
      refine forall₂_congr fun j _ => imp_congr_right fun _ => ?_
      -- a sequence that comes up twice has no list the second time
      by_cases hseq : ack - UInt16.ofNat j = ack - UInt16.ofNat i
      · simp only [hseq, Function.update_self, Option.getD_none, hgone, List.not_mem_nil]
      · rw [Function.update_of_ne hseq]
    · simp only [hacked, Bool.false_eq_true, false_imp_iff, true_and]

theorem mem_held_retire_iff : a ∈ (retire c ack m).reliable.held ↔
    a ∈ m.reliable.held ∧ ∀ i ≤ 32, c.isAcked (ack - UInt16.ofNat i) = true →
      a.id ∉ (m.reliable.inFlight (ack - UInt16.ofNat i)).getD [] := by
  simp only [retire, mem_held_foldl_iff, List.mem_range, Nat.lt_succ_iff]

end Scan

end PacketPeer

end Netcode.Transport
