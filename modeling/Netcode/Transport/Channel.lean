import Mathlib.Data.Finset.Insert
import Mathlib.Data.List.Basic
import Mathlib.Logic.Function.Basic
import Netcode.Library.Bytes

/-!
# The reliable and the unreliable channel

A reliable message stays in `unacked` until a packet that carried it is
acknowledged, and every packet carries the whole unacked list. The receiver
remembers the id of every reliable message it has handed on. Message ids are
sixteen bits wide and wrap; neither side ever forgets an id or renumbers.
-/

namespace Netcode.Transport

open Netcode.Library

abbrev MessageId := UInt16

/-- The wire tag of a message. Only two values are named, but any byte can be
read off the wire, and `route` takes every byte other than `reliable` as
unreliable. -/
structure Channel where
  code : UInt8
deriving DecidableEq, Repr

def Channel.unreliable : Channel := ⟨0⟩
def Channel.reliable : Channel := ⟨1⟩

structure Message where
  channel : Channel := Channel.reliable
  id : MessageId := 0
  payload : Bytes := []
deriving DecidableEq, Repr

structure Pending where
  msg : Message
  sends : ℕ := 0

structure ReliableSender where
  nextId : MessageId := 0
  retransmits : ℕ := 0
  unacked : List Pending := []
  inFlight : UInt16 → Option (List MessageId) := fun _ => none

namespace ReliableSender

def queue (s : ReliableSender) (payload : Bytes) : ReliableSender :=
  { s with
    unacked := s.unacked ++ [⟨⟨Channel.reliable, s.nextId, payload⟩, 0⟩]
    nextId := s.nextId + 1 }

def pack (s : ReliableSender) (sequence : UInt16) : List Message × ReliableSender :=
  (s.unacked.map (·.msg),
    { s with
      retransmits := s.retransmits + s.unacked.countP (fun p => 0 < p.sends)
      unacked := s.unacked.map (fun p => { p with sends := p.sends + 1 })
      inFlight := Function.update s.inFlight sequence (some (s.unacked.map (·.msg.id))) })

def onAcked (s : ReliableSender) (sequence : UInt16) : ReliableSender :=
  match s.inFlight sequence with
  | none => s
  | some ids =>
    { s with
      unacked := s.unacked.filter (fun p => p.msg.id ∉ ids)
      inFlight := Function.update s.inFlight sequence none }

def empty (s : ReliableSender) : Bool := s.unacked.isEmpty

def held (s : ReliableSender) : List Message := s.unacked.map (·.msg)

end ReliableSender

structure ReliableReceiver where
  seen : Finset MessageId := ∅

def ReliableReceiver.receive (r : ReliableReceiver) : List Message → List Message × ReliableReceiver
  | [] => ([], r)
  | m :: incoming =>
    if m.id ∈ r.seen then r.receive incoming
    else
      let rest := ReliableReceiver.receive ⟨insert m.id r.seen⟩ incoming
      (m :: rest.1, rest.2)

structure UnreliableSender where
  nextId : MessageId := 0
  pending : List Message := []

namespace UnreliableSender

def queue (s : UnreliableSender) (payload : Bytes) : UnreliableSender :=
  { pending := s.pending ++ [⟨Channel.unreliable, s.nextId, payload⟩], nextId := s.nextId + 1 }

def pack (s : UnreliableSender) : List Message × UnreliableSender :=
  (s.pending, { s with pending := [] })

end UnreliableSender

structure ChannelMux where
  reliable : ReliableSender := {}
  unreliable : UnreliableSender := {}

namespace ChannelMux

def pack (m : ChannelMux) (sequence : UInt16) : List Message × ChannelMux :=
  let r := m.reliable.pack sequence
  let u := m.unreliable.pack
  (r.1 ++ u.1, ⟨r.2, u.2⟩)

def onAcked (m : ChannelMux) (sequence : UInt16) : ChannelMux :=
  { m with reliable := m.reliable.onAcked sequence }

end ChannelMux

structure Delivery where
  reliable : List Message := []
  unreliable : List Message := []
deriving DecidableEq, Repr

structure ChannelDemux where
  reliable : ReliableReceiver := {}

def ChannelDemux.route (d : ChannelDemux) (incoming : List Message) : Delivery × ChannelDemux :=
  let r := d.reliable.receive (incoming.filter (·.channel = Channel.reliable))
  (⟨r.1, incoming.filter (·.channel ≠ Channel.reliable)⟩, ⟨r.2⟩)

namespace ReliableSender

@[simp] theorem queue_held (s : ReliableSender) (payload : Bytes) :
    (s.queue payload).held = s.held ++ [⟨Channel.reliable, s.nextId, payload⟩] := by
  simp [held, queue]

@[simp] theorem pack_held (s : ReliableSender) (sequence : UInt16) :
    (s.pack sequence).2.held = s.held := by
  simp [held, pack]

theorem onAcked_held (s : ReliableSender) (sequence : UInt16) :
    (s.onAcked sequence).held =
      s.held.filter (fun m => m.id ∉ (s.inFlight sequence).getD []) := by
  rw [onAcked]
  cases h : s.inFlight sequence with
  | none => simp
  | some ids => simp [held, List.filter_map, Function.comp_def]

theorem onAcked_inFlight (s : ReliableSender) (sequence : UInt16) :
    (s.onAcked sequence).inFlight = Function.update s.inFlight sequence none := by
  rw [onAcked]
  cases h : s.inFlight sequence with
  | none => simp [← h]
  | some ids => rfl

@[simp] theorem onAcked_nextId (s : ReliableSender) (sequence : UInt16) :
    (s.onAcked sequence).nextId = s.nextId := by
  rw [onAcked]
  cases s.inFlight sequence <;> rfl

end ReliableSender

namespace ReliableReceiver

theorem receive_append (r : ReliableReceiver) (ms ns : List Message) :
    r.receive (ms ++ ns) =
      ((r.receive ms).1 ++ ((r.receive ms).2.receive ns).1, ((r.receive ms).2.receive ns).2) := by
  induction ms generalizing r with
  | nil => rfl
  | cons m ms ih =>
    simp only [List.cons_append, receive]
    split_ifs
    · exact ih r
    · simp only [ih, List.cons_append]

theorem receive_seen (r : ReliableReceiver) (ms : List Message) (i : MessageId) :
    i ∈ (r.receive ms).2.seen ↔ i ∈ r.seen ∨ ∃ m ∈ ms, m.id = i := by
  induction ms generalizing r with
  | nil => simp [receive]
  | cons m ms ih =>
    simp only [receive]
    split_ifs with hm
    · rw [ih r]
      constructor
      · intro h
        rcases h with h | ⟨n, hn, hi⟩
        · exact Or.inl h
        · exact Or.inr ⟨n, List.mem_cons_of_mem _ hn, hi⟩
      · intro h
        rcases h with h | ⟨n, hn, hi⟩
        · exact Or.inl h
        · rcases List.mem_cons.mp hn with hn | hn
          · exact Or.inl (hi ▸ hn ▸ hm)
          · exact Or.inr ⟨n, hn, hi⟩
    · simp only [ih, Finset.mem_insert, List.mem_cons, exists_eq_or_imp]
      tauto

theorem receive_fresh {r : ReliableReceiver} {ms : List Message} (hnd : (ms.map (·.id)).Nodup)
    (hfresh : ∀ m ∈ ms, m.id ∉ r.seen) : (r.receive ms).1 = ms := by
  induction ms generalizing r with
  | nil => rfl
  | cons m ms ih =>
    rw [List.map_cons, List.nodup_cons] at hnd
    have hrest : ∀ n ∈ ms, n.id ∉ insert m.id r.seen := by
      intro n hn hmem
      rcases Finset.mem_insert.mp hmem with h | h
      · exact hnd.1 (h ▸ List.mem_map_of_mem hn)
      · exact hfresh n (List.mem_cons_of_mem _ hn) h
    simp only [receive, if_neg (hfresh m List.mem_cons_self), ih (r := ⟨_⟩) hnd.2 hrest]

theorem receive_stale {r : ReliableReceiver} {ms : List Message}
    (hseen : ∀ m ∈ ms, m.id ∈ r.seen) : r.receive ms = ([], r) := by
  induction ms with
  | nil => rfl
  | cons m ms ih =>
    rw [receive, if_pos (hseen m List.mem_cons_self)]
    exact ih (fun n hn => hseen n (List.mem_cons_of_mem _ hn))

end ReliableReceiver

end Netcode.Transport
