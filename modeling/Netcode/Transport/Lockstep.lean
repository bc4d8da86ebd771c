import Netcode.Transport.Channel

/-!
# The reliable channel over a perfect link, one message at a time

Each message is queued, packed, received and acknowledged before the next one
is queued. The sender's ids wrap after 65536 messages while the receiver never
forgets an id, so from then on every message is taken for a duplicate.
-/

namespace Netcode.Transport

open Netcode.Library

def exchange (s : ReliableSender) (r : ReliableReceiver) (sequence : UInt16) (payload : Bytes) :
    List Message × ReliableSender × ReliableReceiver :=
  let packed := (s.queue payload).pack sequence
  let received := r.receive packed.1
  (received.1, packed.2.onAcked sequence, received.2)

def exchangeAll (s : ReliableSender) (r : ReliableReceiver) : List (UInt16 × Bytes) → List Message
  | [] => []
  | x :: xs =>
    let e := exchange s r x.1 x.2
    e.1 ++ exchangeAll e.2.1 e.2.2 xs

def messageIds : ℕ := 65536

structure Idle (s : ReliableSender) (r : ReliableReceiver) (k : ℕ) : Prop where
  unacked : s.unacked = []
  nextId : s.nextId = UInt16.ofNat k
  seen : ∀ i, i ∈ r.seen ↔ ∃ j < k, i = UInt16.ofNat j

namespace Idle

variable {s : ReliableSender} {r : ReliableReceiver} {k : ℕ}

theorem init : Idle {} {} 0 := by
  constructor <;> simp

theorem ofNat_mem_seen (h : Idle s r k) : UInt16.ofNat k ∈ r.seen ↔ messageIds ≤ k := by
  rw [h.seen, messageIds]
  constructor
  · intro hj
    obtain ⟨j, hj, hij⟩ := hj
    have hv := congrArg UInt16.toNat hij
    simp only [UInt16.toNat_ofNat'] at hv
    omega
  · intro hk
    refine ⟨k - 65536, by omega, ?_⟩
    apply UInt16.toNat_inj.mp
    simp only [UInt16.toNat_ofNat']
    omega

theorem packed (h : Idle s r k) (sequence : UInt16) (payload : Bytes) :
    ((s.queue payload).pack sequence).1 = [⟨Channel.reliable, UInt16.ofNat k, payload⟩] := by
  simp [ReliableSender.queue, ReliableSender.pack, h.unacked, h.nextId]

theorem exchange (h : Idle s r k) (sequence : UInt16) (payload : Bytes) :
    Idle (exchange s r sequence payload).2.1 (exchange s r sequence payload).2.2 (k + 1) := by
  constructor
  · simp [Transport.exchange, ReliableSender.queue, ReliableSender.pack, ReliableSender.onAcked,
      h.unacked]
  · have hn : (Transport.exchange s r sequence payload).2.1.nextId = s.nextId + 1 :=
      ReliableSender.onAcked_nextId _ _
    rw [hn, h.nextId, UInt16.ofNat_add]
    rfl
  · intro i
    have hr : (Transport.exchange s r sequence payload).2.2 =
        (r.receive ((s.queue payload).pack sequence).1).2 := rfl
    rw [hr, h.packed, ReliableReceiver.receive_seen, h.seen]
    simp only [List.mem_singleton, exists_eq_left, Nat.lt_succ_iff_lt_or_eq, or_and_right,
      exists_or]
    exact or_congr_right eq_comm

theorem exchange_delivered (h : Idle s r k) (sequence : UInt16) (payload : Bytes) :
    (Transport.exchange s r sequence payload).1.map (·.payload) =
      if k < messageIds then [payload] else [] := by
  have hr : (Transport.exchange s r sequence payload).1 =
      (r.receive ((s.queue payload).pack sequence).1).1 := rfl
  rw [hr, h.packed]
  simp only [ReliableReceiver.receive, h.ofNat_mem_seen]
  by_cases hk : k < messageIds
  · simp [hk, Nat.not_le.mpr hk]
  · simp [hk, Nat.not_lt.mp hk]

theorem exchangeAll_delivered (h : Idle s r k) (xs : List (UInt16 × Bytes)) :
    (exchangeAll s r xs).map (·.payload) = (xs.take (messageIds - k)).map (·.2) := by
  induction xs generalizing s r k with
  | nil => simp [exchangeAll]
  | cons x xs ih =>
    have hrest := ih (h.exchange x.1 x.2)
    simp only [exchangeAll, List.map_append, h.exchange_delivered, hrest]
    by_cases hk : k < messageIds
    · obtain ⟨n, hn⟩ : ∃ n, messageIds - k = n + 1 := ⟨messageIds - k - 1, by omega⟩
      have hn' : messageIds - (k + 1) = n := by omega
      simp [hk, hn, hn']
    · have h0 : messageIds - k = 0 := by omega
      have h1 : messageIds - (k + 1) = 0 := by omega
      simp [hk, h0, h1]

end Idle

/-- Every message comes out exactly once and in order as long as the channel
has carried at most 65536 of them, and never beyond that. -/
theorem exchangeAll_complete_iff (xs : List (UInt16 × Bytes)) :
    (exchangeAll {} {} xs).map (·.payload) = xs.map (·.2) ↔ xs.length ≤ messageIds := by
  rw [Idle.init.exchangeAll_delivered, Nat.sub_zero]
  constructor
  · intro h
    have hlen := congrArg List.length h
    simp only [List.length_map, List.length_take] at hlen
    omega
  · intro h
    rw [List.take_of_length_le h]

/-- The 65537th message is suppressed although it was never delivered. -/
theorem exchangeAll_loses_message :
    ¬ ∀ xs : List (UInt16 × Bytes), (exchangeAll {} {} xs).map (·.payload) = xs.map (·.2) := by
  intro h
  have hx := h (List.replicate 65537 (1, [42]))
  rw [Idle.init.exchangeAll_delivered] at hx
  have hlen := congrArg List.length hx
  simp only [List.length_map, List.length_take, List.length_replicate, messageIds] at hlen
  omega

end Netcode.Transport
