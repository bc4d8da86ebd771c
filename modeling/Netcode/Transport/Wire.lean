import Netcode.Library.Bytes
import Netcode.Transport.PacketPeer

/-!
# The wire format of a packet

A packet is its header, a sixteen-bit message count, and for each message a
channel byte, the id, a sixteen-bit length and the payload. The casts to these
widths are unchecked: a message `Fits` when its payload is not cut short.
-/

namespace Netcode.Transport

open Netcode.Library

def serializeMessage (m : Message) : Bytes :=
  m.channel.code :: (encodeLE 2 m.id.toNat ++ (encodeLE 2 m.payload.length ++
    m.payload.take (m.payload.length % 65536)))

def serialize (header : PacketHeader) (msgs : List Message) : Bytes :=
  encodeLE 2 header.sequence.toNat ++ (encodeLE 2 header.ack.toNat ++
    (encodeLE 4 header.ackBits.toNat ++ (encodeLE 2 msgs.length ++
      msgs.flatMap serializeMessage)))

def deserializeMessage : Bytes → Option (Message × Bytes)
  | [] => none
  | channel :: bs => do
    let (id, bs) ← takeLE 2 bs
    let (len, bs) ← takeLE 2 bs
    if bs.length < len then none
    else some (⟨⟨channel⟩, UInt16.ofNat id, bs.take len⟩, bs.drop len)

def deserializeMessages : ℕ → Bytes → Option (List Message)
  | 0, _ => some []
  | count + 1, bs => do
    let (m, bs) ← deserializeMessage bs
    let msgs ← deserializeMessages count bs
    return m :: msgs

def deserialize (buf : Bytes) : Option (PacketHeader × List Message) := do
  let (sequence, bs) ← takeLE 2 buf
  let (ack, bs) ← takeLE 2 bs
  let (ackBits, bs) ← takeLE 4 bs
  let (count, bs) ← takeLE 2 bs
  let msgs ← deserializeMessages count bs
  return (⟨UInt16.ofNat sequence, UInt16.ofNat ack, UInt32.ofNat ackBits⟩, msgs)

def Message.Fits (m : Message) : Prop := m.payload.length ≤ 65535

theorem deserializeMessage_serializeMessage {m : Message} (h : m.Fits) (rest : Bytes) :
    deserializeMessage (serializeMessage m ++ rest) = some (m, rest) := by
  have hlen : m.payload.length % 256 ^ 2 = m.payload.length :=
    Nat.mod_eq_of_lt (Nat.lt_succ_of_le h)
  have hid : m.id.toNat % 256 ^ 2 = m.id.toNat := Nat.mod_eq_of_lt m.id.toNat_lt
  have hpayload : m.payload.take (m.payload.length % 65536) = m.payload :=
    List.take_of_length_le (Nat.le_of_eq hlen.symm)
  have hshort : ¬ (m.payload ++ rest).length < m.payload.length := by
    simp only [List.length_append]
    omega
  simp only [serializeMessage, hpayload, List.cons_append, List.append_assoc, deserializeMessage,
    takeLE_encodeLE, hlen, hid, Option.bind_eq_bind, Option.bind_some, if_neg hshort,
    List.take_left, List.drop_left, UInt16.ofNat_toNat]

theorem deserializeMessages_flatMap {msgs : List Message} (h : ∀ m ∈ msgs, m.Fits)
    (rest : Bytes) :
    deserializeMessages msgs.length (msgs.flatMap serializeMessage ++ rest) = some msgs := by
  induction msgs with
  | nil => rfl
  | cons m msgs ih =>
    have hrest := ih fun n hn => h n (List.mem_cons_of_mem _ hn)
    simp only [List.length_cons, deserializeMessages, List.flatMap_cons, List.append_assoc,
      deserializeMessage_serializeMessage (h m List.mem_cons_self), Option.bind_eq_bind,
      Option.bind_some, hrest, Option.pure_def]

theorem deserialize_serialize_append {header : PacketHeader} {msgs : List Message}
    (h : ∀ m ∈ msgs, m.Fits) (hcount : msgs.length < 65536) (rest : Bytes) :
    deserialize (serialize header msgs ++ rest) = some (header, msgs) := by
  have hs : header.sequence.toNat % 256 ^ 2 = header.sequence.toNat :=
    Nat.mod_eq_of_lt header.sequence.toNat_lt
  have ha : header.ack.toNat % 256 ^ 2 = header.ack.toNat := Nat.mod_eq_of_lt header.ack.toNat_lt
  have hb : header.ackBits.toNat % 256 ^ 4 = header.ackBits.toNat :=
    Nat.mod_eq_of_lt header.ackBits.toNat_lt
  have hc : msgs.length % 256 ^ 2 = msgs.length := Nat.mod_eq_of_lt hcount
  simp only [deserialize, serialize, List.append_assoc, takeLE_encodeLE, hs, ha, hb, hc,
    Option.bind_eq_bind, Option.bind_some, deserializeMessages_flatMap h rest, Option.pure_def,
    UInt16.ofNat_toNat, UInt32.ofNat_toNat]

theorem deserialize_serialize {header : PacketHeader} {msgs : List Message}
    (h : ∀ m ∈ msgs, m.Fits) (hcount : msgs.length < 65536) :
    deserialize (serialize header msgs) = some (header, msgs) := by
  rw [← List.append_nil (serialize header msgs)]
  exact deserialize_serialize_append h hcount []

/-- The size of a packet none of whose fields is cut short. -/
def wireSize (msgs : List Message) : ℕ := 10 + (msgs.map fun m => 5 + m.payload.length).sum

theorem length_serialize {header : PacketHeader} {msgs : List Message} (h : ∀ m ∈ msgs, m.Fits) :
    (serialize header msgs).length = wireSize msgs := by
  have hmsgs : (msgs.flatMap serializeMessage).length =
      (msgs.map fun m => 5 + m.payload.length).sum := by
    rw [List.length_flatMap]
    congr 1
    apply List.map_congr_left
    intro m hm
    have hfits : m.payload.length ≤ 65535 := h m hm
    simp only [serializeMessage, List.length_cons, List.length_append, length_encodeLE,
      List.length_take]
    omega
  simp only [serialize, List.length_append, length_encodeLE, hmsgs, wireSize]
  omega

theorem length_le_wireSize (msgs : List Message) : 10 + 5 * msgs.length ≤ wireSize msgs := by
  rw [wireSize]
  induction msgs with
  | nil => simp
  | cons m msgs ih =>
    simp only [List.length_cons, List.map_cons, List.sum_cons]
    omega

theorem of_deserializeMessage {bs rest : Bytes} {m : Message}
    (h : deserializeMessage bs = some (m, rest)) :
    ∃ channel id len tail bs₁ bs₂, bs = channel :: tail ∧ takeLE 2 tail = some (id, bs₁) ∧
      takeLE 2 bs₁ = some (len, bs₂) ∧ len ≤ bs₂.length ∧
      m = ⟨⟨channel⟩, UInt16.ofNat id, bs₂.take len⟩ ∧ rest = bs₂.drop len := by
  cases bs with
  | nil => exact absurd h (by simp [deserializeMessage])
  | cons channel bs =>
    simp only [deserializeMessage, Option.bind_eq_bind, Option.bind_eq_some_iff, Prod.exists] at h
    obtain ⟨id, bs₁, hid, len, bs₂, hlen, hpayload⟩ := h
    split_ifs at hpayload with hshort
    obtain ⟨hm, hrest⟩ := Prod.mk.inj (Option.some.inj hpayload)
    exact ⟨channel, id, len, bs, bs₁, bs₂, rfl, hid, hlen, Nat.le_of_not_lt hshort, hm.symm,
      hrest.symm⟩

theorem of_deserializeMessages {count : ℕ} {bs : Bytes} {msgs : List Message}
    (h : deserializeMessages (count + 1) bs = some msgs) :
    ∃ m rest ms, deserializeMessage bs = some (m, rest) ∧
      deserializeMessages count rest = some ms ∧ msgs = m :: ms := by
  simp only [deserializeMessages, Option.bind_eq_bind, Option.bind_eq_some_iff, Prod.exists,
    Option.pure_def, Option.some.injEq] at h
  obtain ⟨m, rest, hm, ms, hms, heq⟩ := h
  exact ⟨m, rest, ms, hm, hms, heq.symm⟩

theorem length_of_deserializeMessage {bs rest : Bytes} {m : Message}
    (h : deserializeMessage bs = some (m, rest)) :
    bs.length = 5 + m.payload.length + rest.length := by
  obtain ⟨channel, id, len, tail, bs₁, bs₂, rfl, hid, hlen, hle, rfl, rfl⟩ :=
    of_deserializeMessage h
  have h₁ := length_of_takeLE hid
  have h₂ := length_of_takeLE hlen
  rw [List.length_cons, List.length_take, List.length_drop]
  omega

theorem length_of_deserializeMessages {count : ℕ} {bs : Bytes} {msgs : List Message}
    (h : deserializeMessages count bs = some msgs) :
    (msgs.map fun m => 5 + m.payload.length).sum ≤ bs.length := by
  induction count generalizing bs msgs with
  | zero =>
    obtain rfl : msgs = [] := (Option.some.inj h).symm
    exact Nat.zero_le _
  | succ count ih =>
    obtain ⟨m, rest, ms, hm, hms, rfl⟩ := of_deserializeMessages h
    have hlen := length_of_deserializeMessage hm
    have hrest := ih hms
    simp only [List.map_cons, List.sum_cons]
    omega

theorem wireSize_le_of_deserialize {buf : Bytes} {header : PacketHeader} {msgs : List Message}
    (h : deserialize buf = some (header, msgs)) : wireSize msgs ≤ buf.length := by
  simp only [deserialize, Option.bind_eq_bind, Option.bind_eq_some_iff, Prod.exists,
    Option.pure_def, Option.some.injEq, Prod.mk.injEq] at h
  obtain ⟨sequence, bs₁, h₁, ack, bs₂, h₂, ackBits, bs₃, h₃, count, bs₄, h₄, ms, h₅, -, rfl⟩ := h
  have hlen₁ := length_of_takeLE h₁
  have hlen₂ := length_of_takeLE h₂
  have hlen₃ := length_of_takeLE h₃
  have hlen₄ := length_of_takeLE h₄
  have hmsgs := length_of_deserializeMessages h₅
  rw [wireSize]
  omega

end Netcode.Transport
