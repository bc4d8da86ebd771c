import Netcode.Transport.Wire

/-!
# Which buffers are packets

`scan` is the decoder with the offset and the copies of the source: a copy from
outside the buffer has no value. The bound checks rule that out, and what `scan`
finds is what `deserialize` finds. A buffer is accepted if it begins with a header,
a count and as many complete frames, and these bytes are what serializing the
decoded packet gives back.
-/

namespace Netcode.Transport

open Netcode.Library

/-- `memcpy` out of the buffer. -/
def copy (buf : Bytes) (off n : ℕ) : Option Bytes :=
  if off + n ≤ buf.length then some ((buf.drop off).take n) else none

/-- Outside is a copy from outside the buffer, inside is what the source returns. -/
def scanMessages (buf : Bytes) : ℕ → ℕ → List Message → Option (Option (List Message × ℕ))
  | 0, off, msgs => some (some (msgs, off))
  | count + 1, off, msgs =>
    if buf.length < off + 1 + 2 + 2 then some none
    else do
      let channel ← copy buf off 1
      let id ← copy buf (off + 1) 2
      let len ← copy buf (off + 1 + 2) 2
      let off := off + 1 + 2 + 2
      if buf.length < off + decodeLE len then some none
      else do
        let payload ← copy buf off (decodeLE len)
        let m : Message := ⟨⟨UInt8.ofNat (decodeLE channel)⟩, UInt16.ofNat (decodeLE id), payload⟩
        scanMessages buf count (off + decodeLE len) (msgs ++ [m])

def scan (buf : Bytes) : Option (Option ((PacketHeader × List Message) × ℕ)) :=
  if buf.length < 8 + 2 then some none
  else do
    let header ← copy buf 0 8
    let count ← copy buf 8 2
    let found ← scanMessages buf (decodeLE count) (8 + 2) []
    return found.map fun x => ((⟨UInt16.ofNat (decodeLE (header.take 2)),
      UInt16.ofNat (decodeLE ((header.drop 2).take 2)),
      UInt32.ofNat (decodeLE (header.drop 4))⟩, x.1), x.2)

theorem deserializeMessage_eq {bs rest : Bytes} {m : Message}
    (h : deserializeMessage bs = some (m, rest)) : bs = serializeMessage m ++ rest ∧ m.Fits := by
  obtain ⟨channel, id, len, tail, bs₁, bs₂, rfl, hid, hlen, hle, rfl, rfl⟩ :=
    of_deserializeMessage h
  obtain ⟨rfl, hidLt⟩ := eq_of_takeLE hid
  obtain ⟨rfl, hlenLt⟩ := eq_of_takeLE hlen
  have htake : (bs₂.take len).length = len := List.length_take_of_le hle
  have hid' : (UInt16.ofNat id).toNat = id := by
    rw [UInt16.toNat_ofNat']
    exact Nat.mod_eq_of_lt hidLt
  have hmod : len % 65536 = len := Nat.mod_eq_of_lt hlenLt
  refine ⟨?_, ?_⟩
  · simp only [serializeMessage, htake, hid', hmod, List.take_take, min_self, List.cons_append,
      List.append_assoc, List.take_append_drop]
  · rw [Message.Fits, htake]
    exact Nat.le_of_lt_succ hlenLt

theorem deserializeMessages_eq {count : ℕ} {bs : Bytes} {msgs : List Message}
    (h : deserializeMessages count bs = some msgs) : msgs.length = count ∧
      (∀ m ∈ msgs, m.Fits) ∧ ∃ tail, bs = msgs.flatMap serializeMessage ++ tail := by
  induction count generalizing bs msgs with
  | zero =>
    obtain rfl : msgs = [] := (Option.some.inj h).symm
    exact ⟨rfl, fun m hm => absurd hm List.not_mem_nil, bs, rfl⟩
  | succ count ih =>
    obtain ⟨m, rest, ms, hm, hms, rfl⟩ := of_deserializeMessages h
    obtain ⟨rfl, hfits⟩ := deserializeMessage_eq hm
    obtain ⟨hlen, hall, tail, rfl⟩ := ih hms
    refine ⟨congrArg (· + 1) hlen, List.forall_mem_cons.mpr ⟨hfits, hall⟩, tail, ?_⟩
    rw [List.flatMap_cons, List.append_assoc]

theorem deserialize_eq_some_iff {buf : Bytes} {header : PacketHeader} {msgs : List Message} :
    deserialize buf = some (header, msgs) ↔ msgs.length < 65536 ∧ (∀ m ∈ msgs, m.Fits) ∧
      ∃ tail, buf = serialize header msgs ++ tail := by
  constructor
  · intro h
    simp only [deserialize, Option.bind_eq_bind, Option.bind_eq_some_iff, Prod.exists,
      Option.pure_def, Option.some.injEq, Prod.mk.injEq] at h
    obtain ⟨sequence, bs₁, h₁, ack, bs₂, h₂, ackBits, bs₃, h₃, count, bs₄, h₄, ms, h₅,
      rfl, rfl⟩ := h
    obtain ⟨rfl, hsequence⟩ := eq_of_takeLE h₁
    obtain ⟨rfl, hack⟩ := eq_of_takeLE h₂
    obtain ⟨rfl, hackBits⟩ := eq_of_takeLE h₃
    obtain ⟨rfl, hcount⟩ := eq_of_takeLE h₄
    obtain ⟨hlen, hfits, tail, rfl⟩ := deserializeMessages_eq h₅
    have hs : (UInt16.ofNat sequence).toNat = sequence :=
      UInt16.toNat_ofNat'.trans (Nat.mod_eq_of_lt hsequence)
    have ha : (UInt16.ofNat ack).toNat = ack := UInt16.toNat_ofNat'.trans (Nat.mod_eq_of_lt hack)
    have hb : (UInt32.ofNat ackBits).toNat = ackBits :=
      UInt32.toNat_ofNat'.trans (Nat.mod_eq_of_lt hackBits)
    refine ⟨hlen ▸ hcount, hfits, tail, ?_⟩
    simp only [serialize, hs, ha, hb, hlen, List.append_assoc]
  · intro h
    obtain ⟨hcount, hfits, tail, rfl⟩ := h
    exact deserialize_serialize_append hfits hcount tail

theorem takeLE_drop {buf : Bytes} {off w : ℕ} (h : off + w ≤ buf.length) :
    takeLE w (buf.drop off) = some (decodeLE ((buf.drop off).take w), buf.drop (off + w)) := by
  rw [takeLE, if_neg (by rw [List.length_drop]; omega), List.drop_drop]

theorem deserializeMessage_drop {buf : Bytes} {off : ℕ} (h : off + 1 + 2 + 2 ≤ buf.length) :
    deserializeMessage (buf.drop off) =
      if buf.length < off + 1 + 2 + 2 + decodeLE ((buf.drop (off + 1 + 2)).take 2) then none
      else some (⟨⟨UInt8.ofNat (decodeLE ((buf.drop off).take 1))⟩,
          UInt16.ofNat (decodeLE ((buf.drop (off + 1)).take 2)),
          (buf.drop (off + 1 + 2 + 2)).take (decodeLE ((buf.drop (off + 1 + 2)).take 2))⟩,
        buf.drop (off + 1 + 2 + 2 + decodeLE ((buf.drop (off + 1 + 2)).take 2))) := by
  have hcons : buf.drop off = buf[off] :: buf.drop (off + 1) := List.drop_eq_getElem_cons (by omega)
  have hchannel : UInt8.ofNat (decodeLE ((buf.drop off).take 1)) = buf[off] := by
    rw [hcons, List.take_succ_cons, List.take_zero, decodeLE, decodeLE, Nat.mul_zero, Nat.add_zero,
      UInt8.ofNat_toNat]
  have hpayload : ∀ len, (buf.drop (off + 1 + 2 + 2)).length < len ↔
      buf.length < off + 1 + 2 + 2 + len := by
    intro len
    rw [List.length_drop]
    omega
  rw [hchannel, hcons, deserializeMessage]
  have hid : off + 1 + 2 ≤ buf.length := by omega
  simp only [takeLE_drop hid, takeLE_drop h, Option.bind_eq_bind, Option.bind_some, hpayload,
    List.drop_drop]

theorem scanMessages_eq {buf : Bytes} (count : ℕ) {off : ℕ} (hoff : off ≤ buf.length)
    (msgs : List Message) : scanMessages buf count off msgs =
      some ((deserializeMessages count (buf.drop off)).map fun ms =>
        (msgs ++ ms, off + (ms.flatMap serializeMessage).length)) := by
  induction count generalizing off msgs with
  | zero => simp [scanMessages, deserializeMessages]
  | succ count ih =>
    rw [scanMessages, deserializeMessages]
    by_cases hshort : buf.length < off + 1 + 2 + 2
    · have hnone : deserializeMessage (buf.drop off) = none := by
        apply Option.eq_none_iff_forall_ne_some.mpr
        intro x hx
        have hlen := length_of_deserializeMessage hx
        rw [List.length_drop] at hlen
        omega
      rw [if_pos hshort, hnone]
      rfl
    · have hmessage := deserializeMessage_drop (Nat.le_of_not_lt hshort)
      have hchannel : copy buf off 1 = _ := if_pos (by omega)
      have hid : copy buf (off + 1) 2 = _ := if_pos (by omega)
      have hlen : copy buf (off + 1 + 2) 2 = _ := if_pos (by omega)
      simp only [if_neg hshort, hchannel, hid, hlen, Option.bind_eq_bind, Option.bind_some]
      generalize decodeLE ((buf.drop (off + 1 + 2)).take 2) = len at hmessage ⊢
      by_cases hlong : buf.length < off + 1 + 2 + 2 + len
      · rw [if_pos hlong] at hmessage ⊢
        rw [hmessage]
        rfl
      · rw [if_neg hlong] at hmessage ⊢
        have hpayload : copy buf (off + 1 + 2 + 2) len = _ := if_pos (by omega)
        have hframe := congrArg List.length (deserializeMessage_eq hmessage).1
        rw [List.length_append, List.length_drop, List.length_drop] at hframe
        rw [hpayload, Option.bind_some, ih (by omega), hmessage, Option.bind_some]
        cases deserializeMessages count (buf.drop (off + 1 + 2 + 2 + len)) with
        | none => rfl
        | some ms =>
          simp only [Option.map_some, Option.bind_some, Option.pure_def, List.append_assoc,
            List.singleton_append, List.flatMap_cons, List.length_append]
          congr 3
          omega

/-- The scan stays inside the buffer and ends behind what was decoded. -/
theorem scan_eq (buf : Bytes) : scan buf = some ((deserialize buf).map fun x =>
    (x, (serialize x.1 x.2).length)) := by
  rw [scan]
  by_cases hshort : buf.length < 8 + 2
  · have hnone : deserialize buf = none := by
      apply Option.eq_none_iff_forall_ne_some.mpr
      intro x hx
      obtain ⟨-, -, tail, rfl⟩ := deserialize_eq_some_iff.mp hx
      simp only [serialize, List.length_append, length_encodeLE] at hshort
      omega
    rw [if_pos hshort, hnone]
    rfl
  · have hheader : copy buf 0 8 = _ := if_pos (by omega)
    have hcount : copy buf 8 2 = _ := if_pos (by omega)
    have hstart : 0 + 2 ≤ buf.length := by omega
    have hsequence : takeLE 2 buf = _ := takeLE_drop hstart
    have hack : 0 + 2 + 2 ≤ buf.length := by omega
    have hackBits : 0 + 2 + 2 + 4 ≤ buf.length := by omega
    have hcount' : 0 + 2 + 2 + 4 + 2 ≤ buf.length := by omega
    rw [if_neg hshort, hheader, hcount, deserialize, hsequence]
    simp only [Option.bind_eq_bind, Option.bind_some, takeLE_drop hack, takeLE_drop hackBits,
      takeLE_drop hcount', scanMessages_eq _ (Nat.le_of_not_lt hshort), Option.pure_def]
    cases deserializeMessages (decodeLE ((buf.drop 8).take 2)) (buf.drop (8 + 2)) with
    | none => rfl
    | some msgs =>
      simp only [Option.map_some, Option.bind_some, List.drop_take, List.take_take, List.drop_zero,
        List.nil_append, serialize, List.length_append, length_encodeLE]
      congr 3
      omega

/-- `n` frames `[channel][id][len][len bytes]` one after the other. -/
inductive Frames : ℕ → Bytes → Prop
  | nil : Frames 0 []
  | cons {n : ℕ} {rest : Bytes} (channel : UInt8) (id len payload : Bytes) (hid : id.length = 2)
      (hlen : len.length = 2) (hpayload : payload.length = decodeLE len) (hrest : Frames n rest) :
      Frames (n + 1) (channel :: (id ++ (len ++ (payload ++ rest))))

def IsPacket (bs : Bytes) : Prop :=
  ∃ header count frames : Bytes, bs = header ++ (count ++ frames) ∧ header.length = 8 ∧
    count.length = 2 ∧ Frames (decodeLE count) frames

theorem encodeLE_of_length {w : ℕ} {bs : Bytes} (h : bs.length = w) :
    encodeLE w (decodeLE bs) = bs ∧ decodeLE bs < 256 ^ w := by
  subst h
  exact ⟨encodeLE_decodeLE bs, decodeLE_lt bs⟩

theorem encode_word {bs : Bytes} (h : bs.length = 2) :
    encodeLE 2 (UInt16.ofNat (decodeLE bs)).toNat = bs := by
  obtain ⟨hbs, hlt⟩ := encodeLE_of_length h
  rw [UInt16.toNat_ofNat', Nat.mod_eq_of_lt (show decodeLE bs < 2 ^ 16 from hlt), hbs]

theorem encode_dword {bs : Bytes} (h : bs.length = 4) :
    encodeLE 4 (UInt32.ofNat (decodeLE bs)).toNat = bs := by
  obtain ⟨hbs, hlt⟩ := encodeLE_of_length h
  rw [UInt32.toNat_ofNat', Nat.mod_eq_of_lt (show decodeLE bs < 2 ^ 32 from hlt), hbs]

theorem frames_iff {n : ℕ} {bs : Bytes} : Frames n bs ↔ ∃ msgs : List Message,
    msgs.length = n ∧ (∀ m ∈ msgs, m.Fits) ∧ bs = msgs.flatMap serializeMessage := by
  constructor
  · intro h
    induction h with
    | nil => exact ⟨[], rfl, fun m hm => absurd hm List.not_mem_nil, rfl⟩
    | cons channel id len payload hid hlen hpayload _ ih =>
      obtain ⟨msgs, rfl, hfits, rfl⟩ := ih
      obtain ⟨hlen, hlenLt⟩ := encodeLE_of_length hlen
      have hmod : payload.length % 65536 = payload.length :=
        Nat.mod_eq_of_lt (hpayload.trans_lt hlenLt)
      refine ⟨⟨⟨channel⟩, UInt16.ofNat (decodeLE id), payload⟩ :: msgs, rfl,
        List.forall_mem_cons.mpr ⟨?_, hfits⟩, ?_⟩
      · rw [Message.Fits, hpayload]
        exact Nat.le_of_lt_succ hlenLt
      · simp only [List.flatMap_cons, serializeMessage, encode_word hid, hmod, List.take_length,
          List.cons_append, List.append_assoc]
        rw [hpayload, hlen]
  · intro h
    obtain ⟨msgs, rfl, hfits, rfl⟩ := h
    induction msgs with
    | nil => exact Frames.nil
    | cons m msgs ih =>
      obtain ⟨hm, hrest⟩ := List.forall_mem_cons.mp hfits
      have hlen : m.payload.length % 65536 = m.payload.length :=
        Nat.mod_eq_of_lt (Nat.lt_succ_of_le hm)
      simp only [List.flatMap_cons, serializeMessage, hlen, List.take_length, List.cons_append,
        List.append_assoc, List.length_cons]
      refine Frames.cons _ _ _ _ (length_encodeLE _ _) (length_encodeLE _ _) ?_ (ih hrest)
      rw [decodeLE_encodeLE]
      exact hlen.symm

theorem isPacket_iff {bs : Bytes} : IsPacket bs ↔ ∃ header msgs, msgs.length < 65536 ∧
    (∀ m ∈ msgs, m.Fits) ∧ bs = serialize header msgs := by
  constructor
  · intro h
    obtain ⟨header, count, frames, rfl, hheader, hcount, hframes⟩ := h
    obtain ⟨msgs, hlen, hfits, rfl⟩ := frames_iff.mp hframes
    obtain ⟨hcount, hcountLt⟩ := encodeLE_of_length hcount
    have hparts : header.take 2 ++ ((header.drop 2).take 2 ++ header.drop (2 + 2)) = header := by
      rw [← List.drop_drop, List.take_append_drop, List.take_append_drop]
    have hsequence : (header.take 2).length = 2 := List.length_take_of_le (by omega)
    have hack : ((header.drop 2).take 2).length = 2 :=
      List.length_take_of_le (by rw [List.length_drop]; omega)
    have hackBits : (header.drop (2 + 2)).length = 4 := by
      rw [List.length_drop]
      omega
    refine ⟨⟨UInt16.ofNat (decodeLE (header.take 2)),
      UInt16.ofNat (decodeLE ((header.drop 2).take 2)),
      UInt32.ofNat (decodeLE (header.drop (2 + 2)))⟩, msgs, hlen.trans_lt hcountLt, hfits, ?_⟩
    rw [serialize, encode_word hsequence, encode_word hack, encode_dword hackBits, hlen, hcount]
    conv_lhs => rw [← hparts]
    simp only [List.append_assoc]
  · intro h
    obtain ⟨header, msgs, hlen, hfits, rfl⟩ := h
    refine ⟨encodeLE 2 header.sequence.toNat ++ (encodeLE 2 header.ack.toNat ++
      encodeLE 4 header.ackBits.toNat), encodeLE 2 msgs.length, msgs.flatMap serializeMessage,
      ?_, ?_, length_encodeLE _ _, ?_⟩
    · simp only [serialize, List.append_assoc]
    · simp only [List.length_append, length_encodeLE]
    · have hmod : msgs.length % 256 ^ 2 = msgs.length := Nat.mod_eq_of_lt hlen
      rw [decodeLE_encodeLE, hmod]
      exact frames_iff.mpr ⟨msgs, rfl, hfits, rfl⟩

/-- Every copy is from inside the buffer. A buffer is accepted if it begins with a packet of
the grammar, and what it decodes to serializes to just that packet, of which no strict
prefix is accepted. -/
theorem deserialize_grammar :
    (∀ buf, ∃ result, scan buf = some result ∧ result.map Prod.fst = deserialize buf ∧
      ∀ header msgs off, result = some ((header, msgs), off) → off ≤ buf.length ∧
        IsPacket (buf.take off) ∧ serialize header msgs = buf.take off) ∧
    (∀ buf, (deserialize buf).isSome ↔ ∃ packet tail, buf = packet ++ tail ∧ IsPacket packet) ∧
    ∀ header msgs, msgs.length ≤ 65535 → (∀ m ∈ msgs, m.payload.length ≤ 65535) →
      ∀ cut, cut <+: serialize header msgs → cut ≠ serialize header msgs →
        deserialize cut = none := by
  refine ⟨fun buf => ⟨_, scan_eq buf, ?_, fun header msgs off hresult => ?_⟩, fun buf => ?_,
    fun header msgs hlen hfits cut hcut hne => ?_⟩
  · rw [Option.map_map]
    exact Option.map_id'
  · obtain ⟨x, hx, heq⟩ := Option.map_eq_some_iff.mp hresult
    obtain ⟨rfl, rfl⟩ := Prod.mk.inj heq
    obtain ⟨hlen, hfits, tail, rfl⟩ := deserialize_eq_some_iff.mp hx
    rw [List.take_left, List.length_append]
    exact ⟨Nat.le_add_right _ _, isPacket_iff.mpr ⟨header, msgs, hlen, hfits, rfl⟩, rfl⟩
  · rw [Option.isSome_iff_exists]
    constructor
    · intro h
      obtain ⟨⟨header, msgs⟩, hx⟩ := h
      obtain ⟨hlen, hfits, tail, heq⟩ := deserialize_eq_some_iff.mp hx
      exact ⟨_, tail, heq, isPacket_iff.mpr ⟨header, msgs, hlen, hfits, rfl⟩⟩
    · intro h
      obtain ⟨packet, tail, rfl, hpacket⟩ := h
      obtain ⟨header, msgs, hlen, hfits, rfl⟩ := isPacket_iff.mp hpacket
      exact ⟨(header, msgs), deserialize_serialize_append hfits hlen tail⟩
  · apply Option.eq_none_iff_forall_ne_some.mpr
    intro x hx
    obtain ⟨hlen', hfits', tail, rfl⟩ := deserialize_eq_some_iff.mp hx
    obtain ⟨more, hmore⟩ := hcut
    -- what the prefix decodes to is what the whole decodes to
    have hwhole : deserialize (serialize header msgs) = _ :=
      deserialize_serialize hfits (Nat.lt_succ_of_le hlen)
    rw [← hmore, List.append_assoc, deserialize_serialize_append hfits' hlen',
      Option.some.injEq] at hwhole
    obtain ⟨rfl, rfl⟩ := Prod.mk.inj hwhole
    have hlength := congrArg List.length hmore
    rw [List.length_append, List.length_append] at hlength
    have hnil : tail = [] := List.length_eq_zero_iff.mp (by omega)
    exact hne (by rw [hnil, List.append_nil])

end Netcode.Transport
