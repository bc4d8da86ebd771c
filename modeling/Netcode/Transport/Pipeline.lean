import Netcode.Transport.Fragment
import Netcode.Transport.Wire

/-!
# The send pipeline

A flush packs the queued messages, serializes the packet and fragments it; the
other side reassembles and deserializes. When every payload fits its length
field and all fragments arrive, the packet comes out unchanged exactly if it
takes no more than 255 of them.
-/

namespace Netcode.Transport

open Netcode.Library

def Reassembler.feed (r : Reassembler) : List (VisitOrder × Bytes) → List Bytes × Reassembler
  | [] => ([], r)
  | (order, data) :: arrivals =>
    let x := r.reassemble order data
    let y := Reassembler.feed x.2 arrivals
    (x.1.toList ++ y.1, y.2)

theorem Reassembler.feed_cons (r : Reassembler) (a : VisitOrder × Bytes)
    (arrivals : List (VisitOrder × Bytes)) : (r.feed (a :: arrivals)).1 =
      (r.reassemble a.1 a.2).1.toList ++ ((r.reassemble a.1 a.2).2.feed arrivals).1 := rfl

structure Group.Filled (g : Group) (p : Bytes) (j : ℕ) : Prop extends g.Holds p where
  received_eq : g.received.toNat = j
  empty : ∀ i, ∀ hi : i < g.chunks.length, j ≤ i → g.chunks[i] = []

namespace Group.Filled

variable {g : Group} {r : Reassembler} {s : UInt16} {p : Bytes} {j : ℕ}

theorem put (h : g.Filled p j) (hp : p.length ≤ 255 * kMaxFragmentSize)
    (hj : j < fragmentCount p.length) : (g.put p j).Filled p (j + 1) := by
  have hlen := h.length
  have hle := fragmentCount_le hp
  have hput := h.toHolds.put hp (i := j) (by omega) (h.empty j (by omega) le_rfl)
  refine ⟨hput, ?_, fun i hi hji => ?_⟩
  · simp only [Group.put, UInt8.toNat_add, h.received_eq, UInt8.toNat_one]
    exact Nat.mod_eq_of_lt (by omega)
  · have hi' : i < g.chunks.length := by simpa only [Group.put, List.length_set] using hi
    simp only [Group.put]
    rw [List.getElem_set_of_ne (by omega)]
    exact h.empty i hi' (by omega)

theorem fresh (hp : p.length ≤ 255 * kMaxFragmentSize) (hmultiple : 2 ≤ fragmentCount p.length) :
    (Reassembler.fresh (UInt8.ofNat (fragmentCount p.length))).Filled p 0 := by
  refine ⟨holds_fresh hp hmultiple, rfl, fun i hi _ => ?_⟩
  simp only [Reassembler.fresh, List.getElem_replicate]

theorem accepts (h : g.Filled p j) (hp : p.length ≤ 255 * kMaxFragmentSize)
    (hj : j < fragmentCount p.length) : ¬ Reassembler.Rejects g (fragmentHeader s p j) := by
  have hlen := h.length
  have hcount : (fragmentHeader s p j).fragmentCount = g.count := by
    rw [← UInt8.toNat_inj, h.count]
    exact toNat_fragmentCount hp
  have hid : (fragmentHeader s p j).fragmentId.toNat = j := toNat_fragmentId hp hj
  have hslot : g.chunks.getD j [] = [] := by
    rw [List.getD_eq_getElem _ _ (by omega)]
    exact h.empty j (by omega) le_rfl
  rw [Reassembler.Rejects, hid, not_or, not_not, not_not]
  exact ⟨hcount, hslot⟩

theorem reassemble (h : g.Filled p j) (hp : p.length ≤ 255 * kMaxFragmentSize)
    (hj : j < fragmentCount p.length) (order : VisitOrder) (hg : r.groups.lookup s = some g) :
    (j + 1 < fragmentCount p.length ∧ r.reassemble order (datagram s p j) =
        (none, ⟨r.groups.insert s (g.put p j)⟩)) ∨
      (j + 1 = fragmentCount p.length ∧
        (r.reassemble order (datagram s p j)).1 = some p) := by
  obtain ⟨-, hstore⟩ := Reassembler.store_holds (r := r) (s := s) h.toHolds hp hj (h.accepts hp hj)
  rw [Reassembler.reassemble_found order hp h.multiple hj hg, hstore]
  have hiff : (g.put p j).received < g.count ↔ j + 1 < fragmentCount p.length := by
    rw [UInt8.lt_iff_toNat_lt, (h.put hp hj).received_eq, h.count]
  split_ifs with hmore
  · exact Or.inl ⟨hiff.mp hmore, rfl⟩
  · rw [hiff] at hmore
    exact Or.inr ⟨by omega, rfl⟩

theorem feed (h : g.Filled p j) (hp : p.length ≤ 255 * kMaxFragmentSize)
    (hj : j < fragmentCount p.length) (hg : r.groups.lookup s = some g)
    {arrivals : List (VisitOrder × Bytes)} (harrivals : arrivals.map Prod.snd =
      (List.range' j (fragmentCount p.length - j)).map (datagram s p)) :
    (r.feed arrivals).1 = [p] := by
  induction arrivals generalizing r g j with
  | nil =>
    have hlen := congrArg List.length harrivals
    simp only [List.map_nil, List.length_nil, List.length_map, List.length_range'] at hlen
    omega
  | cons a arrivals ih =>
    obtain ⟨n, hn⟩ : ∃ n, fragmentCount p.length - j = n + 1 :=
      ⟨fragmentCount p.length - j - 1, by omega⟩
    rw [hn, List.range'_succ, List.map_cons, List.map_cons, List.cons.injEq] at harrivals
    obtain ⟨hdata, hrest⟩ := harrivals
    rw [Reassembler.feed_cons, hdata]
    rcases h.reassemble hp hj a.1 hg with ⟨hmore, hr⟩ | ⟨hlast, hr⟩
    · rw [hr]
      refine ih (h.put hp hj) hmore (Finmap.lookup_insert _) ?_
      rwa [show fragmentCount p.length - (j + 1) = n by omega]
    · obtain rfl : n = 0 := by omega
      rw [hr, List.map_eq_nil_iff.mp hrest]
      rfl

end Group.Filled

theorem Reassembler.feed_fragment {r : Reassembler} {s : UInt16} {p : Bytes}
    (hp : p.length ≤ 255 * kMaxFragmentSize) (hnone : r.groups.lookup s = none)
    {arrivals : List (VisitOrder × Bytes)} (harrivals : arrivals.map Prod.snd = fragment s p) :
    (r.feed arrivals).1 = [p] := by
  have hpos := fragmentCount_pos p.length
  rw [fragment_eq, List.range_eq_range'] at harrivals
  cases arrivals with
  | nil =>
    have hlen := congrArg List.length harrivals
    simp only [List.map_nil, List.length_nil, List.length_map, List.length_range'] at hlen
    omega
  | cons a arrivals =>
    obtain ⟨n, hn⟩ : ∃ n, fragmentCount p.length = n + 1 := ⟨fragmentCount p.length - 1, by omega⟩
    rw [hn, List.range'_succ, List.map_cons, List.map_cons, List.cons.injEq] at harrivals
    obtain ⟨hdata, hrest⟩ := harrivals
    rw [Reassembler.feed_cons, hdata]
    rcases Nat.lt_or_ge 1 (fragmentCount p.length) with hmultiple | hone
    · obtain ⟨groups, -, -, hr⟩ := Reassembler.reassemble_created a.1 hp hmultiple hpos hnone
      rw [hr]
      refine ((Group.Filled.fresh hp hmultiple).put hp hpos).feed hp hmultiple
        (Finmap.lookup_insert _) ?_
      rwa [show fragmentCount p.length - (0 + 1) = n by omega]
    · obtain rfl : n = 0 := by omega
      rw [Reassembler.reassemble_whole hn, List.map_eq_nil_iff.mp hrest]
      rfl

structure Group.Bounded (g : Group) : Prop where
  length : g.chunks.length ≤ 255
  chunks : ∀ chunk ∈ g.chunks, chunk.length ≤ kMaxFragmentSize

namespace Reassembler

variable {r : Reassembler} {s : UInt16}

def Bounds (r : Reassembler) (s : UInt16) : Prop := ∀ g, r.groups.lookup s = some g → g.Bounded

theorem Bounds.store {header : FragmentHeader} {chunk : Bytes} {g : Group} (h : r.Bounds s)
    (hg : g.Bounded) (hseq : header.packetSeq = s) (hchunk : chunk.length ≤ kMaxFragmentSize) :
    (∀ b, (r.store header chunk g).1 = some b → b.length ≤ 255 * kMaxFragmentSize) ∧
      (r.store header chunk g).2.Bounds s := by
  have hput : ({ g with
      chunks := g.chunks.set header.fragmentId.toNat chunk
      received := g.received + 1 } : Group).Bounded := by
    refine ⟨by simpa only [List.length_set] using hg.length, fun c hc => ?_⟩
    rcases List.mem_or_eq_of_mem_set hc with hc | hc
    · exact hg.chunks c hc
    · rwa [hc]
  simp only [Reassembler.store, hseq]
  split_ifs with hreject hmore
  · exact ⟨fun b hb => absurd hb (by simp), h⟩
  · refine ⟨fun b hb => absurd hb (by simp), fun g' hg' => ?_⟩
    rw [Finmap.lookup_insert, Option.some.injEq] at hg'
    exact hg' ▸ hput
  · refine ⟨fun b hb => ?_, fun g' hg' => ?_⟩
    · rw [← Option.some.inj hb]
      exact (length_flatten_le hput.chunks).trans (Nat.mul_le_mul_right _ hput.length)
    · rw [Finmap.lookup_erase] at hg'
      exact absurd hg' (by simp)

theorem Bounds.reassemble {data chunk : Bytes} {header : FragmentHeader} (h : r.Bounds s)
    (order : VisitOrder) (hdata : FragmentHeader.decode data = some (header, chunk))
    (hseq : header.packetSeq = s) (hchunk : chunk.length ≤ kMaxFragmentSize) :
    (∀ b, (r.reassemble order data).1 = some b → b.length ≤ 255 * kMaxFragmentSize) ∧
      (r.reassemble order data).2.Bounds s := by
  have hfresh : (fresh header.fragmentCount).Bounded := by
    constructor
    · simp only [fresh, List.length_replicate]
      have hlt := header.fragmentCount.toNat_lt
      omega
    · intro c hc
      rw [List.eq_of_mem_replicate hc]
      exact Nat.zero_le _
  simp only [Reassembler.reassemble, hdata]
  by_cases hinvalid : header.fragmentCount = 0 ∨ header.fragmentCount ≤ header.fragmentId
  · rw [if_pos hinvalid]
    exact ⟨fun b hb => absurd hb (by simp), h⟩
  · rw [if_neg hinvalid]
    by_cases hone : header.fragmentCount = 1
    · rw [if_pos hone]
      refine ⟨fun b hb => ?_, h⟩
      rw [← Option.some.inj hb]
      exact hchunk.trans (by decide)
    · rw [if_neg hone, hseq]
      cases hlook : r.groups.lookup s with
      | some g => exact h.store (h g hlook) hseq hchunk
      | none =>
        refine Bounds.store (fun g hg => ?_) hfresh hseq hchunk
        rw [Finmap.lookup_insert, Option.some.injEq] at hg
        exact hg ▸ hfresh

theorem Bounds.feed {p : Bytes} (h : r.Bounds s) {arrivals : List (VisitOrder × Bytes)}
    (harrivals : ∀ a ∈ arrivals, a.2 ∈ fragment s p) :
    ∀ b ∈ (r.feed arrivals).1, b.length ≤ 255 * kMaxFragmentSize := by
  induction arrivals generalizing r with
  | nil => exact fun b hb => absurd hb List.not_mem_nil
  | cons a arrivals ih =>
    have ha := harrivals a List.mem_cons_self
    rw [fragment_eq] at ha
    obtain ⟨i, -, hi⟩ := List.mem_map.mp ha
    have hdecode : FragmentHeader.decode a.2 =
        some (fragmentHeader s p i, piece kMaxFragmentSize p i) := by
      rw [← hi]
      exact FragmentHeader.decode_encode _ _
    obtain ⟨hout, hbounds⟩ := h.reassemble a.1 hdecode rfl (length_piece_le _ _ _)
    intro b hb
    rcases List.mem_append.mp hb with hb | hb
    · exact hout b (Option.mem_toList.mp hb)
    · exact ih hbounds (fun x hx => harrivals x (List.mem_cons_of_mem _ hx)) b hb

end Reassembler

namespace PacketPeer

def blob (p : PacketPeer) : Bytes := serialize p.flush.1.header p.flush.1.messages

def datagrams (p : PacketPeer) : List Bytes := fragment p.flush.1.header.sequence p.blob

def Lossless (p : PacketPeer) (r : Reassembler) (arrivals : List (VisitOrder × Bytes)) : Prop :=
  (r.feed arrivals).1.filterMap deserialize = [(p.flush.1.header, p.flush.1.messages)]

variable {p : PacketPeer} {r : Reassembler} {arrivals : List (VisitOrder × Bytes)}

theorem lossless_of_le (hnone : r.groups.lookup p.flush.1.header.sequence = none)
    (harrivals : arrivals.map Prod.snd = p.datagrams) (hfits : ∀ m ∈ p.flush.1.messages, m.Fits)
    (hle : p.blob.length ≤ 255 * kMaxFragmentSize) : p.Lossless r arrivals := by
  have hcount : p.flush.1.messages.length < 65536 := by
    have hsize := length_le_wireSize p.flush.1.messages
    rw [blob, length_serialize hfits, kMaxFragmentSize] at hle
    omega
  rw [Lossless, Reassembler.feed_fragment hle hnone harrivals, blob, List.filterMap_cons,
    deserialize_serialize hfits hcount]
  rfl

theorem le_of_lossless (hnone : r.groups.lookup p.flush.1.header.sequence = none)
    (harrivals : arrivals.map Prod.snd = p.datagrams) (hfits : ∀ m ∈ p.flush.1.messages, m.Fits)
    (h : p.Lossless r arrivals) : p.blob.length ≤ 255 * kMaxFragmentSize := by
  have hmem : (p.flush.1.header, p.flush.1.messages) ∈
      (r.feed arrivals).1.filterMap deserialize := by
    rw [h]
    exact List.mem_singleton_self _
  obtain ⟨b, hb, hdecoded⟩ := List.mem_filterMap.mp hmem
  have hbounds : r.Bounds p.flush.1.header.sequence := fun g hg => by
    rw [hnone] at hg
    exact absurd hg (by simp)
  have hlen := hbounds.feed (fun a ha => harrivals ▸ List.mem_map_of_mem ha) b hb
  rw [blob, length_serialize hfits]
  exact (wireSize_le_of_deserialize hdecoded).trans hlen

/-- With payloads that fit their length field, a flush survives the trip
exactly when it takes at most 255 fragments. -/
theorem lossless_iff (hnone : r.groups.lookup p.flush.1.header.sequence = none)
    (harrivals : arrivals.map Prod.snd = p.datagrams)
    (hfits : ∀ m ∈ p.flush.1.messages, m.Fits) :
    p.Lossless r arrivals ↔ p.blob.length ≤ 255 * kMaxFragmentSize :=
  ⟨le_of_lossless hnone harrivals hfits, lossless_of_le hnone harrivals hfits⟩

def inOrder (ds : List Bytes) : List (VisitOrder × Bytes) :=
  ds.map fun d => (VisitOrder.ascending, d)

theorem map_snd_inOrder (ds : List Bytes) : (inOrder ds).map Prod.snd = ds := by
  simp only [inOrder, List.map_map, Function.comp_def, List.map_id']

def queueAll (reliable unreliable : List Bytes) : PacketPeer :=
  unreliable.foldl queueUnreliable (reliable.foldl queueReliable {})

@[irreducible] def longPayload : Bytes := List.replicate 1500 7

theorem length_longPayload : longPayload.length = 1500 := by
  rw [longPayload, List.length_replicate]

theorem lossless_iff_busy :
    let p := queueAll [[1, 2, 3], []] [longPayload]
    let r : Reassembler := ⟨(∅ : Finmap fun _ : UInt16 => Group).insert 9 (Reassembler.fresh 3)⟩
    (p.Lossless r (inOrder p.datagrams) ↔ p.blob.length ≤ 255 * kMaxFragmentSize) ∧
      fragmentCount p.blob.length = 2 := by
  intro p r
  have hmessages : p.flush.1.messages =
      [⟨Channel.reliable, 0, [1, 2, 3]⟩, ⟨Channel.reliable, 1, []⟩,
        ⟨Channel.unreliable, 0, longPayload⟩] := rfl
  have hfits : ∀ m ∈ p.flush.1.messages, m.Fits := by
    rw [hmessages]
    simp [Message.Fits, length_longPayload]
  have hnone : r.groups.lookup p.flush.1.header.sequence = none := by
    change Finmap.lookup 1 _ = none
    rw [Finmap.lookup_insert_of_ne _ (by decide)]
    rfl
  refine ⟨lossless_iff hnone (map_snd_inOrder _) hfits, ?_⟩
  have hlen : p.blob.length = 1528 := by
    rw [blob, length_serialize hfits, hmessages]
    simp [wireSize, length_longPayload]
  rw [hlen]
  rfl

/-- Four payloads of 65300 bytes each fit their length field but not the packet. -/
theorem oversized_lost : ¬ ∀ (reliable unreliable : List Bytes) (r : Reassembler)
    (arrivals : List (VisitOrder × Bytes)),
    r.groups.lookup (queueAll reliable unreliable).flush.1.header.sequence = none →
    arrivals.map Prod.snd = (queueAll reliable unreliable).datagrams →
    (queueAll reliable unreliable).Lossless r arrivals := by
  intro hclaim
  obtain ⟨q, hq⟩ : ∃ q : Bytes, q.length = 65300 := ⟨List.replicate 65300 0, List.length_replicate⟩
  have hmessages : (queueAll [q, q, q, q] []).flush.1.messages =
      [⟨Channel.reliable, 0, q⟩, ⟨Channel.reliable, 1, q⟩, ⟨Channel.reliable, 2, q⟩,
        ⟨Channel.reliable, 3, q⟩] := rfl
  have hfits : ∀ m ∈ (queueAll [q, q, q, q] []).flush.1.messages, m.Fits := by
    rw [hmessages]
    simp [Message.Fits, hq]
  have hle := le_of_lossless rfl (map_snd_inOrder _) hfits
    (hclaim [q, q, q, q] [] {} _ rfl (map_snd_inOrder _))
  rw [blob, length_serialize hfits, hmessages, kMaxFragmentSize] at hle
  simp [wireSize, hq] at hle

end PacketPeer

end Netcode.Transport
