import Netcode.Transport.PeerLink

/-!
# A packet that arrives whole

A table keeps no group that is complete. When fragments of one packet arrive and of
no other, in any order and number, each of them fills its slot or finds it filled, so
that the packet has come out by the time each fragment has arrived once. The packet
carried everything that the sender still held.
-/

namespace Netcode.Transport

open Netcode.Library

namespace Reassembler

variable {r : Reassembler} {s : UInt16} {p : Bytes} {i : ℕ}

def Open (r : Reassembler) : Prop := ∀ t g, r.groups.lookup t = some g → g.received < g.count

theorem Open.store (h : r.Open) (header : FragmentHeader) (chunk : Bytes) (g : Group) :
    (r.store header chunk g).2.Open := by
  simp only [Reassembler.store]
  split_ifs with hreject hmore
  · exact h
  · intro t g' hg'
    rcases lookup_of_insert hg' with ⟨-, rfl⟩ | hold
    · exact hmore
    · exact h t g' hold
  · exact fun t g' hg' => h t g' (lookup_of_erase hg')

theorem Open.reassemble (h : r.Open) (order : VisitOrder) (data : Bytes) :
    (r.reassemble order data).2.Open := by
  cases hdecode : FragmentHeader.decode data with
  | none => simpa only [Reassembler.reassemble, hdecode] using h
  | some x =>
    obtain ⟨header, chunk⟩ := x
    simp only [Reassembler.reassemble, hdecode]
    by_cases hinvalid : header.fragmentCount = 0 ∨ header.fragmentCount ≤ header.fragmentId
    · rwa [if_pos hinvalid]
    · rw [if_neg hinvalid]
      by_cases hone : header.fragmentCount = 1
      · rwa [if_pos hone]
      · rw [if_neg hone]
        cases hlook : r.groups.lookup header.packetSeq with
        | some g => exact h.store header chunk g
        | none =>
          refine Open.store (fun t g hg => ?_) header chunk _
          rcases lookup_of_insert hg with ⟨-, rfl⟩ | hold
          · rw [UInt8.lt_iff_toNat_lt]
            exact Nat.pos_of_ne_zero fun hzero =>
              (not_or.mp hinvalid).1 (UInt8.toNat_inj.mp hzero)
          · split_ifs at hold
            · exact h t g (lookup_evictOldest hold)
            · exact h t g hold

theorem Open.drained (h : r.Open) (arrivals : List Arrival) : (r.drained arrivals).Open := by
  induction arrivals generalizing r with
  | nil => exact h
  | cons a arrivals ih => exact ih (h.reassemble a.1 _)

def Has (r : Reassembler) (s : UInt16) (p : Bytes) (i : ℕ) : Prop :=
  ∃ g, r.groups.lookup s = some g ∧ g.Holds p ∧ g.chunks.getD i [] ≠ []

theorem put_getD_ne_nil {g : Group} (hg : g.Holds p) (hi : i < fragmentCount p.length) {j : ℕ}
    (h : j = i ∨ g.chunks.getD j [] ≠ []) : (g.put p i).chunks.getD j [] ≠ [] := by
  have hlen := hg.length
  have hpiece := piece_fragment_ne_nil (i := i) hg.multiple (by omega)
  by_cases hj : j = i
  · subst hj
    have hput : (g.put p j).chunks.getD j [] = piece kMaxFragmentSize p j := by
      rw [Group.put, List.getD_eq_getElem _ _ (by rw [List.length_set]; omega),
        List.getElem_set_self]
    rwa [hput]
  · have hput : (g.put p i).chunks.getD j [] = g.chunks.getD j [] := by
      simp only [Group.put, List.getD_eq_getElem?_getD, List.getElem?_set_ne (Ne.symm hj)]
    rw [hput]
    exact h.resolve_left hj

theorem reassemble_has (order : VisitOrder) (hp : p.length ≤ 255 * kMaxFragmentSize)
    (hmultiple : 2 ≤ fragmentCount p.length) (hi : i < fragmentCount p.length)
    (hholds : ∀ g, r.groups.lookup s = some g → g.Holds p) :
    (r.reassemble order (datagram s p i)).1 = some p ∨
      ∀ j, j = i ∨ r.Has s p j → (r.reassemble order (datagram s p i)).2.Has s p j := by
  cases hlook : r.groups.lookup s with
  | none =>
    obtain ⟨groups, -, -, hr⟩ := reassemble_created order hp hmultiple hi hlook
    have hopened := holds_fresh hp hmultiple
    have hlength := hopened.length
    have hput := hopened.put hp (i := i) (by omega) (by simp only [fresh, List.getElem_replicate])
    rw [hr]
    refine Or.inr fun j hj => ⟨_, Finmap.lookup_insert _, hput, ?_⟩
    rcases hj with hj | ⟨g, hg, -⟩
    · exact put_getD_ne_nil hopened hi (Or.inl hj)
    · rw [hlook] at hg
      exact absurd hg.symm (Option.some_ne_none g)
  | some g =>
    have hg := hholds g hlook
    rw [reassemble_found order hp hmultiple hi hlook]
    by_cases hreject : Rejects g (fragmentHeader s p i)
    · rw [store_rejects hreject]
      right
      intro j hj
      rcases hj with rfl | hj
      · refine ⟨g, hlook, hg, ?_⟩
        have hcount : (fragmentHeader s p j).fragmentCount = g.count := by
          rw [← UInt8.toNat_inj, hg.count]
          exact toNat_fragmentCount hp
        have hfilled := hreject.resolve_left fun hne => hne hcount
        have hid : (fragmentHeader s p j).fragmentId.toNat = j := toNat_fragmentId hp hi
        rwa [hid] at hfilled
      · exact hj
    · obtain ⟨hput, hstore⟩ := store_holds (r := r) (s := s) hg hp hi hreject
      rw [hstore]
      split_ifs
      · refine Or.inr fun j hj => ⟨_, Finmap.lookup_insert _, hput, ?_⟩
        refine put_getD_ne_nil hg hi (hj.imp_right fun hj => ?_)
        obtain ⟨g', hg', -, hfilled⟩ := hj
        rw [hlook, Option.some.injEq] at hg'
        exact hg' ▸ hfilled
      · exact Or.inl rfl

theorem Open.not_all_has (h : r.Open) (hpos : 0 < fragmentCount p.length) :
    ¬ ∀ i < fragmentCount p.length, r.Has s p i := by
  intro hall
  obtain ⟨g, hlook, hg, -⟩ := hall 0 hpos
  have hfull : filled g.chunks = g.chunks.length := by
    rw [filled_eq_length_iff]
    intro i hi
    obtain ⟨g', hlook', -, hfilled⟩ := hall i (hg.length ▸ hi)
    obtain rfl := Option.some.inj (hlook.symm.trans hlook')
    rwa [List.getD_eq_getElem _ _ hi] at hfilled
  have hlt := h s g hlook
  rw [UInt8.lt_iff_toNat_lt, hg.received, hg.count, hfull, hg.length] at hlt
  exact lt_irrefl _ hlt

variable {packets : List Packet} {packet : Packet} {k : ℕ}

theorem Collecting.holds (h : r.Collecting packets) (hlen : packets.length ≤ 65535)
    (hk : packets[k]? = some packet) {g : Group}
    (hlook : r.groups.lookup (sequenceAt k) = some g) : g.Holds packet.bytes := by
  obtain ⟨j, q, hj, hseq, hholds⟩ := h _ g hlook
  have hjk := sequenceAt_injective hlen (List.getElem?_eq_some_iff.mp hj).1
    (List.getElem?_eq_some_iff.mp hk).1 hseq
  rw [hjk, hk, Option.some.injEq] at hj
  exact hj ▸ hholds

theorem Collecting.decoded_or_has (h : r.Collecting packets) (hlen : packets.length ≤ 65535)
    (hk : packets[k]? = some packet) (hcarried : packet.Carried)
    (hmultiple : 2 ≤ fragmentCount packet.bytes.length) {arrivals : List Arrival}
    (harrivals : ∀ a ∈ arrivals, a.2 ∈ fragment (sequenceAt k) packet.bytes) :
    packet ∈ r.decoded arrivals ∨ ∀ j < fragmentCount packet.bytes.length,
      r.Has (sequenceAt k) packet.bytes j ∨
        datagram (sequenceAt k) packet.bytes j ∈ arrivals.map Prod.snd →
      (r.drained arrivals).Has (sequenceAt k) packet.bytes j := by
  induction arrivals generalizing r with
  | nil => exact Or.inr fun j _ hj => hj.resolve_right List.not_mem_nil
  | cons a arrivals ih =>
    obtain ⟨ha, hrest⟩ := List.forall_mem_cons.mp harrivals
    obtain ⟨i, hi, hdata⟩ := mem_fragment.mp ha
    rw [decoded_cons, drained, List.foldl_cons, take_datagram ha]
    rcases reassemble_has a.1 hcarried.small hmultiple hi fun g => h.holds hlen hk with hout | hhas
    · left
      rw [← hdata, hout, Option.bind_some, hcarried.deserialize_bytes]
      exact List.mem_append_left _ List.mem_cons_self
    · rw [hdata] at hhas
      refine (ih (h.reassemble hlen hk hcarried.small ha a.1).2 hrest).imp
        (List.mem_append_right _) fun hdrained j hj hor => hdrained j hj ?_
      rcases hor with hold | hmem
      · exact Or.inl (hhas j (Or.inr hold))
      · rcases List.mem_cons.mp hmem with hnow | hlater
        · exact Or.inl (hhas j (Or.inl (datagram_injective hcarried.small hj hi
            (hnow.trans hdata.symm))))
        · exact Or.inr hlater

theorem mem_decoded_of_one (hcarried : packet.Carried)
    (hone : fragmentCount packet.bytes.length = 1) {arrivals : List Arrival}
    (hmem : datagram s packet.bytes 0 ∈ arrivals.map Prod.snd) : packet ∈ r.decoded arrivals := by
  induction arrivals generalizing r with
  | nil => exact absurd hmem List.not_mem_nil
  | cons a arrivals ih =>
    rw [decoded_cons]
    rcases List.mem_cons.mp hmem with hnow | hlater
    · have hwhole : a.2 ∈ fragment s packet.bytes := mem_fragment.mpr ⟨0, by omega, hnow⟩
      rw [take_datagram hwhole, ← hnow, reassemble_whole hone, Option.bind_some,
        hcarried.deserialize_bytes]
      exact List.mem_append_left _ List.mem_cons_self
    · exact List.mem_append_right _ (ih hlater)

/-- All of the datagrams of a packet arrive, and nothing else if there are several. -/
def Whole (datagrams : List Bytes) (arrivals : List Arrival) : Prop :=
  (∀ d ∈ datagrams, d ∈ arrivals.map Prod.snd) ∧
    (datagrams.length = 1 ∨ ∀ a ∈ arrivals, a.2 ∈ datagrams)

instance (datagrams : List Bytes) (arrivals : List Arrival) :
    Decidable (Whole datagrams arrivals) :=
  inferInstanceAs (Decidable ((∀ d ∈ datagrams, d ∈ arrivals.map Prod.snd) ∧
    (datagrams.length = 1 ∨ ∀ a ∈ arrivals, a.2 ∈ datagrams)))

theorem Collecting.mem_decoded (h : r.Collecting packets) (hopen : r.Open)
    (hlen : packets.length ≤ 65535) (hk : packets[k]? = some packet) (hcarried : packet.Carried)
    {arrivals : List Arrival}
    (hwhole : Whole (fragment (sequenceAt k) packet.bytes) arrivals) :
    packet ∈ r.decoded arrivals := by
  have hpos := fragmentCount_pos packet.bytes.length
  have harrived : ∀ i < fragmentCount packet.bytes.length,
      datagram (sequenceAt k) packet.bytes i ∈ arrivals.map Prod.snd :=
    fun i hi => hwhole.1 _ (mem_fragment.mpr ⟨i, hi, rfl⟩)
  rcases Nat.lt_or_ge 1 (fragmentCount packet.bytes.length) with hmultiple | hone
  · have hseveral : (fragment (sequenceAt k) packet.bytes).length ≠ 1 := by
      rw [fragment_eq, List.length_map, List.length_range]
      omega
    refine (h.decoded_or_has hlen hk hcarried hmultiple (hwhole.2.resolve_left hseveral)).elim id
      fun hhas => ?_
    exact absurd (fun i hi => hhas i hi (Or.inr (harrived i hi)))
      ((hopen.drained arrivals).not_all_has hpos)
  · exact mem_decoded_of_one hcarried (by omega) (harrived 0 hpos)

end Reassembler

theorem Flow.mem_delivered {x y : Side} {lo hi : ℕ → ℕ} {base d : ℕ} (f : Flow x y lo hi base d)
    (hb : x.InBounds) {packets : List Packet} (hpackets : ∀ p ∈ packets, p ∈ x.sent)
    {packet : Packet} (hpacket : packet ∈ packets) :
    ∀ m ∈ packet.messages, m.channel = Channel.reliable →
      m ∈ (y.act (.poll packets)).delivered := by
  intro m hm hreliable
  obtain ⟨d', hdd, -, hout, -, hpk⟩ := f.receive_packets hb hpackets
  have hdelivered : (y.act (.poll packets)).delivered = x.queued.take d' := by
    have hr : (y.act (.poll packets)).delivered = y.delivered ++
        ((packets.foldl PacketPeer.receive y.peer).demux.reliable.receive
          ((packets.flatMap (·.messages)).filter (·.channel = Channel.reliable))).1 := rfl
    rw [hr, PacketPeer.foldl_receive_demux, List.filter_flatMap, hout, f.delivered,
      take_append_window hdd]
  obtain ⟨j, hj⟩ := List.getElem?_of_mem (hpackets packet hpacket)
  obtain ⟨hsequence, hwindow⟩ := f.packets j packet hj
  obtain ⟨k, hk, hseq, hle⟩ := hpk packet hpacket
  have hsame := sequenceAt_injective (hb.1.trans (by decide)) (List.getElem?_eq_some_iff.mp hj).1
    hk (hsequence.symm.trans hseq)
  have hmem : m ∈ window x.queued (lo j) (hi j) := by
    rw [← hwindow]
    exact List.mem_filter.mpr ⟨hm, decide_eq_true hreliable⟩
  rw [hdelivered]
  exact (List.take_sublist_take_left (hsame ▸ hle)).subset (mem_take_of_mem_window hmem)

variable {δ : Type*} [Scalar δ]

theorem PeerSide.open_act {x : PeerSide δ} (h : x.peer.reassembler.Open) (action : PeerAction) :
    (x.act action).peer.reassembler.Open := by
  cases action with
  | queueReliable payload => exact h
  | queueUnreliable payload => exact h
  | update nowUs =>
    rcases x.peer.update_cases nowUs with ⟨hidle, -⟩ | ⟨-, -, -, hreassembler⟩
    · simpa only [PeerSide.act, hidle] using h
    · simpa only [PeerSide.act, hreassembler] using h
  | poll nowUs arrivals =>
    simpa only [PeerSide.act, Peer.poll_reassembler] using h.drained arrivals

namespace PeerLink

variable {remoteA remoteB : Endpoint} {s : PeerLink δ}

theorem opens (h : (machine remoteA remoteB).Reachable s) :
    s.a.peer.reassembler.Open ∧ s.b.peer.reassembler.Open := by
  induction h with
  | init => exact ⟨fun t g hg => absurd hg (by simp [machine, init]),
      fun t g hg => absurd hg (by simp [machine, init])⟩
  | step _ e _ _ ih =>
    cases e with
    | atA action => exact ⟨PeerSide.open_act ih.1 action, ih.2⟩
    | atB action => exact ⟨ih.1, PeerSide.open_act ih.2 action⟩

/-- Once a packet of `b` has arrived whole, `a` has handed on the reliable messages in it. -/
theorem mem_delivered (h : (machine remoteA remoteB).Reachable s) (hs : s.Carried)
    (hb : s.b.queued.length ≤ maxMessages) {k : ℕ} {packet : Packet}
    (hk : s.b.flushed[k]? = some packet) (nowUs : Micros) {arrivals : List Arrival}
    (harrivals : ∀ a ∈ arrivals, a.2 ∈ s.b.wire)
    (hwhole : Reassembler.Whole (fragment (sequenceAt k) packet.bytes) arrivals) :
    ∀ m ∈ packet.messages, m.channel = Channel.reliable →
      m ∈ (s.a.act (.poll nowUs arrivals)).delivered := by
  obtain ⟨hreach, -, hconveys⟩ := packets_reachable h hs
  obtain ⟨_, _, _, _, hflow⟩ := Link.flow (Link.reachable_swap hreach) ⟨hs.2.count, hb⟩
  have hmem := hconveys.groups.mem_decoded (opens h).1 (hs.2.count.trans (by decide)) hk
    (hs.2.packets packet (List.mem_of_getElem? hk)) hwhole
  have hside : (s.a.act (.poll nowUs arrivals)).delivered =
      (s.a.side.act (.poll (s.a.peer.reassembler.decoded arrivals))).delivered :=
    congrArg Side.delivered (s.a.side_act (.poll nowUs arrivals))
  rw [hside]
  exact hflow.mem_delivered ⟨hs.2.count, hb⟩ (hconveys.decoded hs.2 harrivals).1 hmem

end PeerLink

end Netcode.Transport
