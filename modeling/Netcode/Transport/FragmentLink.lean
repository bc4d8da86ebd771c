import Netcode.Library.Machine
import Netcode.Transport.Fragment

/-!
# Packets in fragments over a link that loses datagrams

The sender fragments packets under the sequences its connection issues, and
the datagrams arrive in order, some of them never. A group that lost a fragment
stays in the table until 16 others push it out, and its sequence comes round
again 65535 packets later. As long as no fragment is put into a group that an
earlier packet left behind, every reassembled packet is one that was sent.
-/

namespace Netcode.Transport

open Netcode.Library

/-- `wire` pairs each datagram with the position of its packet, and `started`
gives, for each sequence, the packet whose fragment opened the group. -/
structure FragmentLink where
  connection : Connection := {}
  packets : List Bytes := []
  wire : List (ℕ × Bytes) := []
  passed : ℕ := 0
  reassembler : Reassembler := {}
  started : UInt16 → ℕ := fun _ => 0
  returned : List Bytes := []

namespace FragmentLink

inductive Event
  | send (packet : Bytes)
  | deliver (k : ℕ) (order : VisitOrder) (datagram : ℕ × Bytes)

def send (s : FragmentLink) (packet : Bytes) : FragmentLink :=
  let h := s.connection.nextHeader
  { s with
    connection := h.2
    packets := s.packets ++ [packet]
    wire := s.wire ++ (fragment h.1.sequence packet).map fun d => (s.packets.length, d) }

def deliver (s : FragmentLink) (k : ℕ) (order : VisitOrder) (datagram : ℕ × Bytes) :
    FragmentLink :=
  let r := s.reassembler.reassemble order datagram.2
  let t := sequenceAt datagram.1
  { s with
    passed := k + 1
    reassembler := r.2
    started := if s.reassembler.groups.lookup t = none then
      Function.update s.started t datagram.1 else s.started
    returned := s.returned ++ r.1.toList }

def machine : Machine FragmentLink Event where
  init := {}
  Enabled s e := match e with
    | .send packet => packet.length ≤ 255 * kMaxFragmentSize
    | .deliver k _ datagram => s.passed ≤ k ∧ s.wire[k]? = some datagram
  next s e := match e with
    | .send packet => s.send packet
    | .deliver k order datagram => s.deliver k order datagram

/-- A group that an earlier packet left behind turns the arriving fragment away. -/
def Unmixed (s : FragmentLink) : Event → Prop
  | .send _ => True
  | .deliver _ _ datagram => ∀ header chunk g,
      FragmentHeader.decode datagram.2 = some (header, chunk) →
      s.reassembler.groups.lookup header.packetSeq = some g →
      s.started header.packetSeq ≠ datagram.1 → Reassembler.Rejects g header

structure Sound (s : FragmentLink) : Prop where
  localSequence : s.connection.localSequence = sequenceAt s.packets.length
  bounded : ∀ p ∈ s.packets, p.length ≤ 255 * kMaxFragmentSize
  wire : ∀ d ∈ s.wire, ∃ p, s.packets[d.1]? = some p ∧
    ∃ i < fragmentCount p.length, d.2 = datagram (sequenceAt d.1) p i
  groups : ∀ t g, s.reassembler.groups.lookup t = some g →
    ∃ p, s.packets[s.started t]? = some p ∧ g.Holds p
  returned : ∀ b ∈ s.returned, b ∈ s.packets

namespace Sound

variable {s : FragmentLink}

theorem init : Sound {} := by
  constructor <;> simp [sequenceAt]

theorem getElem?_send {s : FragmentLink} {packet p : Bytes} {n : ℕ} (h : s.packets[n]? = some p) :
    (s.send packet).packets[n]? = some p := by
  have hn := (List.getElem?_eq_some_iff.mp h).1
  exact (List.getElem?_append_left hn).trans h

theorem send (h : s.Sound) {packet : Bytes} (hp : packet.length ≤ 255 * kMaxFragmentSize) :
    (s.send packet).Sound := by
  have hpackets : (s.send packet).packets = s.packets ++ [packet] := rfl
  refine ⟨?_, fun p hmem => ?_, fun d hd => ?_, fun t g hg => ?_, fun b hb => ?_⟩
  · rw [hpackets, List.length_append, List.length_singleton]
    exact Connection.nextHeader_localSequence h.localSequence
  · rcases List.mem_append.mp hmem with hmem | hmem
    · exact h.bounded p hmem
    · rwa [List.mem_singleton.mp hmem]
  · rcases List.mem_append.mp hd with hd | hd
    · obtain ⟨p, hget, hfrag⟩ := h.wire d hd
      exact ⟨p, getElem?_send hget, hfrag⟩
    · obtain ⟨d', hd', rfl⟩ := List.mem_map.mp hd
      have hseq : s.connection.nextHeader.1.sequence = sequenceAt s.packets.length :=
        h.localSequence
      rw [hseq, fragment_eq] at hd'
      obtain ⟨i, hi, rfl⟩ := List.mem_map.mp hd'
      exact ⟨packet, List.getElem?_concat_length, i, List.mem_range.mp hi, rfl⟩
  · obtain ⟨p, hget, hholds⟩ := h.groups t g hg
    exact ⟨p, getElem?_send hget, hholds⟩
  · exact List.mem_append_left _ (h.returned b hb)

theorem of_reassemble (h : s.Sound) {k : ℕ} {order : VisitOrder} {d : ℕ × Bytes} {p : Bytes}
    {out : Option Bytes} {r : Reassembler} (hget : s.packets[d.1]? = some p)
    (hr : s.reassembler.reassemble order d.2 = (out, r)) (hout : ∀ b, out = some b → b = p)
    (hgroups : ∀ t g, r.groups.lookup t = some g →
      s.reassembler.groups.lookup t = some g ∨ t = sequenceAt d.1 ∧ g.Holds p ∧
        (s.reassembler.groups.lookup t = none ∨ s.started t = d.1)) :
    (s.deliver k order d).Sound := by
  have hstarted : ∀ t, (s.deliver k order d).started t =
      if s.reassembler.groups.lookup (sequenceAt d.1) = none ∧ t = sequenceAt d.1 then d.1
      else s.started t := by
    intro t
    simp only [FragmentLink.deliver]
    by_cases hnone : s.reassembler.groups.lookup (sequenceAt d.1) = none
    · by_cases ht : t = sequenceAt d.1
      · simp [hnone, ht]
      · simp [hnone, ht]
    · simp [hnone]
  refine ⟨h.localSequence, h.bounded, h.wire, fun t g hg => ?_, fun b hb => ?_⟩
  · have hlook : r.groups.lookup t = some g := by
      simpa only [FragmentLink.deliver, hr] using hg
    rw [hstarted]
    rcases hgroups t g hlook with hold | ⟨ht, hholds, hnew⟩
    · rw [if_neg]
      · exact h.groups t g hold
      · intro hboth
        rw [hboth.2, hboth.1] at hold
        exact absurd hold (by simp)
    · refine ⟨p, ?_, hholds⟩
      rcases hnew with hnone | hsame
      · rwa [if_pos ⟨ht ▸ hnone, ht⟩]
      · split_ifs
        · exact hget
        · rwa [hsame]
  · have hmem : b ∈ s.returned ∨ out = some b := by
      simpa only [FragmentLink.deliver, hr, List.mem_append, Option.mem_toList,
        Option.mem_def] using hb
    rcases hmem with hmem | hmem
    · exact h.returned b hmem
    · rw [hout b hmem]
      exact List.mem_of_getElem? hget

section Deliver

variable {k i : ℕ} {order : VisitOrder} {d : ℕ × Bytes} {p : Bytes}

theorem deliver_created (h : s.Sound) (hget : s.packets[d.1]? = some p)
    (hd : d.2 = datagram (sequenceAt d.1) p i) (hi : i < fragmentCount p.length)
    (hmultiple : 1 < fragmentCount p.length)
    (hlook : s.reassembler.groups.lookup (sequenceAt d.1) = none) :
    (s.deliver k order d).Sound := by
  have hp := h.bounded p (List.mem_of_getElem? hget)
  obtain ⟨groups, hsub, -, hr⟩ := Reassembler.reassemble_created order hp hmultiple hi hlook
  have hopened := holds_fresh hp hmultiple
  have hlen := hopened.length
  have hput := hopened.put hp (i := i) (by omega)
    (by simp only [Reassembler.fresh, List.getElem_replicate])
  rw [← hd] at hr
  apply h.of_reassemble hget hr (fun b hb => absurd hb (by simp))
  intro t g hg
  rcases lookup_of_insert hg with ⟨ht, hgroup⟩ | hold
  · exact Or.inr ⟨ht, hgroup ▸ hput, Or.inl (ht ▸ hlook)⟩
  · exact Or.inl (hsub t g hold)

theorem deliver_found (h : s.Sound) (hget : s.packets[d.1]? = some p)
    (hd : d.2 = datagram (sequenceAt d.1) p i) (hi : i < fragmentCount p.length)
    (hmultiple : 1 < fragmentCount p.length) {g : Group}
    (hlook : s.reassembler.groups.lookup (sequenceAt d.1) = some g)
    (hunmixed : s.started (sequenceAt d.1) ≠ d.1 →
      Reassembler.Rejects g (fragmentHeader (sequenceAt d.1) p i)) :
    (s.deliver k order d).Sound := by
  have hp := h.bounded p (List.mem_of_getElem? hget)
  have hr := Reassembler.reassemble_found order hp hmultiple hi hlook
  rw [← hd] at hr
  by_cases hreject : Reassembler.Rejects g (fragmentHeader (sequenceAt d.1) p i)
  · rw [Reassembler.store_rejects hreject] at hr
    exact h.of_reassemble hget hr (fun b hb => absurd hb (by simp)) fun t g hg => Or.inl hg
  · -- a group that accepts the fragment was opened by its own packet
    have hsame : s.started (sequenceAt d.1) = d.1 := by
      by_contra hne
      exact hreject (hunmixed hne)
    obtain ⟨q, hq, hholds⟩ := h.groups _ _ hlook
    rw [hsame, hget, Option.some.injEq] at hq
    subst hq
    obtain ⟨hput, hstore⟩ := Reassembler.store_holds (r := s.reassembler) hholds hp hi hreject
    rw [hstore] at hr
    split_ifs at hr
    · apply h.of_reassemble hget hr (fun b hb => absurd hb (by simp))
      intro t g' hg
      rcases lookup_of_insert hg with ⟨ht, hgroup⟩ | hold
      · exact Or.inr ⟨ht, hgroup ▸ hput, Or.inr (ht ▸ hsame)⟩
      · exact Or.inl hold
    · apply h.of_reassemble hget hr (fun b hb => (Option.some.inj hb).symm)
      intro t g' hg
      exact Or.inl (lookup_of_erase hg)

theorem deliver (h : s.Sound) (hk : s.wire[k]? = some d)
    (hunmixed : s.Unmixed (.deliver k order d)) : (s.deliver k order d).Sound := by
  obtain ⟨p, hget, i, hi, hd⟩ := h.wire d (List.mem_of_getElem? hk)
  have hdecode : FragmentHeader.decode d.2 =
      some (fragmentHeader (sequenceAt d.1) p i, piece kMaxFragmentSize p i) :=
    hd ▸ FragmentHeader.decode_encode _ _
  rcases Nat.lt_or_ge 1 (fragmentCount p.length) with hmultiple | hone
  · cases hlook : s.reassembler.groups.lookup (sequenceAt d.1) with
    | none => exact h.deliver_created hget hd hi hmultiple hlook
    | some g => exact h.deliver_found hget hd hi hmultiple hlook (hunmixed _ _ g hdecode hlook)
  · have hcount : fragmentCount p.length = 1 := by
      have hpos := fragmentCount_pos p.length
      omega
    obtain rfl : i = 0 := by omega
    have hr : s.reassembler.reassemble order d.2 = (some p, s.reassembler) :=
      hd ▸ Reassembler.reassemble_whole hcount
    exact h.of_reassemble hget hr (fun b hb => (Option.some.inj hb).symm) fun t g hg => Or.inl hg

end Deliver

end Sound

theorem sound_of_unmixed {s : FragmentLink} (h : machine.ReachableUnder Unmixed s) :
    s.Sound := by
  apply Machine.ReachableUnder.invariant Sound.init _ h
  intro s e hs hunmixed he
  cases e with
  | send packet => exact hs.send he
  | deliver k order d => exact hs.deliver he.2 hunmixed

@[irreducible] def filledWith (x : UInt8) : Bytes := List.replicate 1025 x

theorem fragmentCount_filledWith (x : UInt8) : fragmentCount (filledWith x).length = 2 := by
  rw [filledWith, List.length_replicate]
  rfl

theorem length_filledWith (x : UInt8) : (filledWith x).length ≤ 255 * kMaxFragmentSize := by
  rw [filledWith, List.length_replicate]
  decide

def idle : ℕ → FragmentLink → FragmentLink
  | 0, s => s
  | n + 1, s => (idle n s).send []

structure Idled (s t : FragmentLink) (n : ℕ) : Prop where
  reachable : machine.ReachableUnder Unmixed t
  packets : t.packets = s.packets ++ List.replicate n []
  wire : t.wire.length = s.wire.length + n
  passed : t.passed = s.passed
  reassembler : t.reassembler = s.reassembler

theorem idled_idle {s : FragmentLink} (h : machine.ReachableUnder Unmixed s) (n : ℕ) :
    Idled s (idle n s) n := by
  induction n with
  | zero => exact ⟨h, by simp [idle], rfl, rfl, rfl⟩
  | succ n ih =>
    refine ⟨ih.reachable.step (.send []) trivial (Nat.zero_le _), ?_, ?_, ih.passed,
      ih.reassembler⟩
    · change (idle n s).packets ++ [[]] = _
      rw [ih.packets, List.append_assoc, ← List.replicate_succ']
    · change ((idle n s).wire ++ _).length = _
      rw [List.length_append, ih.wire, List.length_map, fragment_eq]
      rfl

def orphan (chunk : Bytes) : Group := ⟨2, 1, [chunk, []]⟩

theorem store_orphan (r : Reassembler) (t : UInt16) (first second : Bytes) :
    r.store ⟨t, 1, 2⟩ second (orphan first) = (some (first ++ second), ⟨r.groups.erase t⟩) := by
  simp [Reassembler.store, orphan]

theorem wire_send {s : FragmentLink} {p : Bytes} {t : UInt16} {i k n : ℕ}
    (hi : i < fragmentCount p.length) (hseq : s.connection.localSequence = t)
    (hk : k = s.wire.length + i) (hn : n = s.packets.length) :
    (s.send p).wire[k]? = some (n, datagram t p i) := by
  have hsent : s.connection.nextHeader.1.sequence = t := hseq
  have hrange : (List.range (fragmentCount p.length))[i]? = some i := List.getElem?_range hi
  simp only [send, hsent, fragment_eq, List.map_map, hk, hn]
  rw [List.getElem?_append_right (Nat.le_add_right _ _), Nat.add_sub_cancel_left,
    List.getElem?_map, hrange]
  rfl

theorem fragmentHeader_filledWith (t : UInt16) (x : UInt8) (i : ℕ) :
    fragmentHeader t (filledWith x) i = ⟨t, UInt8.ofNat i, 2⟩ := by
  rw [fragmentHeader, fragmentCount_filledWith]
  rfl

def lost : FragmentLink :=
  (({} : FragmentLink).send (filledWith 0)).deliver 0 VisitOrder.ascending
    (0, datagram 1 (filledWith 0) 0)

theorem lost_reachable : machine.ReachableUnder Unmixed lost := by
  have hinit : machine.ReachableUnder Unmixed {} := Machine.ReachableUnder.init
  have hsent := hinit.step (.send (filledWith 0)) trivial (length_filledWith 0)
  have hwire : (({} : FragmentLink).send (filledWith 0)).wire[0]? =
      some (0, datagram 1 (filledWith 0) 0) :=
    wire_send (by rw [fragmentCount_filledWith]; omega) rfl rfl rfl
  exact hsent.step (.deliver 0 VisitOrder.ascending (0, datagram 1 (filledWith 0) 0))
    (fun header chunk g _ _ hne => absurd rfl hne) ⟨le_rfl, hwire⟩

theorem reassemble_first {r : Reassembler} {t : UInt16} (x : UInt8)
    (hnone : r.groups.lookup t = none) (hroom : r.groups.keys.card < kMaxGroups) :
    r.reassemble VisitOrder.ascending (datagram t (filledWith x) 0) =
      (none, ⟨r.groups.insert t (orphan (piece kMaxFragmentSize (filledWith x) 0))⟩) := by
  have hmultiple : 2 ≤ fragmentCount (filledWith x).length := (fragmentCount_filledWith x).ge
  obtain ⟨groups, -, hsame, hr⟩ := Reassembler.reassemble_created (i := 0) VisitOrder.ascending
    (length_filledWith x) hmultiple (by rw [fragmentCount_filledWith]; omega) hnone
  rw [hr, hsame hroom, fragmentHeader_filledWith]
  rfl

theorem reassemble_second {r : Reassembler} {t : UInt16} {first : Bytes} (x : UInt8)
    (hg : r.groups.lookup t = some (orphan first)) :
    r.reassemble VisitOrder.ascending (datagram t (filledWith x) 1) =
      (some (first ++ piece kMaxFragmentSize (filledWith x) 1), ⟨r.groups.erase t⟩) := by
  have hmultiple : 2 ≤ fragmentCount (filledWith x).length := (fragmentCount_filledWith x).ge
  rw [Reassembler.reassemble_found _ (length_filledWith x) hmultiple hmultiple hg,
    fragmentHeader_filledWith]
  exact store_orphan r t first _

theorem reassembler_lost : lost.reassembler =
    ⟨(∅ : Finmap fun _ : UInt16 => Group).insert 1
      (orphan (piece kMaxFragmentSize (filledWith 0) 0))⟩ := by
  have hfirst := reassemble_first (r := {}) (t := 1) 0 rfl (by decide)
  have hlost : lost.reassembler = (({} : Reassembler).reassemble VisitOrder.ascending
      (datagram 1 (filledWith 0) 0)).2 := by
    simp only [lost, deliver, send]
  rw [hlost, hfirst]

theorem piece_filledWith_zero (x : UInt8) :
    piece kMaxFragmentSize (filledWith x) 0 = List.replicate 1024 x := by
  simp only [piece, filledWith, List.drop_replicate, List.take_replicate]
  rfl

theorem piece_filledWith_one (x : UInt8) : piece kMaxFragmentSize (filledWith x) 1 = [x] := by
  simp only [piece, filledWith, List.drop_replicate, List.take_replicate]
  rfl

theorem pieces_filledWith (x : UInt8) : piece kMaxFragmentSize (filledWith x) 0 ++
    piece kMaxFragmentSize (filledWith x) 1 = filledWith x := by
  rw [piece_filledWith_zero, piece_filledWith_one, filledWith]
  exact List.replicate_succ'.symm

@[irreducible] def threefold : Bytes := List.replicate 2049 2

theorem fragmentCount_threefold : fragmentCount threefold.length = 3 := by
  rw [threefold, List.length_replicate]
  rfl

theorem header_of_decode {t : UInt16} {p : Bytes} {i : ℕ} {header : FragmentHeader} {chunk : Bytes}
    (h : FragmentHeader.decode (datagram t p i) = some (header, chunk)) :
    header = fragmentHeader t p i :=
  (Prod.mk.inj (Option.some.inj (h.symm.trans (FragmentHeader.decode_encode _ _)))).1

def turnedAway (k n : ℕ) : List Event :=
  [.send threefold, .deliver k VisitOrder.ascending (n, datagram 1 threefold 0)]

theorem runFrom_turnedAway {s : FragmentLink} (hs : s.Sound) {first : Bytes} {k n : ℕ}
    (hstale : s.reassembler.groups.lookup 1 = some (orphan first))
    (hseq : sequenceAt s.packets.length = 1) (hpassed : s.passed ≤ k) (hk : k = s.wire.length)
    (hn : n = s.packets.length) : machine.AdmitsUnder Unmixed s (turnedAway k n) ∧
      (machine.runFrom s (turnedAway k n)).reassembler = s.reassembler ∧
      (machine.runFrom s (turnedAway k n)).packets.length = n + 1 ∧
      (machine.runFrom s (turnedAway k n)).wire.length = k + 3 ∧
      (machine.runFrom s (turnedAway k n)).passed = k + 1 := by
  have hbound : threefold.length ≤ 255 * kMaxFragmentSize := by
    rw [threefold, List.length_replicate]
    decide
  have hmultiple : 2 ≤ fragmentCount threefold.length := by
    rw [fragmentCount_threefold]
    omega
  have hrejects : Reassembler.Rejects (orphan first) (fragmentHeader 1 threefold 0) := by
    refine Or.inl ?_
    rw [fragmentHeader, fragmentCount_threefold]
    exact (by decide : (3 : UInt8) ≠ 2)
  have hrejected : s.reassembler.reassemble VisitOrder.ascending (datagram 1 threefold 0) =
      (none, s.reassembler) :=
    (Reassembler.reassemble_found _ hbound hmultiple (by omega) hstale).trans
      (Reassembler.store_rejects hrejects)
  have hwire : (s.send threefold).wire[k]? = some (n, datagram 1 threefold 0) :=
    wire_send (by omega) (hs.localSequence.trans hseq) hk hn
  have hrun : machine.runFrom s (turnedAway k n) =
      (s.send threefold).deliver k VisitOrder.ascending (n, datagram 1 threefold 0) := rfl
  refine ⟨⟨trivial, hbound, ?_, ⟨hpassed, hwire⟩, trivial⟩, ?_, ?_, ?_, rfl⟩
  · intro header chunk g hdecode hg _
    obtain rfl := header_of_decode hdecode
    obtain rfl := Option.some.inj (hstale.symm.trans hg)
    exact hrejects
  · simp only [hrun, deliver, send, hrejected]
  · change (s.packets ++ [threefold]).length = n + 1
    rw [List.length_append, hn, List.length_singleton]
  · change (s.send threefold).wire.length = _
    simp only [send, fragment_eq, fragmentCount_threefold, List.length_append, List.length_map,
      List.length_range, hk]

def paired (t : UInt16) (k n : ℕ) (x : UInt8) : List Event :=
  [.send (filledWith x), .deliver k VisitOrder.ascending (n, datagram t (filledWith x) 0),
    .deliver (k + 1) VisitOrder.ascending (n, datagram t (filledWith x) 1)]

theorem runFrom_paired {s : FragmentLink} (hs : s.Sound) {t : UInt16} {k n : ℕ} {x : UInt8}
    (hfree : s.reassembler.groups.lookup t = none)
    (hroom : s.reassembler.groups.keys.card < kMaxGroups)
    (hseq : sequenceAt s.packets.length = t) (hpassed : s.passed ≤ k) (hk : k = s.wire.length)
    (hn : n = s.packets.length) : machine.AdmitsUnder Unmixed s (paired t k n x) ∧
      filledWith x ∈ (machine.runFrom s (paired t k n x)).returned ∧
      ∀ u ≠ t, (machine.runFrom s (paired t k n x)).reassembler.groups.lookup u =
        s.reassembler.groups.lookup u := by
  have hfirst := reassemble_first x hfree hroom
  generalize hopened : orphan (piece kMaxFragmentSize (filledWith x) 0) = g at hfirst
  have hg : (s.reassembler.groups.insert t g).lookup t =
      some (orphan (piece kMaxFragmentSize (filledWith x) 0)) := by
    rw [Finmap.lookup_insert, hopened]
  have hsecond := reassemble_second (r := ⟨s.reassembler.groups.insert t g⟩) x hg
  rw [pieces_filledWith] at hsecond
  have hwire : ∀ i < 2, (s.send (filledWith x)).wire[k + i]? =
      some (n, datagram t (filledWith x) i) := fun i hi =>
    wire_send (by rwa [fragmentCount_filledWith]) (hs.localSequence.trans hseq) (by rw [hk]) hn
  have hstarted : ((s.send (filledWith x)).deliver k VisitOrder.ascending
      (n, datagram t (filledWith x) 0)).started t = n := by
    have hnone : (s.send (filledWith x)).reassembler.groups.lookup (sequenceAt n) = none := by
      rw [hn, hseq]
      exact hfree
    simp only [deliver, if_pos hnone]
    rw [hn, hseq, Function.update_self]
  refine ⟨⟨trivial, length_filledWith x, ?_, ⟨hpassed, hwire 0 (by omega)⟩, ?_,
    ⟨le_rfl, hwire 1 (by omega)⟩, trivial⟩, ?_, fun u hu => ?_⟩
  · intro header chunk g' hdecode hg' _
    obtain rfl := header_of_decode hdecode
    exact absurd (hfree.symm.trans hg') (Option.some_ne_none g').symm
  · intro header chunk g' hdecode _ hne
    obtain rfl := header_of_decode hdecode
    exact absurd hstarted hne
  · change filledWith x ∈ _ ++ ((s.reassembler.reassemble VisitOrder.ascending
      (datagram t (filledWith x) 0)).2.reassemble VisitOrder.ascending
        (datagram t (filledWith x) 1)).1.toList
    rw [hfirst, hsecond]
    exact List.mem_append_right _ (List.mem_singleton_self _)
  · change ((s.reassembler.reassemble VisitOrder.ascending
      (datagram t (filledWith x) 0)).2.reassemble VisitOrder.ascending
        (datagram t (filledWith x) 1)).2.groups.lookup u = _
    rw [hfirst, hsecond, Finmap.lookup_erase_ne hu, Finmap.lookup_insert_of_ne _ hu]

/-- A sequence comes round to the orphan that `lost` left, which turns the new fragment away, and
the packet after it is put together next to the orphan. -/
def staleRun : List Event := turnedAway 65536 65535 ++ paired 2 65539 65536 1

theorem stale {s : FragmentLink} (h : Idled lost s 65534) :
    machine.AdmitsUnder Unmixed s staleRun ∧
      filledWith 1 ∈ (machine.runFrom s staleRun).returned ∧
      (machine.runFrom s staleRun).reassembler.groups.lookup 1 =
        some (orphan (piece kMaxFragmentSize (filledWith 0) 0)) := by
  have hlen : s.packets.length = 65535 := by
    rw [h.packets, List.length_append, List.length_replicate]
    rfl
  have hwire : s.wire.length = 65536 := by
    rw [h.wire]
    simp only [lost, deliver, send, fragment_eq, fragmentCount_filledWith]
    rfl
  have hgroups := h.reassembler.trans reassembler_lost
  have horphan : s.reassembler.groups.lookup 1 =
      some (orphan (piece kMaxFragmentSize (filledWith 0) 0)) := by
    rw [hgroups, Finmap.lookup_insert]
  obtain ⟨hadmits, hsame, hpackets, hwires, hpassed⟩ :=
    runFrom_turnedAway (sound_of_unmixed h.reachable) horphan (by rw [hlen]; decide)
      (k := 65536) (h.passed.le.trans (Nat.le_of_ble_eq_true rfl)) hwire.symm hlen.symm
  have hreach := h.reachable.runFrom hadmits
  rw [staleRun, Machine.admitsUnder_append, Machine.runFrom_append]
  generalize machine.runFrom s (turnedAway 65536 65535) = t at *
  have hfree : t.reassembler.groups.lookup 2 = none := by
    rw [hsame, hgroups, Finmap.lookup_insert_of_ne _ (by decide)]
    rfl
  have hroom : t.reassembler.groups.keys.card < kMaxGroups := by
    rw [hsame, hgroups]
    exact Nat.one_lt_two_pow (by omega : 4 ≠ 0)
  obtain ⟨hadmits', hreturned, hothers⟩ := runFrom_paired (x := 1) (sound_of_unmixed hreach) hfree
    hroom (by rw [hpackets]; decide) (by omega) hwires.symm hpackets.symm
  refine ⟨⟨hadmits, hadmits'⟩, hreturned, ?_⟩
  rw [hothers 1 (by decide), hsame]
  exact horphan

/-- In a run that never mixes two packets, what is reassembled is what was sent. -/
theorem returned_sent {s : FragmentLink} (h : machine.ReachableUnder Unmixed s) :
    ∀ b ∈ s.returned, b ∈ s.packets :=
  (sound_of_unmixed h).returned

theorem returned_sent_staleRun :
    let s := machine.runFrom (idle 65534 lost) staleRun
    (filledWith 1 ∈ s.returned ∧ ∀ b ∈ s.returned, b ∈ s.packets) ∧
      s.reassembler.groups.lookup 1 =
        some (orphan (piece kMaxFragmentSize (filledWith 0) 0)) := by
  intro s
  have hidled : Idled lost (idle 65534 lost) 65534 := idled_idle lost_reachable 65534
  obtain ⟨hadmits, hreturned, hstale⟩ := stale hidled
  have hreach : machine.ReachableUnder Unmixed s := hidled.reachable.runFrom hadmits
  exact ⟨⟨hreturned, returned_sent hreach⟩, hstale⟩

def mixture : Bytes := List.replicate 1024 0 ++ [1]

theorem mixture_notMem (n : ℕ) :
    mixture ∉ [filledWith 0] ++ List.replicate n [] ++ [filledWith 1] := by
  have hone : (1 : UInt8) ∈ mixture := List.mem_append_right _ List.mem_cons_self
  have hzero : (0 : UInt8) ∈ mixture :=
    List.mem_append_left _ (List.mem_replicate.mpr ⟨by omega, rfl⟩)
  intro hmem
  rcases List.mem_append.mp hmem with hmem | hmem
  · rcases List.mem_append.mp hmem with hmem | hmem
    · rw [List.mem_singleton.mp hmem, filledWith] at hone
      exact absurd (List.eq_of_mem_replicate hone) (by decide)
    · rw [List.eq_of_mem_replicate hmem] at hone
      exact absurd hone List.not_mem_nil
  · rw [List.mem_singleton.mp hmem, filledWith] at hzero
    exact absurd (List.eq_of_mem_replicate hzero) (by decide)

/-- The sequence of the lost packet is used again while its group is still there. -/
theorem mixes_packets : ¬ ∀ s, machine.Reachable s → ∀ b ∈ s.returned, b ∈ s.packets := by
  intro hclaim
  obtain ⟨s, hs⟩ : ∃ s, Idled lost s 65534 := ⟨_, idled_idle lost_reachable 65534⟩
  have hpackets : s.packets = [filledWith 0] ++ List.replicate 65534 [] := hs.packets
  have hlen : s.packets.length = 65535 := by
    rw [hpackets, List.length_append, List.length_singleton, List.length_replicate]
  have hseq : s.connection.localSequence = 1 := by
    rw [(sound_of_unmixed hs.reachable).localSequence, hlen]
    decide
  have hsecond : 1 < fragmentCount (filledWith 1).length := (fragmentCount_filledWith 1).ge
  have hwire := wire_send hsecond hseq rfl hlen.symm
  have hpassed : s.passed ≤ s.wire.length + 1 := by
    rw [hs.passed]
    exact Nat.le_add_left 1 _
  have hsent := hs.reachable.reachable.step (.send (filledWith 1)) (length_filledWith 1)
  have hreach := hsent.step
    (.deliver (s.wire.length + 1) VisitOrder.ascending (65535, datagram 1 (filledWith 1) 1))
    ⟨hpassed, hwire⟩
  have hstale : s.reassembler.groups.lookup 1 =
      some (orphan (piece kMaxFragmentSize (filledWith 0) 0)) := by
    rw [hs.reassembler, reassembler_lost, Finmap.lookup_insert]
  have hout := reassemble_second 1 hstale
  rw [piece_filledWith_zero, piece_filledWith_one] at hout
  have hmem := hclaim _ hreach mixture (List.mem_append_right _ (by
    change mixture ∈ (s.reassembler.reassemble VisitOrder.ascending
      (datagram 1 (filledWith 1) 1)).1.toList
    rw [hout]
    exact List.mem_singleton_self _))
  change mixture ∈ s.packets ++ [filledWith 1] at hmem
  rw [hpackets] at hmem
  exact mixture_notMem _ hmem

end FragmentLink

end Netcode.Transport
