import Mathlib.Data.Finset.Max
import Netcode.Library.Machine
import Netcode.Transport.Connection

/-!
# Headers on a link that promises nothing

Two connections exchange headers over a link on which every header ever issued
may arrive at any later moment, any number of times or never. The slots of the
packets of `a` that arrived stay set at `b`, so a header of `b` names every
arrived sequence up to 32 below its newest one, and `a` keeps an acknowledged
slot until it issues into it. While each arrival is within half a lap of the
newest packet, the newest sequence `b` knows is that of the newest packet.
-/

namespace Netcode.Transport

open Netcode.Library

/-- `arrived` has the positions in `fromA` of the packets that reached `b`. -/
structure HeaderLink where
  a : Connection := {}
  b : Connection := {}
  fromA : List PacketHeader := []
  fromB : List PacketHeader := []
  arrived : Finset ℕ := ∅

namespace HeaderLink

inductive Event
  | issueA
  | issueB
  | arriveB (k : ℕ) (header : PacketHeader)
  | arriveA (k : ℕ) (header : PacketHeader)

def issueA (p : HeaderLink) : HeaderLink :=
  { p with a := p.a.nextHeader.2, fromA := p.fromA ++ [p.a.nextHeader.1] }

def issueB (p : HeaderLink) : HeaderLink :=
  { p with b := p.b.nextHeader.2, fromB := p.fromB ++ [p.b.nextHeader.1] }

def arriveB (p : HeaderLink) (k : ℕ) (header : PacketHeader) : HeaderLink :=
  { p with b := p.b.onReceived header, arrived := insert k p.arrived }

def arriveA (p : HeaderLink) (header : PacketHeader) : HeaderLink :=
  { p with a := p.a.onReceived header }

def machine : Machine HeaderLink Event where
  init := {}
  Enabled p e := match e with
    | .issueA | .issueB => True
    | .arriveB k header => p.fromA[k]? = some header
    | .arriveA k header => p.fromB[k]? = some header
  next p e := match e with
    | .issueA => p.issueA
    | .issueB => p.issueB
    | .arriveB k header => p.arriveB k header
    | .arriveA _ header => p.arriveA header

instance instDecidableEnabled (p : HeaderLink) : (e : Event) → Decidable (machine.Enabled p e)
  | .issueA | .issueB => isTrue trivial
  | .arriveB k header => inferInstanceAs (Decidable (p.fromA[k]? = some header))
  | .arriveA k header => inferInstanceAs (Decidable (p.fromB[k]? = some header))

def Newest (p : HeaderLink) (m : ℕ) : Prop := m ∈ p.arrived ∧ ∀ j ∈ p.arrived, j ≤ m

/-- An arriving packet was issued within 32766 packets of the newest one. -/
def Near (p : HeaderLink) : Event → Prop
  | .arriveB k _ => ∀ m, p.Newest m → k ≤ m + 32766 ∧ m ≤ k + 32766
  | _ => True

instance instDecidableNear (p : HeaderLink) : (e : Event) → Decidable (p.Near e)
  | .arriveB k _ => decidable_of_iff
      (∀ m ∈ p.arrived, (∀ j ∈ p.arrived, j ≤ m) → k ≤ m + 32766 ∧ m ≤ k + 32766)
      ⟨fun h m hm => h m hm.1 hm.2, fun h m hm hle => h m ⟨hm, hle⟩⟩
  | .issueA | .issueB | .arriveA _ _ => isTrue trivial

/-- The next packet of `a` does not take the slot of `s`. -/
def Keeps (s : UInt16) (p : HeaderLink) : Event → Prop
  | .issueA => slot p.a.localSequence ≠ slot s
  | _ => True

instance instDecidableKeeps (s : UInt16) (p : HeaderLink) :
    (e : Event) → Decidable (Keeps s p e)
  | .issueA => inferInstanceAs (Decidable (slot p.a.localSequence ≠ slot s))
  | .issueB | .arriveB _ _ | .arriveA _ _ => isTrue trivial

structure Remembers (p : HeaderLink) : Prop where
  sequences : ∀ (k : ℕ) header, p.fromA[k]? = some header → header.sequence = sequenceAt k
  localSequence : p.a.localSequence = sequenceAt p.fromA.length
  issued : ∀ k ∈ p.arrived, k < p.fromA.length
  received : ∀ k ∈ p.arrived, p.b.received (slot (sequenceAt k)) = true
  receivedAny : p.b.receivedAny = true ↔ p.arrived.Nonempty
  remote : p.arrived.Nonempty → ∃ m ∈ p.arrived, p.b.remoteSequence = sequenceAt m

namespace Remembers

variable {p : HeaderLink}

theorem init : Remembers {} := by
  constructor <;> simp [sequenceAt]

theorem issueA (h : p.Remembers) : p.issueA.Remembers := by
  have hlen : p.issueA.fromA.length = p.fromA.length + 1 := by
    simp only [HeaderLink.issueA, List.length_append, List.length_singleton]
  refine { h with sequences := fun k header hk => ?_, localSequence := ?_,
                  issued := fun k hk => ?_ }
  · exact Connection.nextHeader_issued h.localSequence h.sequences hk
  · exact hlen ▸ Connection.nextHeader_localSequence h.localSequence
  · have hold := h.issued k hk
    omega

theorem issueB (h : p.Remembers) : p.issueB.Remembers := { h with }

theorem arriveA (h : p.Remembers) (header : PacketHeader) : (p.arriveA header).Remembers :=
  { h with localSequence := (Connection.onReceived_localSequence _ _).trans h.localSequence }

theorem arriveB (h : p.Remembers) {k : ℕ} {header : PacketHeader}
    (hk : p.fromA[k]? = some header) : (p.arriveB k header).Remembers := by
  have hseq := h.sequences k header hk
  have hkl := (List.getElem?_eq_some_iff.mp hk).1
  have hremote : (p.arriveB k header).b.remoteSequence =
      (p.b.recordReceived header.sequence).remoteSequence :=
    Connection.onReceived_remoteSequence _ _
  refine { h with issued := fun j hj => ?_, received := fun j hj => ?_,
                  receivedAny := ?_, remote := fun _ => ?_ }
  · rcases Finset.mem_insert.mp hj with hjk | hold
    · exact hjk ▸ hkl
    · exact h.issued j hold
  · apply (Connection.received_onReceived ..).mpr
    rcases Finset.mem_insert.mp hj with hjk | hold
    · exact Or.inr (by rw [hjk, hseq])
    · exact Or.inl (h.received j hold)
  · exact iff_of_true (Connection.onReceived_receivedAny _ _) ⟨k, Finset.mem_insert_self _ _⟩
  · rw [hremote]
    rcases p.b.recordReceived_remoteSequence header.sequence with hnew | ⟨hany, hold⟩
    · exact ⟨k, Finset.mem_insert_self _ _, hnew.trans hseq⟩
    · obtain ⟨m, hm, hrm⟩ := h.remote (h.receivedAny.mp hany)
      exact ⟨m, Finset.mem_insert_of_mem hm, hold.trans hrm⟩

theorem step (h : p.Remembers) {e : Event} (he : machine.Enabled p e) :
    (machine.next p e).Remembers := by
  cases e with
  | issueA => exact h.issueA
  | issueB => exact h.issueB
  | arriveB k header => exact h.arriveB he
  | arriveA k header => exact h.arriveA header

theorem of_reachable (h : machine.Reachable p) : p.Remembers :=
  Machine.Reachable.invariant init (fun _ _ hi he => hi.step he) h

end Remembers

variable {p : HeaderLink} {k : ℕ} {header : PacketHeader} {s : UInt16}

theorem acked_arriveA (p : HeaderLink) (hack : header.Acknowledges s) :
    (p.arriveA header).a.isAcked s = true :=
  (Connection.onReceived_acked ..).mpr (Or.inr ⟨s, hack, rfl⟩)

theorem acked_next (hs : p.a.isAcked s = true) {e : Event} (hkeeps : Keeps s p e) :
    (machine.next p e).a.isAcked s = true := by
  cases e with
  | issueA => exact (Function.update_of_ne (Ne.symm hkeeps) _ _).trans hs
  | issueB => exact hs
  | arriveB k header => exact hs
  | arriveA k header => exact (Connection.onReceived_acked ..).mpr (Or.inl hs)

theorem Remembers.acknowledges (h : p.Remembers) (hk : k ∈ p.arrived)
    (hheader : p.fromA[k]? = some header)
    (hnear : (p.b.remoteSequence - header.sequence).toNat ≤ 32) :
    p.b.nextHeader.1.Acknowledges header.sequence := by
  obtain ⟨m, -, hremote⟩ := h.remote ⟨k, hk⟩
  apply Connection.acknowledges_nextHeader _ _ hnear
  · exact hremote ▸ sequenceAt_ne_zero m
  · exact h.sequences k header hheader ▸ h.received k hk

/-- A header that `b` builds while an arrived packet is at most 32 below its newest one makes
`a`, if it arrives before the slot is reused, count the packet as acknowledged until then. -/
theorem acked_until_reuse (hp : machine.Reachable p) (hk : k ∈ p.arrived)
    (hheader : p.fromA[k]? = some header)
    (hnear : (p.b.remoteSequence - header.sequence).toNat ≤ 32) {before after : List Event}
    (hrun : machine.AdmitsUnder (Keeps header.sequence) p
      (.issueB :: before ++ .arriveA p.fromB.length p.b.nextHeader.1 :: after)) :
    (machine.runFrom p (.issueB :: before ++
      .arriveA p.fromB.length p.b.nextHeader.1 :: after)).a.isAcked header.sequence = true := by
  have hack := (Remembers.of_reachable hp).acknowledges hk hheader hnear
  have hafter := (Machine.admitsUnder_append.mp hrun).2.2.2
  rw [Machine.runFrom_append]
  exact hafter.invariant (fun _ _ hs hkeeps _ => acked_next hs hkeeps) (acked_arriveA _ hack)

def overtaken : List Event :=
  [.issueA, .issueA, .arriveB 1 ⟨2, 0, 0⟩, .arriveB 0 ⟨1, 0, 0⟩]

theorem acked_until_reuse_overtaken : (machine.runFrom (machine.runFrom {} overtaken)
    [.issueB, .issueA, .arriveA 0 ⟨1, 2, 1⟩, .issueA]).a.isAcked 1 = true := by
  have hinit : machine.Reachable {} := Machine.Reachable.init
  have hmem : 0 ∈ (machine.runFrom {} overtaken).arrived := by decide
  have hrun : machine.AdmitsUnder (Keeps 1) (machine.runFrom {} overtaken)
      (.issueB :: [.issueA] ++ .arriveA 0 ⟨1, 2, 1⟩ :: [.issueA]) := by decide
  exact acked_until_reuse (hinit.runFrom (by decide)) hmem rfl (by decide) hrun

theorem Newest.unique {m n : ℕ} (hm : p.Newest m) (hn : p.Newest n) : m = n :=
  Nat.le_antisymm (hn.2 m hm.1) (hm.2 n hn.1)

theorem exists_newest (h : p.arrived.Nonempty) : ∃ m, p.Newest m := by
  obtain ⟨m, hm, hle⟩ := p.arrived.exists_max_image id h
  exact ⟨m, hm, hle⟩

theorem newest_ahead (hahead : ∀ j ∈ p.arrived, j ≤ k) : (p.arriveB k header).Newest k := by
  refine ⟨Finset.mem_insert_self _ _, fun j hj => ?_⟩
  rcases Finset.mem_insert.mp hj with hjk | hold
  · exact hjk.le
  · exact hahead j hold

theorem newest_behind {m : ℕ} (hm : p.Newest m) (hle : k ≤ m) : (p.arriveB k header).Newest m := by
  refine ⟨Finset.mem_insert_of_mem hm.1, fun j hj => ?_⟩
  rcases Finset.mem_insert.mp hj with hjk | hold
  · exact hjk.trans_le hle
  · exact hm.2 j hold

def Tracks (p : HeaderLink) : Prop := ∀ m, p.Newest m → p.b.remoteSequence = sequenceAt m

theorem Tracks.arriveB (h : p.Tracks) (hp : p.Remembers) (hk : p.fromA[k]? = some header)
    (hnear : p.Near (.arriveB k header)) : (p.arriveB k header).Tracks := by
  have hseq := hp.sequences k header hk
  have hremote : (p.arriveB k header).b.remoteSequence =
      (p.b.recordReceived header.sequence).remoteSequence :=
    Connection.onReceived_remoteSequence _ _
  intro n hn
  rw [hremote, hseq]
  rcases p.arrived.eq_empty_or_nonempty with hempty | hsome
  · have hany : p.b.receivedAny = false := by
      rw [← Bool.not_eq_true, hp.receivedAny, Finset.not_nonempty_iff_eq_empty]
      exact hempty
    have hnew : (p.arriveB k header).Newest k := newest_ahead (by simp [hempty])
    rw [hn.unique hnew]
    exact Connection.recordReceived_first hany _
  · obtain ⟨m, hm⟩ := exists_newest hsome
    obtain ⟨hkm, hmk⟩ := hnear m hm
    rcases Nat.lt_or_ge m k with hlt | hle
    · have hnew : (p.arriveB k header).Newest k :=
        newest_ahead fun j hj => (hm.2 j hj).trans hlt.le
      rw [hn.unique hnew]
      apply Connection.recordReceived_ahead
      rw [h m hm]
      exact sequenceGreaterThan_ahead hlt hkm
    · rw [hn.unique (newest_behind hm hle), ← h m hm]
      apply Connection.recordReceived_behind (hp.receivedAny.mpr hsome)
      rw [h m hm]
      exact sequenceGreaterThan_behind hle hmk

theorem Tracks.step (h : p.Tracks) (hp : p.Remembers) {e : Event} (hnear : p.Near e)
    (he : machine.Enabled p e) : (machine.next p e).Tracks := by
  cases e with
  | issueA => exact h
  | issueB => exact h
  | arriveB k header => exact h.arriveB hp he hnear
  | arriveA k header => exact h

/-- The newest sequence `b` knows is that of the most recently issued packet that arrived. -/
theorem newest_tracked (h : machine.ReachableUnder Near p) {m : ℕ} (hm : p.Newest m) :
    p.b.remoteSequence = sequenceAt m ∧
      ∃ header, p.fromA[m]? = some header ∧ header.sequence = p.b.remoteSequence := by
  have hinv : p.Remembers ∧ p.Tracks := by
    apply Machine.ReachableUnder.invariant (I := fun p => p.Remembers ∧ p.Tracks) _ _ h
    · exact ⟨Remembers.init, fun m hm => absurd hm.1 (Finset.notMem_empty m)⟩
    · exact fun p e hi hnear he => ⟨hi.1.step he, hi.2.step hi.1 hnear he⟩
  have hremote := hinv.2 m hm
  have hget := List.getElem?_eq_getElem (hinv.1.issued m hm.1)
  exact ⟨hremote, _, hget, (hinv.1.sequences m _ hget).trans hremote.symm⟩

theorem newest_tracked_overtaken :
    (machine.runFrom {} overtaken).b.remoteSequence = sequenceAt 1 := by
  have hinit : machine.ReachableUnder Near {} := Machine.ReachableUnder.init
  exact (newest_tracked (hinit.runFrom (by decide)) ⟨by decide, by decide⟩).1

end HeaderLink

end Netcode.Transport
