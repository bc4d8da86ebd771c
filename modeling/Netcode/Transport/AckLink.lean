import Mathlib.Data.Finset.Insert
import Netcode.Library.Machine
import Netcode.Transport.Connection

/-!
# Soundness of acknowledgements

Two connections exchange headers over a link that may lose packets but keeps
their order. The ring of received sequences is never cleared, so a slot set
1024 packets ago still answers for the packet that has the slot now; the ring
of acknowledged ones is cleared when a slot is reused. `Clean` states when
a delivery meets no such leftover, and in runs of clean steps everything that
`a` believes acknowledged has arrived.
-/

namespace Netcode.Transport

open Netcode.Library

/-- The acknowledgement bits of packet `n` cover packet `j`. -/
def Covers (n j : ℕ) : Prop :=
  j < n ∧ n ≤ j + 32 ∧ (sequenceAt n - sequenceAt j).toNat ≤ 32

theorem toNat_sequenceAt_near {j n : ℕ} (hj : j ≤ n) (hn : n ≤ j + kBufferSize) :
    (sequenceAt n).toNat + j = (sequenceAt j).toNat + n ∨
      (sequenceAt n).toNat + 65535 + j = (sequenceAt j).toNat + n := by
  rw [toNat_sequenceAt, toNat_sequenceAt]
  rw [kBufferSize] at hn
  omega

theorem toNat_sequenceAt_bounds (k : ℕ) :
    1 ≤ (sequenceAt k).toNat ∧ (sequenceAt k).toNat ≤ 65535 := by
  rw [toNat_sequenceAt]
  omega

theorem sequenceAt_injective_near {j n : ℕ} (hj : j ≤ n) (hn : n ≤ j + kBufferSize)
    (h : sequenceAt j = sequenceAt n) : j = n := by
  have hnear := toNat_sequenceAt_near hj hn
  rw [h] at hnear
  rw [kBufferSize] at hn
  omega

theorem covers_iff {j n : ℕ} (hj : j < n) (hn : n ≤ j + kBufferSize) :
    Covers n j ↔ n ≤ j + 32 ∧ ((sequenceAt n).toNat < (sequenceAt j).toNat → n ≤ j + 31) := by
  have hnear := toNat_sequenceAt_near hj.le hn
  have hjs := toNat_sequenceAt_bounds j
  have hns := toNat_sequenceAt_bounds n
  rw [kBufferSize] at hn
  rw [Covers, UInt16.toNat_sub]
  omega

theorem covers_of_bit {j n i : ℕ} (hj : j ≤ n) (hn : n ≤ j + kBufferSize) (hi : i < 32)
    (h : sequenceAt j = sequenceAt n - UInt16.ofNat (i + 1)) : Covers n j := by
  have hnear := toNat_sequenceAt_near hj hn
  have hjs := toNat_sequenceAt_bounds j
  have hns := toNat_sequenceAt_bounds n
  have hv := congrArg UInt16.toNat h
  rw [toNat_sub_ofNat _ (by omega)] at hv
  have hlt : j < n := by
    rcases Nat.lt_or_eq_of_le hj with hlt | heq
    · exact hlt
    · rw [heq] at hv
      omega
  rw [covers_iff hlt hn]
  rw [kBufferSize] at hn
  omega

theorem Covers.slot_ne {j n : ℕ} (h : Covers n j) :
    slot (sequenceAt j) ≠ slot (sequenceAt n) := by
  obtain ⟨hlt, hle, -⟩ := h
  have hnear := toNat_sequenceAt_near hlt.le (by rw [kBufferSize]; omega)
  have hjs := toNat_sequenceAt_bounds j
  have hns := toNat_sequenceAt_bounds n
  rw [ne_eq, slot_eq_iff]
  omega

theorem Covers.trans_lt {j m n : ℕ} (h : Covers n j) (hjm : j < m) (hmn : m < n) :
    Covers m j := by
  obtain ⟨hlt, hle, -⟩ := id h
  have hjn := toNat_sequenceAt_near (j := m) hmn.le (by rw [kBufferSize]; omega)
  have hjs := toNat_sequenceAt_bounds j
  have hns := toNat_sequenceAt_bounds n
  have hms := toNat_sequenceAt_bounds m
  have hjm' := toNat_sequenceAt_near hjm.le (by rw [kBufferSize]; omega)
  rw [covers_iff hlt (by rw [kBufferSize]; omega)] at h
  rw [covers_iff hjm (by rw [kBufferSize]; omega)]
  omega

structure Report where
  header : PacketHeader
  newest : ℕ

/-- `passedA` and `passedB` are the positions from which packets can still arrive. -/
structure AckLink where
  a : Connection := {}
  b : Connection := {}
  fromA : List PacketHeader := []
  fromB : List Report := []
  passedA : ℕ := 0
  passedB : ℕ := 0
  arrived : Finset ℕ := ∅
  newest : ℕ := 0

def Connection.advances (c : Connection) (sequence : UInt16) : Bool :=
  !c.receivedAny || sequenceGreaterThan sequence c.remoteSequence

theorem Connection.remoteSequence_of_advances {c : Connection} {header : PacketHeader}
    (hadv : c.advances header.sequence = true) :
    (c.onReceived header).remoteSequence = header.sequence :=
  (c.onReceived_remoteSequence header).trans (if_pos hadv)

namespace AckLink

inductive Event
  | issueA
  | issueB
  | deliverToB (k : ℕ) (header : PacketHeader)
  | deliverToA (k : ℕ) (report : Report)

def issueA (s : AckLink) : AckLink :=
  { s with a := s.a.nextHeader.2, fromA := s.fromA ++ [s.a.nextHeader.1] }

def issueB (s : AckLink) : AckLink :=
  { s with b := s.b.nextHeader.2, fromB := s.fromB ++ [⟨s.b.nextHeader.1, s.newest⟩] }

def deliverToB (s : AckLink) (k : ℕ) (header : PacketHeader) : AckLink :=
  { s with
    b := s.b.onReceived header
    passedA := k + 1
    arrived := insert k s.arrived
    newest := if s.b.advances header.sequence then k else s.newest }

def deliverToA (s : AckLink) (k : ℕ) (report : Report) : AckLink :=
  { s with a := s.a.onReceived report.header, passedB := k + 1 }

def machine : Machine AckLink Event where
  init := {}
  Enabled s e := match e with
    | .issueA => True
    | .issueB => True
    | .deliverToB k header => s.passedA ≤ k ∧ s.fromA[k]? = some header
    | .deliverToA k report => s.passedB ≤ k ∧ s.fromB[k]? = some report
  next s e := match e with
    | .issueA => s.issueA
    | .issueB => s.issueB
    | .deliverToB k header => s.deliverToB k header
    | .deliverToA k report => s.deliverToA k report

/-- No packet lost so far sits, when `b` next looks, in a slot that some other
packet has set. -/
def CleanArrival (s : AckLink) (k : ℕ) (header : PacketHeader) : Prop :=
  if s.b.advances header.sequence then
    ∀ j, s.newest < j → Covers k j → j ∉ s.arrived → s.b.received (slot (sequenceAt j)) = false
  else
    ∀ j, Covers s.newest j → j ∉ s.arrived → slot (sequenceAt j) ≠ slot header.sequence

/-- Of the packets `a` still tracks, a lost one has an acknowledged slot only if the
acknowledgement names its own sequence and is not older than the packet. -/
def CleanReport (s : AckLink) (report : Report) : Prop :=
  ∀ t j, report.header.Acknowledges t → j < s.fromA.length → s.fromA.length ≤ j + kBufferSize →
    slot (sequenceAt j) = slot t → j ∉ s.arrived → sequenceAt j = t ∧ j ≤ report.newest

def Clean (s : AckLink) : Event → Prop
  | .issueA | .issueB => True
  | .deliverToB k header => s.CleanArrival k header
  | .deliverToA _ report => s.CleanReport report

structure Sound (s : AckLink) : Prop where
  sequences : ∀ (k : ℕ) header, s.fromA[k]? = some header → header.sequence = sequenceAt k
  localSequence : s.a.localSequence = sequenceAt s.fromA.length
  passed : s.passedA ≤ s.fromA.length
  untouched : s.b.receivedAny = false →
    s.b.remoteSequence = 0 ∧ s.newest = 0 ∧ ∀ x, s.b.received x = false
  newest : s.b.receivedAny = true → s.b.remoteSequence = sequenceAt s.newest ∧
    s.newest ∈ s.arrived ∧ s.newest < s.passedA
  window : ∀ j, Covers s.newest j → s.b.received (slot (sequenceAt j)) = true → j ∈ s.arrived
  reports : ∀ report ∈ s.fromB, report.newest ≤ s.fromA.length ∧
    ∀ j ≤ report.newest, report.newest ≤ j + kBufferSize →
      report.header.Acknowledges (sequenceAt j) → j ∈ s.arrived
  acked : ∀ j < s.fromA.length, s.fromA.length ≤ j + kBufferSize →
    s.a.isAcked (sequenceAt j) = true → j ∈ s.arrived

namespace Sound

variable {s : AckLink}

theorem init : Sound {} := by
  constructor <;> simp [sequenceAt, Connection.isAcked]

theorem issueA (h : s.Sound) : s.issueA.Sound := by
  have hlen : s.issueA.fromA.length = s.fromA.length + 1 := by
    rw [AckLink.issueA, List.length_append, List.length_singleton]
  refine { h with sequences := fun k header hk => ?_, localSequence := ?_, passed := ?_,
                  reports := fun report hr => ?_, acked := fun j hj hrecent hacked => ?_ }
  · exact Connection.nextHeader_issued h.localSequence h.sequences hk
  · exact hlen ▸ Connection.nextHeader_localSequence h.localSequence
  · exact Nat.le_trans h.passed (by omega)
  · obtain ⟨hle, hall⟩ := h.reports report hr
    exact ⟨by omega, hall⟩
  · -- issuing clears the slot of the new packet, so an acknowledged one is older
    have hring : Function.update s.a.acked (slot s.a.localSequence) false
        (slot (sequenceAt j)) = true := hacked
    by_cases hslot : slot (sequenceAt j) = slot s.a.localSequence
    · rw [hslot, Function.update_self] at hring
      exact absurd hring (by decide)
    · rw [Function.update_of_ne hslot] at hring
      have hne : j ≠ s.fromA.length := fun heq => hslot (by rw [heq, h.localSequence])
      exact h.acked j (by omega) (by omega) hring

theorem issueB (h : s.Sound) : s.issueB.Sound := by
  refine { h with reports := fun report hr => ?_ }
  rcases List.mem_append.mp hr with hr | hr
  · exact h.reports report hr
  · obtain rfl := List.mem_singleton.mp hr
    constructor
    · cases hany : s.b.receivedAny with
      | false =>
        have hzero := (h.untouched hany).2.1
        exact hzero ▸ Nat.zero_le _
      | true =>
        exact Nat.le_trans (h.newest hany).2.2.le h.passed
    · intro j hj hnear hack
      obtain ⟨hnonzero, hbit⟩ := Connection.nextHeader_acknowledges hack
      have hany : s.b.receivedAny = true := by
        by_contra hno
        exact hnonzero (h.untouched (Bool.not_eq_true _ ▸ hno)).1
      obtain ⟨hremote, hmem, -⟩ := h.newest hany
      rw [hremote] at hbit
      rcases hbit with htop | ⟨i, hi, hreceived, hsub⟩
      · rwa [sequenceAt_injective_near hj hnear htop]
      · exact h.window j (covers_of_bit hj hnear hi hsub) hreceived

theorem deliverToB (h : s.Sound) {k : ℕ} {header : PacketHeader} (hpassed : s.passedA ≤ k)
    (hk : s.fromA[k]? = some header) (hclean : s.CleanArrival k header) :
    (s.deliverToB k header).Sound := by
  have hseq := h.sequences k header hk
  have hkl := (List.getElem?_eq_some_iff.mp hk).1
  have hb : (s.deliverToB k header).b = s.b.onReceived header := rfl
  have harrived : (s.deliverToB k header).arrived = insert k s.arrived := rfl
  have hremote : (s.deliverToB k header).b.remoteSequence =
      if s.b.advances header.sequence then header.sequence else s.b.remoteSequence :=
    Connection.onReceived_remoteSequence _ _
  have hnewest : (s.deliverToB k header).newest =
      if s.b.advances header.sequence then k else s.newest := rfl
  refine { h with passed := hkl, untouched := fun hany => ?_, newest := fun _ => ?_,
                  window := fun j hcov hrec => ?_, reports := fun report hr => ?_,
                  acked := fun j hj hrecent hacked => ?_ }
  · rw [hb, Connection.onReceived_receivedAny] at hany
    exact absurd hany (by decide)
  · rw [hremote, hnewest, harrived]
    split_ifs with hadv
    · exact ⟨hseq, Finset.mem_insert_self _ _, Nat.lt_succ_self k⟩
    · have hany : s.b.receivedAny = true := by
        rw [Connection.advances, Bool.or_eq_true, not_or, Bool.not_eq_true', Bool.not_eq_false]
          at hadv
        exact hadv.1
      obtain ⟨hr, hm, hlt⟩ := h.newest hany
      exact ⟨hr, Finset.mem_insert_of_mem hm, Nat.lt_of_lt_of_le hlt (by
        change s.passedA ≤ k + 1
        omega)⟩
  · rw [hb, Connection.onReceived_received] at hrec
    rw [hnewest] at hcov
    rw [harrived]
    by_contra hlost
    rw [Finset.mem_insert, not_or] at hlost
    rw [CleanArrival] at hclean
    by_cases hadv : s.b.advances header.sequence = true
    · rw [if_pos hadv] at hcov hclean
      rw [hseq, Function.update_of_ne hcov.slot_ne] at hrec
      cases hany : s.b.receivedAny with
      | false => exact absurd hrec (by simp [(h.untouched hany).2.2])
      | true =>
        obtain ⟨-, hm, hlt⟩ := h.newest hany
        rcases Nat.lt_trichotomy j s.newest with hjn | hjn | hjn
        · exact hlost.2 (h.window j (hcov.trans_lt hjn (by omega)) hrec)
        · exact hlost.2 (hjn ▸ hm)
        · exact absurd hrec (by simp [hclean j hjn hcov hlost.2])
    · rw [if_neg hadv] at hcov hclean
      rw [Function.update_of_ne (hclean j hcov hlost.2)] at hrec
      exact hlost.2 (h.window j hcov hrec)
  · obtain ⟨hle, hall⟩ := h.reports report hr
    exact ⟨hle, fun j hj hnear hack => Finset.mem_insert_of_mem (hall j hj hnear hack)⟩
  · exact Finset.mem_insert_of_mem (h.acked j hj hrecent hacked)

theorem deliverToA (h : s.Sound) {k : ℕ} {report : Report} (hk : s.fromB[k]? = some report)
    (hclean : s.CleanReport report) : (s.deliverToA k report).Sound := by
  obtain ⟨hle, hall⟩ := h.reports report (List.mem_of_getElem? hk)
  refine { h with localSequence := ?_, acked := fun j hj hrecent hacked => ?_ }
  · exact (Connection.onReceived_localSequence _ _).trans h.localSequence
  · rcases (Connection.onReceived_acked ..).mp hacked with hacked | ⟨t, hack, hslot⟩
    · exact h.acked j hj hrecent hacked
    · by_contra hlost
      obtain ⟨heq, hjn⟩ := hclean t j hack hj hrecent hslot.symm hlost
      exact hlost (hall j hjn (Nat.le_trans hle hrecent) (heq ▸ hack))

end Sound

/-- In a run of clean steps, whatever `a` believes acknowledged has arrived. -/
theorem acked_arrived {s : AckLink} (h : machine.ReachableUnder Clean s) {k : ℕ}
    (hk : k < s.fromA.length) (hrecent : s.fromA.length ≤ k + kBufferSize)
    (hacked : s.a.isAcked (sequenceAt k) = true) : k ∈ s.arrived := by
  have hsound : s.Sound := by
    apply Machine.ReachableUnder.invariant Sound.init _ h
    intro s e hs hclean he
    cases e with
    | issueA => exact hs.issueA
    | issueB => exact hs.issueB
    | deliverToB k header => exact hs.deliverToB he.1 he.2 hclean
    | deliverToA k report => exact hs.deliverToA he.2 hclean
  exact hsound.acked k hk hrecent hacked

def lossyTrip : List Event :=
  [.issueA, .issueA, .issueA, .deliverToB 0 ⟨1, 0, 0⟩, .deliverToB 2 ⟨3, 0, 0⟩, .issueB, .issueB,
    .deliverToA 1 ⟨⟨2, 3, 2⟩, 2⟩]

theorem admits_lossyTrip : machine.AdmitsUnder Clean {} lossyTrip := by
  have hacks : ∀ t, (⟨2, 3, 2⟩ : PacketHeader).Acknowledges t → t = 3 ∨ t = 1 := by
    intro t hack
    obtain ⟨-, htop | ⟨i, hi, hbit, ht⟩⟩ := hack
    · exact Or.inl htop
    · have hone : ∀ i < 32, ackBit 2 i = true → i = 1 := by decide
      obtain rfl := hone i hi hbit
      exact Or.inr ht
  refine ⟨trivial, trivial, trivial, trivial, trivial, trivial,
    fun j _ hj _ => absurd hj.1 (by omega), ⟨le_rfl, rfl⟩, fun j hnew hj _ => ?_,
    ⟨by decide, rfl⟩, trivial, trivial, trivial, trivial,
    fun t j hack hj _ hslot hlost => ?_, ⟨by decide, rfl⟩, trivial⟩
  · obtain rfl : j = 1 := by
      have hlt := hj.1
      change 0 < j at hnew
      omega
    rfl
  · have hsecond : j = 1 := by
      change j < 3 at hj
      change j ∉ ({2, 0} : Finset ℕ) at hlost
      simp only [Finset.mem_insert, Finset.mem_singleton, not_or] at hlost
      omega
    subst hsecond
    rcases hacks t hack with rfl | rfl
    · exact absurd hslot (by decide)
    · exact absurd hslot (by decide)

theorem acked_arrived_lossyTrip :
    let s := machine.runFrom {} lossyTrip
    (∀ k < 3, s.a.isAcked (sequenceAt k) = true → k ∈ s.arrived) ∧
      s.a.isAcked 1 = true ∧ s.a.isAcked 2 = false ∧ s.a.isAcked 3 = true ∧ 1 ∉ s.arrived := by
  intro s
  have hreach : machine.ReachableUnder Clean s :=
    Machine.ReachableUnder.init.runFrom admits_lossyTrip
  refine ⟨fun k hk => acked_arrived hreach hk ?_, by decide⟩
  change 3 ≤ k + kBufferSize
  rw [kBufferSize]
  omega

structure InStep (s : AckLink) (n : ℕ) : Prop where
  reachable : machine.Reachable s
  length : s.fromA.length = n
  localSequence : s.a.localSequence = sequenceAt n
  passedA : s.passedA = n
  arrived : ∀ j ∈ s.arrived, j < n
  received : ∀ j < n, s.b.received (slot (sequenceAt j)) = true
  first : n = 0 → s.b.receivedAny = false
  newest : ∀ k, n = k + 1 → s.b.remoteSequence = sequenceAt k
  silent : s.fromB = [] ∧ s.passedB = 0

theorem InStep.advances {s : AckLink} {n k : ℕ} (h : InStep s n) (hk : n ≤ k)
    (hnear : k < n + kBufferSize) : s.b.advances (sequenceAt k) = true := by
  cases n with
  | zero => simp [Connection.advances, h.first rfl]
  | succ n =>
    rw [kBufferSize] at hnear
    have hgt := sequenceGreaterThan_ahead (m := n) (k := k) (by omega) (by omega)
    simp [Connection.advances, h.newest n rfl, hgt]

theorem InStep.next {s : AckLink} {n : ℕ} (h : InStep s n) :
    InStep (s.issueA.deliverToB n s.a.nextHeader.1) (n + 1) := by
  have hseq : s.a.nextHeader.1.sequence = sequenceAt n := h.localSequence
  have hissued : s.issueA.fromA = s.fromA ++ [s.a.nextHeader.1] := rfl
  have hlast : s.issueA.fromA[n]? = some s.a.nextHeader.1 := by
    rw [hissued, ← h.length, List.getElem?_concat_length]
  refine ⟨?_, ?_, ?_, rfl, fun j hj => ?_, fun j hj => ?_, fun h0 => absurd h0 (by omega),
    fun k hk => ?_, h.silent⟩
  · have hreach := h.reachable.step .issueA trivial
    exact hreach.step (.deliverToB n s.a.nextHeader.1) ⟨h.passedA.le, hlast⟩
  · change s.issueA.fromA.length = n + 1
    rw [hissued, List.length_append, h.length, List.length_singleton]
  · exact Connection.nextHeader_localSequence h.localSequence
  · rcases Finset.mem_insert.mp hj with hj | hj
    · omega
    · exact Nat.lt_succ_of_lt (h.arrived j hj)
  · apply (Connection.received_onReceived ..).mpr
    rcases Nat.lt_or_eq_of_le (Nat.le_of_lt_succ hj) with hlt | heq
    · exact Or.inl (h.received j hlt)
    · exact Or.inr (by rw [heq, hseq])
  · have hadv := h.advances le_rfl (by rw [kBufferSize]; omega)
    obtain rfl : n = k := by omega
    rw [← hseq] at hadv
    exact (Connection.remoteSequence_of_advances hadv).trans hseq

def lockstep : ℕ → AckLink
  | 0 => {}
  | n + 1 => (lockstep n).issueA.deliverToB n (lockstep n).a.nextHeader.1

theorem inStep_lockstep (n : ℕ) : InStep (lockstep n) n := by
  induction n with
  | zero => exact ⟨Machine.Reachable.init, rfl, rfl, rfl, by simp [lockstep], by simp, fun _ => rfl,
      by simp, rfl, rfl⟩
  | succ n ih => exact ih.next

def loseOne (s : AckLink) (n : ℕ) : AckLink :=
  let arrived := s.issueA.issueA.deliverToB (n + 1) s.issueA.a.nextHeader.1
  arrived.issueB.deliverToA 0 ⟨arrived.b.nextHeader.1, arrived.newest⟩

theorem InStep.loseOne {s : AckLink} {j n : ℕ} (h : InStep s n) (hj : j < n)
    (hslot : slot (sequenceAt j) = slot (sequenceAt n))
    (hbit : sequenceAt n = sequenceAt (n + 1) - UInt16.ofNat 1) :
    machine.Reachable (s.loseOne n) ∧ (s.loseOne n).fromA.length = n + 2 ∧
      (s.loseOne n).a.isAcked (sequenceAt n) = true ∧ n ∉ (s.loseOne n).arrived := by
  have hnext : s.issueA.a.nextHeader.1.sequence = sequenceAt (n + 1) :=
    Connection.nextHeader_localSequence h.localSequence
  have hissued : s.issueA.issueA.fromA =
      (s.fromA ++ [s.a.nextHeader.1]) ++ [s.issueA.a.nextHeader.1] := rfl
  have hlen : (s.fromA ++ [s.a.nextHeader.1]).length = n + 1 := by
    rw [List.length_append, h.length, List.length_singleton]
  have hlast : s.issueA.issueA.fromA[n + 1]? = some s.issueA.a.nextHeader.1 := by
    rw [hissued, ← hlen, List.getElem?_concat_length]
  set arrived := s.issueA.issueA.deliverToB (n + 1) s.issueA.a.nextHeader.1
  have hremote : arrived.b.remoteSequence = sequenceAt (n + 1) := by
    have hadv := h.advances (k := n + 1) (by omega) (by rw [kBufferSize]; omega)
    rw [← hnext] at hadv
    exact (Connection.remoteSequence_of_advances hadv).trans hnext
  have hreceived : arrived.b.received (slot (sequenceAt n)) = true :=
    (Connection.received_onReceived ..).mpr (Or.inl (hslot ▸ h.received j hj))
  have hack : arrived.b.nextHeader.1.Acknowledges (sequenceAt n) := by
    apply Connection.acknowledges_nextHeader _ hreceived
    · have htop := (sequenceAt (n + 1)).toNat_lt
      rw [hremote, hbit, UInt16.toNat_sub, toNat_sub_ofNat _ (by omega)]
      omega
    · exact hremote ▸ sequenceAt_ne_zero _
  refine ⟨?_, ?_, ?_, ?_⟩
  · have h₁ := h.reachable.step .issueA trivial
    have h₂ := h₁.step .issueA trivial
    have h₃ := h₂.step (.deliverToB (n + 1) s.issueA.a.nextHeader.1)
      ⟨Nat.le_trans h.passedA.le (by omega), hlast⟩
    have h₄ := h₃.step .issueB trivial
    refine h₄.step (.deliverToA 0 ⟨arrived.b.nextHeader.1, arrived.newest⟩)
      ⟨h.silent.2.le, ?_⟩
    change (s.fromB ++ [_])[0]? = _
    rw [h.silent.1]
    rfl
  · change s.issueA.issueA.fromA.length = n + 2
    rw [hissued, List.length_append, hlen, List.length_singleton]
  · exact (Connection.onReceived_acked ..).mpr (Or.inr ⟨_, hack, rfl⟩)
  · intro hmem
    rcases Finset.mem_insert.mp hmem with heq | hold
    · omega
    · exact absurd (h.arrived n hold) (lt_irrefl n)

/-- After 1024 packets that all arrive, the first lost one is acknowledged. -/
theorem acks_lost_packet : ¬ ∀ s, machine.Reachable s → ∀ k < s.fromA.length,
    s.fromA.length ≤ k + kBufferSize → s.a.isAcked (sequenceAt k) = true → k ∈ s.arrived := by
  intro hclaim
  obtain ⟨s, hs⟩ : ∃ s, InStep s 1024 := ⟨_, inStep_lockstep 1024⟩
  obtain ⟨hreach, hlen, hacked, hlost⟩ := hs.loseOne (j := 0) (by omega) (by decide) (by decide)
  refine hlost (hclaim _ hreach 1024 ?_ ?_ hacked)
  · rw [hlen]
    omega
  · rw [hlen, kBufferSize]
    omega

end AckLink

end Netcode.Transport
