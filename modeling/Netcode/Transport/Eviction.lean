import Netcode.Library.Least
import Netcode.Transport.Interleaving
import Netcode.Transport.Untrusted

/-!
# Eviction

A reassembler makes room by removing the group of the oldest sequence, which a
scan of its table finds with the circular comparison of `sequenceGreaterThan`.
Within half of the circle that comparison is the order of the distances from
any point before all of them, so that the scan ends with the earliest sequence
in whatever order the table is visited.
-/

namespace Netcode.Transport

open Netcode.Library

theorem sequenceGreaterThan_iff_of_window {base a b : UInt16} (ha : (a - base).toNat < 32768)
    (hb : (b - base).toNat < 32768) :
    sequenceGreaterThan a b = true ↔ (b - base).toNat < (a - base).toNat := by
  have halt := a.toNat_lt
  have hblt := b.toNat_lt
  have hbase := base.toNat_lt
  rw [UInt16.toNat_sub] at ha hb
  rw [sequenceGreaterThan_iff, UInt16.toNat_sub, UInt16.toNat_sub]
  omega

theorem eq_of_distance_eq {base a b : UInt16} (h : (a - base).toNat = (b - base).toNat) :
    a = b := by
  have hsub := UInt16.toNat_inj.mp h
  rw [← UInt16.sub_add_cancel a base, hsub, UInt16.sub_add_cancel]

section Table

variable {groups : Finmap fun _ : UInt16 => Group} {order : VisitOrder} {s : UInt16}

theorem keys_insert_of_mem {g : Group} (h : s ∈ groups.keys) :
    (groups.insert s g).keys = groups.keys := by
  ext t
  rw [Finmap.mem_keys, Finmap.mem_insert, Finmap.mem_keys]
  rw [Finmap.mem_keys] at h
  exact ⟨fun ht => ht.elim (fun heq => heq ▸ h) id, Or.inr⟩

theorem keys_insert {g : Group} : (groups.insert s g).keys = insert s groups.keys := by
  ext t
  rw [Finmap.mem_keys, Finmap.mem_insert, Finset.mem_insert, Finmap.mem_keys]

theorem evictOldest_eq (order : VisitOrder) (hne : groups.keys.Nonempty) :
    ∃ first rest, (∀ t, t ∈ first :: rest ↔ t ∈ groups.keys) ∧
      evictOldest order groups = groups.erase (scanLeast sequenceGreaterThan first rest) := by
  cases hvisit : order.visit groups.keys with
  | nil =>
    obtain ⟨t, ht⟩ := hne
    exact absurd ((order.mem_visit groups.keys t).mpr ht) (by simp [hvisit])
  | cons first rest =>
    refine ⟨first, rest, fun t => hvisit ▸ order.mem_visit groups.keys t, ?_⟩
    rw [evictOldest, hvisit]
    rfl

/-- In half of the circle the earliest sequence is evicted, in whatever order they are visited. -/
theorem evictOldest_of_window (order : VisitOrder) {base : UInt16} (hne : groups.keys.Nonempty)
    (hwindow : ∀ t ∈ groups.keys, (t - base).toNat < 32768) :
    ∃ oldest ∈ groups.keys, evictOldest order groups = groups.erase oldest ∧
      ∀ t ∈ groups.keys, t ≠ oldest → (oldest - base).toNat < (t - base).toNat := by
  obtain ⟨first, rest, hmem, heq⟩ := evictOldest_eq order hne
  have hin := scanLeast_mem sequenceGreaterThan first rest
  have hle := scanLeast_le sequenceGreaterThan (fun t => (t - base).toNat) fun a ha b hb =>
    sequenceGreaterThan_iff_of_window (hwindow a ((hmem a).mp ha)) (hwindow b ((hmem b).mp hb))
  refine ⟨_, (hmem _).mp hin, heq, fun t ht hne => ?_⟩
  apply lt_of_le_of_ne (hle t ((hmem t).mpr ht))
  exact fun hsame => hne (eq_of_distance_eq hsame.symm)

theorem card_evictOldest (order : VisitOrder) (hne : groups.keys.Nonempty) :
    (evictOldest order groups).keys.card = groups.keys.card - 1 := by
  obtain ⟨first, rest, hmem, heq⟩ := evictOldest_eq order hne
  have hin := (hmem _).mp (scanLeast_mem sequenceGreaterThan first rest)
  rw [heq, Finmap.keys_erase, Finset.card_erase_of_mem hin]

end Table

namespace Reassembler

variable {r : Reassembler} {order : VisitOrder} {header : FragmentHeader} {data chunk : Bytes}
  {g : Group}

theorem keys_store_subset (h : header.packetSeq ∈ r.groups.keys) :
    (r.store header chunk g).2.groups.keys ⊆ r.groups.keys := by
  by_cases hrejects : Rejects g header
  · rw [store_rejects hrejects]
  · rw [store_accepts hrejects]
    split_ifs
    · exact (keys_insert_of_mem h).le
    · rw [Finmap.keys_erase]
      exact Finset.erase_subset _ _

theorem card_room_lt (order : VisitOrder) (h : r.groups.keys.card ≤ kMaxGroups) :
    (if kMaxGroups ≤ r.groups.keys.card then evictOldest order r.groups
      else r.groups).keys.card < kMaxGroups := by
  split_ifs with hfull
  · have hpos : 0 < r.groups.keys.card := Nat.lt_of_lt_of_le (by decide) hfull
    rw [card_evictOldest order (Finset.card_pos.mp hpos)]
    exact (Nat.sub_lt hpos Nat.one_pos).trans_le h
  · exact not_le.mp hfull

theorem card_reassemble (h : r.groups.keys.card ≤ kMaxGroups) (order : VisitOrder) (data : Bytes) :
    (r.reassemble order data).2.groups.keys.card ≤ kMaxGroups := by
  by_cases hex : ∃ header chunk, FragmentHeader.decode data = some (header, chunk) ∧ header.Multiple
  · obtain ⟨header, chunk, hdata, hmultiple⟩ := hex
    rw [reassemble_multiple r order hdata hmultiple]
    cases hlook : r.groups.lookup header.packetSeq with
    | some g =>
      have hkey : header.packetSeq ∈ r.groups.keys :=
        Finmap.mem_keys.mpr (Finmap.mem_iff.mpr ⟨g, hlook⟩)
      exact (Finset.card_le_card (keys_store_subset hkey)).trans h
    | none =>
      refine (Finset.card_le_card (keys_store_subset ?_)).trans ?_
      · rw [keys_insert]
        exact Finset.mem_insert_self _ _
      · rw [keys_insert]
        exact (Finset.card_insert_le _ _).trans (card_room_lt order h)
  · have hunchanged : (r.reassemble order data).2 = r := by
      apply reassemble_unchanged
      intro header chunk hdata hmultiple
      exact hex ⟨header, chunk, hdata, hmultiple⟩
    rwa [hunchanged]

theorem card_after (arrivals : List (VisitOrder × Bytes)) :
    (after arrivals).groups.keys.card ≤ kMaxGroups := by
  induction arrivals using List.reverseRecOn with
  | nil => exact Nat.zero_le kMaxGroups
  | append_singleton arrivals a ih =>
    rw [after, List.foldl_concat]
    exact card_reassemble ih a.1 a.2

theorem reassemble_untracked (order : VisitOrder)
    (hdata : FragmentHeader.decode data = some (header, chunk)) (hmultiple : header.Multiple)
    (hnone : r.groups.lookup header.packetSeq = none)
    (hfull : r.groups.keys.card = kMaxGroups) :
    (r.reassemble order data).2.groups = (evictOldest order r.groups).insert header.packetSeq
      ((fresh header.fragmentCount).accept header chunk) := by
  have hmore : ((fresh header.fragmentCount).accept header chunk).received <
      (fresh header.fragmentCount).count := hmultiple.one_lt
  rw [reassemble_multiple r order hdata hmultiple, hnone]
  simp only [if_pos hfull.ge]
  rw [store_accepts (fresh_accepts header), if_pos hmore]
  exact Finmap.insert_insert _

/-- Never more than sixteen groups, and the earliest of a half-circle makes room for a new one. -/
theorem evicts_oldest_first :
    (∀ arrivals, (after arrivals).groups.keys.card ≤ kMaxGroups) ∧
    ∀ (r : Reassembler) (order : VisitOrder) (data : Bytes) (header : FragmentHeader)
      (chunk : Bytes) (base : UInt16),
      FragmentHeader.decode data = some (header, chunk) →
      header.fragmentId < header.fragmentCount → 2 ≤ header.fragmentCount →
      r.groups.lookup header.packetSeq = none → r.groups.keys.card = kMaxGroups →
      (∀ s ∈ r.groups.keys, (s - base).toNat < 32768) →
      ∃ oldest ∈ r.groups.keys,
        (∀ s ∈ r.groups.keys, s ≠ oldest → (oldest - base).toNat < (s - base).toNat) ∧
        (r.reassemble order data).2.groups.lookup oldest = none ∧
        ∀ s, s ≠ oldest → s ≠ header.packetSeq →
          (r.reassemble order data).2.groups.lookup s = r.groups.lookup s := by
  refine ⟨card_after, fun r order data header chunk base hdata hid hcount hnone hfull hwindow => ?_⟩
  have hmultiple : header.Multiple := by
    have hlt := UInt8.lt_iff_toNat_lt.mp hid
    have htwo := UInt8.le_iff_toNat_le.mp hcount
    refine ⟨not_or.mpr ⟨fun hzero => ?_, UInt8.not_le.mpr hid⟩, fun hone => ?_⟩
    · rw [hzero] at hlt
      exact absurd hlt (Nat.not_lt_zero _)
    · rw [hone] at htwo
      exact absurd htwo (by decide)
  have hne : r.groups.keys.Nonempty := by
    rw [← Finset.card_pos, hfull]
    decide
  obtain ⟨oldest, hin, heq, hleast⟩ := evictOldest_of_window order hne hwindow
  have hother : oldest ≠ header.packetSeq := by
    intro hsame
    obtain ⟨g, hg⟩ := Finmap.mem_iff.mp (Finmap.mem_keys.mp hin)
    rw [hsame, hnone] at hg
    exact absurd hg (Option.some_ne_none g).symm
  refine ⟨oldest, hin, hleast, ?_, fun s hs hseq => ?_⟩
  · rw [reassemble_untracked order hdata hmultiple hnone hfull, heq,
      Finmap.lookup_insert_of_ne _ hother, Finmap.lookup_erase]
  · rw [reassemble_untracked order hdata hmultiple hnone hfull, heq,
      Finmap.lookup_insert_of_ne _ hseq, Finmap.lookup_erase_ne hs]

def straddling : Reassembler :=
  after ((List.range 16).map fun i =>
    (.ascending, FragmentHeader.encode ⟨65530 + UInt16.ofNat i, 0, 2⟩))

theorem straddling_window : ∀ s ∈ straddling.groups.keys, (s - 65530).toNat < 32768 := by
  have hkeys : straddling.groups.keys ⊆
      (Finset.range 16).image fun i => 65530 + UInt16.ofNat i := by decide +kernel
  have hnear : ∀ i < 16, (65530 + UInt16.ofNat i - 65530).toNat < 32768 := by decide
  intro s hs
  obtain ⟨i, hi, rfl⟩ := Finset.mem_image.mp (hkeys hs)
  exact hnear i (Finset.mem_range.mp hi)

theorem evicts_oldest_first_straddling :
    ∃ oldest ∈ straddling.groups.keys,
      (∀ s ∈ straddling.groups.keys, s ≠ oldest →
        (oldest - 65530).toNat < (s - 65530).toNat) ∧
      (straddling.reassemble .ascending [10, 0, 1, 3, 7]).2.groups.lookup oldest = none ∧
      ∀ s, s ≠ oldest → s ≠ 10 →
        (straddling.reassemble .ascending [10, 0, 1, 3, 7]).2.groups.lookup s =
          straddling.groups.lookup s :=
  evicts_oldest_first.2 straddling .ascending [10, 0, 1, 3, 7] ⟨10, 1, 3⟩ [7] 65530 rfl
    (by decide) (by decide) (by decide +kernel) (by decide +kernel) straddling_window

end Reassembler

end Netcode.Transport
