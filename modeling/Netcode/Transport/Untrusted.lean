import Netcode.Library.Machine
import Netcode.Transport.Fragment

/-!
# Datagrams from anywhere

A reassembler takes whatever the socket reads. `Intake` runs one beside a record
of the fragments that each group has accepted since it was created. An accepted
chunk marks its slot by not being empty, so the count of a group is that of the
ids it accepted as long as no fragment comes again whose chunk was empty.
-/

namespace Netcode.Transport

open Netcode.Library

structure Intake where
  reassembler : Reassembler := {}
  accepted : UInt16 → List (FragmentHeader × Bytes) := fun _ => []

/-- One of several fragments, by its own account. -/
def FragmentHeader.Multiple (h : FragmentHeader) : Prop :=
  ¬ (h.fragmentCount = 0 ∨ h.fragmentCount ≤ h.fragmentId) ∧ h.fragmentCount ≠ 1

instance instDecidableMultiple (h : FragmentHeader) : Decidable h.Multiple :=
  inferInstanceAs (Decidable (¬ (h.fragmentCount = 0 ∨ h.fragmentCount ≤ h.fragmentId) ∧
    h.fragmentCount ≠ 1))

instance instDecidableRejects (g : Group) (header : FragmentHeader) :
    Decidable (Reassembler.Rejects g header) :=
  inferInstanceAs (Decidable (header.fragmentCount ≠ g.count ∨
    g.chunks.getD header.fragmentId.toNat [] ≠ []))

namespace Intake

def taken (s : Intake) (header : FragmentHeader) (chunk : Bytes) : List (FragmentHeader × Bytes) :=
  match s.reassembler.groups.lookup header.packetSeq with
  | none => [(header, chunk)]
  | some g => if Reassembler.Rejects g header then s.accepted header.packetSeq
    else s.accepted header.packetSeq ++ [(header, chunk)]

def next (s : Intake) (a : VisitOrder × Bytes) : Intake where
  reassembler := (s.reassembler.reassemble a.1 a.2).2
  accepted := match FragmentHeader.decode a.2 with
    | none => s.accepted
    | some (header, chunk) => if header.Multiple
        then Function.update s.accepted header.packetSeq (s.taken header chunk) else s.accepted

def machine : Machine Intake (VisitOrder × Bytes) where
  init := {}
  Enabled _ _ := True
  next := next

def ids (s : Intake) (seq : UInt16) : Finset UInt8 :=
  ((s.accepted seq).map fun f => f.1.fragmentId).toFinset

/-- The fragment does not repeat one that its group has accepted with an empty chunk. -/
def Marked (s : Intake) (a : VisitOrder × Bytes) : Prop :=
  ∀ header chunk g, FragmentHeader.decode a.2 = some (header, chunk) → header.Multiple →
    s.reassembler.groups.lookup header.packetSeq = some g → header.fragmentCount = g.count →
    ∀ f ∈ s.accepted header.packetSeq, f.1.fragmentId = header.fragmentId → f.2 ≠ []

theorem marked_iff (s : Intake) (a : VisitOrder × Bytes) : s.Marked a ↔
    ∀ d ∈ FragmentHeader.decode a.2, d.1.Multiple →
      ∀ g ∈ s.reassembler.groups.lookup d.1.packetSeq, d.1.fragmentCount = g.count →
        ∀ f ∈ s.accepted d.1.packetSeq, f.1.fragmentId = d.1.fragmentId → f.2 ≠ [] :=
  ⟨fun h d hd hmultiple g hg => h d.1 d.2 g hd hmultiple hg,
    fun h header chunk g hd hmultiple hg => h (header, chunk) hd hmultiple g hg⟩

instance (s : Intake) (a : VisitOrder × Bytes) : Decidable (s.Marked a) :=
  decidable_of_iff _ (s.marked_iff a).symm

instance (s : Intake) (a : VisitOrder × Bytes) : Decidable (machine.Enabled s a) :=
  inferInstanceAs (Decidable True)

end Intake

def Group.accept (g : Group) (header : FragmentHeader) (chunk : Bytes) : Group :=
  { g with
    chunks := g.chunks.set header.fragmentId.toNat chunk
    received := g.received + 1 }

theorem Reassembler.store_accepts {r : Reassembler} {header : FragmentHeader} {chunk : Bytes}
    {g : Group} (h : ¬ Rejects g header) : r.store header chunk g =
      if (g.accept header chunk).received < g.count
        then (none, ⟨r.groups.insert header.packetSeq (g.accept header chunk)⟩)
      else (some (g.accept header chunk).chunks.flatten, ⟨r.groups.erase header.packetSeq⟩) :=
  if_neg h

/-- `g` has accepted `accepted`, each id once, and is not complete. -/
structure Group.Records (g : Group) (accepted : List (FragmentHeader × Bytes)) : Prop where
  length : g.chunks.length = g.count.toNat
  own : ∀ f ∈ accepted, f.1.fragmentCount = g.count ∧ f.1.fragmentId < g.count
  nodup : (accepted.map fun f => f.1.fragmentId).Nodup
  received : g.received.toNat = accepted.length
  received_lt : g.received < g.count
  filled : ∀ f ∈ accepted, g.chunks.getD f.1.fragmentId.toNat [] = f.2
  empty : ∀ id, (∀ f ∈ accepted, f.1.fragmentId ≠ id) → g.chunks.getD id.toNat [] = []

namespace Group.Records

variable {g : Group} {accepted : List (FragmentHeader × Bytes)} {header : FragmentHeader}
  {chunk : Bytes}

theorem rejects_iff (h : g.Records accepted) : Reassembler.Rejects g header ↔
    header.fragmentCount ≠ g.count ∨
      ∃ f ∈ accepted, f.1.fragmentId = header.fragmentId ∧ f.2 ≠ [] := by
  apply or_congr_right
  constructor
  · intro hslot
    by_contra hnone
    push Not at hnone
    by_cases hid : ∀ f ∈ accepted, f.1.fragmentId ≠ header.fragmentId
    · exact hslot (h.empty _ hid)
    · push Not at hid
      obtain ⟨f, hf, heq⟩ := hid
      exact hslot (heq ▸ (h.filled f hf).trans (hnone f hf heq))
  · intro hsome hslot
    obtain ⟨f, hf, heq, hne⟩ := hsome
    exact hne ((h.filled f hf).symm.trans (heq ▸ hslot))

theorem received_accept (h : g.Records accepted) :
    (g.accept header chunk).received.toNat = accepted.length + 1 := by
  have hlt := UInt8.lt_iff_toNat_lt.mp h.received_lt
  have hcount := g.count.toNat_lt
  simp only [accept, UInt8.toNat_add, UInt8.toNat_one, h.received] at hlt ⊢
  omega

theorem new (h : g.Records accepted) (haccepts : ¬ Reassembler.Rejects g header)
    (hmarked : ∀ f ∈ accepted, f.1.fragmentId = header.fragmentId → f.2 ≠ []) :
    ∀ f ∈ accepted, f.1.fragmentId ≠ header.fragmentId := by
  intro f hf hid
  exact haccepts (h.rejects_iff.mpr (Or.inr ⟨f, hf, hid, hmarked f hf hid⟩))

theorem nodup_concat (h : g.Records accepted)
    (hnew : ∀ f ∈ accepted, f.1.fragmentId ≠ header.fragmentId) (chunk : Bytes) :
    ((accepted ++ [(header, chunk)]).map fun f => f.1.fragmentId).Nodup := by
  rw [List.map_append, List.nodup_append]
  refine ⟨h.nodup, List.nodup_singleton _, fun id hid id' hid' heq => ?_⟩
  obtain ⟨f, hf, rfl⟩ := List.mem_map.mp hid
  exact hnew f hf (heq.trans (List.mem_singleton.mp hid'))

theorem own_concat (h : g.Records accepted) (hcount : header.fragmentCount = g.count)
    (hid : header.fragmentId < g.count) (chunk : Bytes) : ∀ f ∈ accepted ++ [(header, chunk)],
      f.1.fragmentCount = g.count ∧ f.1.fragmentId < g.count := by
  intro f hf
  rcases List.mem_append.mp hf with hf | hf
  · exact h.own f hf
  · obtain rfl := List.mem_singleton.mp hf
    exact ⟨hcount, hid⟩

theorem accept (h : g.Records accepted) (hcount : header.fragmentCount = g.count)
    (hid : header.fragmentId < g.count)
    (hnew : ∀ f ∈ accepted, f.1.fragmentId ≠ header.fragmentId)
    (hmore : (g.accept header chunk).received < g.count) :
    (g.accept header chunk).Records (accepted ++ [(header, chunk)]) := by
  have hslot : header.fragmentId.toNat < g.chunks.length := by
    rw [h.length]
    exact UInt8.lt_iff_toNat_lt.mp hid
  have hother : ∀ id : UInt8, id ≠ header.fragmentId →
      (g.accept header chunk).chunks.getD id.toNat [] = g.chunks.getD id.toNat [] := by
    intro id hne
    simp only [Group.accept, List.getD_eq_getElem?_getD]
    rw [List.getElem?_set_ne fun heq => hne (UInt8.toNat_inj.mp heq.symm)]
  have hself : (g.accept header chunk).chunks.getD header.fragmentId.toNat [] = chunk := by
    simp only [Group.accept, List.getD_eq_getElem?_getD, List.getElem?_set_self hslot,
      Option.getD_some]
  refine ⟨?_, h.own_concat hcount hid chunk, h.nodup_concat hnew chunk, ?_, hmore, fun f hf => ?_,
    fun id hnone => ?_⟩
  · exact (List.length_set ..).trans h.length
  · rw [h.received_accept, List.length_append, List.length_singleton]
  · rcases List.mem_append.mp hf with hf | hf
    · exact (hother _ (hnew f hf)).trans (h.filled f hf)
    · obtain rfl := List.mem_singleton.mp hf
      exact hself
  · have hne : id ≠ header.fragmentId := fun heq =>
      hnone _ (List.mem_append_right _ (List.mem_singleton_self _)) heq.symm
    exact (hother id hne).trans (h.empty id fun f hf => hnone f (List.mem_append_left _ hf))

end Group.Records

theorem mem_of_full {ids : List UInt8} {n : UInt8} (hnodup : ids.Nodup) (hlt : ∀ id ∈ ids, id < n)
    (hfull : n.toNat ≤ ids.length) {id : UInt8} (hid : id < n) : id ∈ ids := by
  have hsub : (ids.map UInt8.toNat).toFinset ⊆ Finset.range n.toNat := by
    intro k hk
    obtain ⟨i, hi, rfl⟩ := List.mem_map.mp (List.mem_toFinset.mp hk)
    exact Finset.mem_range.mpr (UInt8.lt_iff_toNat_lt.mp (hlt i hi))
  have hcard : (Finset.range n.toNat).card ≤ (ids.map UInt8.toNat).toFinset.card := by
    rw [List.toFinset_card_of_nodup (hnodup.map fun _ _ h => UInt8.toNat_inj.mp h),
      List.length_map, Finset.card_range]
    exact hfull
  have hmem : id.toNat ∈ (ids.map UInt8.toNat).toFinset := by
    rw [Finset.eq_of_subset_of_card_le hsub hcard]
    exact Finset.mem_range.mpr (UInt8.lt_iff_toNat_lt.mp hid)
  obtain ⟨i, hi, heq⟩ := List.mem_map.mp (List.mem_toFinset.mp hmem)
  exact UInt8.toNat_inj.mp heq ▸ hi

theorem Group.Records.all_of_full {g : Group} {accepted : List (FragmentHeader × Bytes)}
    {header : FragmentHeader} {chunk : Bytes} (h : g.Records accepted)
    (hcount : header.fragmentCount = g.count) (hid : header.fragmentId < g.count)
    (hnew : ∀ f ∈ accepted, f.1.fragmentId ≠ header.fragmentId)
    (hfull : ¬ (g.accept header chunk).received < g.count) (id : UInt8) (hlt : id < g.count) :
    ∃ f ∈ accepted ++ [(header, chunk)], f.1.fragmentId = id ∧ f.1.fragmentCount = g.count := by
  have hown := h.own_concat hcount hid chunk
  rw [UInt8.lt_iff_toNat_lt, h.received_accept, Nat.not_lt] at hfull
  have hmem := mem_of_full (h.nodup_concat hnew chunk)
    (List.forall_mem_map.mpr fun f hf => (hown f hf).2)
    (by rwa [List.length_map, List.length_append, List.length_singleton]) hlt
  obtain ⟨f, hf, rfl⟩ := List.mem_map.mp hmem
  exact ⟨f, hf, rfl, (hown f hf).1⟩

namespace Reassembler

variable {r : Reassembler} {order : VisitOrder} {data chunk : Bytes} {header : FragmentHeader}

theorem reassemble_multiple (r : Reassembler) (order : VisitOrder)
    (hdata : FragmentHeader.decode data = some (header, chunk))
    (hmultiple : header.Multiple) : r.reassemble order data =
      match r.groups.lookup header.packetSeq with
      | some group => r.store header chunk group
      | none =>
        let groups :=
          if kMaxGroups ≤ r.groups.keys.card then evictOldest order r.groups else r.groups
        let group := fresh header.fragmentCount
        store ⟨groups.insert header.packetSeq group⟩ header chunk group := by
  cases hlook : r.groups.lookup header.packetSeq with
  | none => simp only [reassemble, hdata, if_neg hmultiple.1, if_neg hmultiple.2, hlook]
  | some group => simp only [reassemble, hdata, if_neg hmultiple.1, if_neg hmultiple.2, hlook]

theorem reassemble_unchanged (h : ∀ header chunk,
    FragmentHeader.decode data = some (header, chunk) → ¬ header.Multiple) :
    (r.reassemble order data).2 = r := by
  rw [reassemble]
  cases hdata : FragmentHeader.decode data with
  | none => rfl
  | some x =>
    have hnot := h x.1 x.2 hdata
    rw [FragmentHeader.Multiple, not_and_or, not_not, not_not] at hnot
    by_cases hinvalid : x.1.fragmentCount = 0 ∨ x.1.fragmentCount ≤ x.1.fragmentId
    · simp only [if_pos hinvalid]
    · simp only [if_neg hinvalid, if_pos (hnot.resolve_left hinvalid)]

theorem fresh_accepts (header : FragmentHeader) :
    ¬ Rejects (fresh header.fragmentCount) header := by
  simp [Rejects, fresh]

end Reassembler

theorem Group.Records.fresh {header : FragmentHeader} (hmultiple : header.Multiple) :
    (Reassembler.fresh header.fragmentCount).Records [] := by
  have hzero : header.fragmentCount ≠ 0 := fun h => hmultiple.1 (Or.inl h)
  refine ⟨List.length_replicate, fun f hf => absurd hf List.not_mem_nil, List.nodup_nil, rfl,
    UInt8.pos_iff_ne_zero.mpr hzero, fun f hf => absurd hf List.not_mem_nil, fun id _ => ?_⟩
  simp [Reassembler.fresh]

theorem FragmentHeader.Multiple.id_lt {header : FragmentHeader} (h : header.Multiple) :
    header.fragmentId < header.fragmentCount := UInt8.not_le.mp fun hle => h.1 (Or.inr hle)

theorem FragmentHeader.Multiple.one_lt {header : FragmentHeader} (h : header.Multiple) :
    1 < header.fragmentCount := by
  have hne : header.fragmentCount.toNat ≠ 1 := fun heq => h.2 (UInt8.toNat_inj.mp heq)
  have hlt := UInt8.lt_iff_toNat_lt.mp h.id_lt
  rw [UInt8.lt_iff_toNat_lt, UInt8.toNat_one]
  omega

namespace Intake

variable {s : Intake} {a : VisitOrder × Bytes} {header : FragmentHeader} {chunk : Bytes}

def Sound (s : Intake) : Prop :=
  ∀ seq g, s.reassembler.groups.lookup seq = some g → g.Records (s.accepted seq)

theorem Sound.of_step (h : s.Sound) (hdata : FragmentHeader.decode a.2 = some (header, chunk))
    (hmultiple : header.Multiple)
    (hother : ∀ seq g, seq ≠ header.packetSeq →
      (s.reassembler.reassemble a.1 a.2).2.groups.lookup seq = some g →
      s.reassembler.groups.lookup seq = some g)
    (hself : ∀ g, (s.reassembler.reassemble a.1 a.2).2.groups.lookup header.packetSeq = some g →
      g.Records (s.taken header chunk)) : (s.next a).Sound := by
  intro seq g hg
  have haccepted : (s.next a).accepted =
      Function.update s.accepted header.packetSeq (s.taken header chunk) := by
    simp only [next, hdata, if_pos hmultiple]
  rw [haccepted]
  by_cases hseq : seq = header.packetSeq
  · subst hseq
    rw [Function.update_self]
    exact hself g hg
  · rw [Function.update_of_ne hseq]
    exact h seq g (hother seq g hseq hg)

theorem Sound.next_of_none (h : s.Sound)
    (hdata : FragmentHeader.decode a.2 = some (header, chunk)) (hmultiple : header.Multiple)
    (hnone : s.reassembler.groups.lookup header.packetSeq = none) :
    (s.reassembler.reassemble a.1 a.2).1 = none ∧ (s.next a).Sound := by
  have hfresh := Group.Records.fresh hmultiple
  have hmore : ((Reassembler.fresh header.fragmentCount).accept header chunk).received <
      (Reassembler.fresh header.fragmentCount).count := hmultiple.one_lt
  have hrecords := @Group.Records.accept _ _ header chunk hfresh rfl hmultiple.id_lt
    (fun f hf => absurd hf List.not_mem_nil) hmore
  have htaken : s.taken header chunk = [(header, chunk)] := by simp only [taken, hnone]
  have hr := Reassembler.reassemble_multiple s.reassembler a.1 hdata hmultiple
  simp only [hnone, Reassembler.store_accepts (Reassembler.fresh_accepts header),
    if_pos hmore] at hr
  refine ⟨by rw [hr], h.of_step hdata hmultiple (fun seq g hseq hg => ?_) fun g hg => ?_⟩
  · rw [hr] at hg
    simp only [Finmap.lookup_insert_of_ne _ hseq] at hg
    split_ifs at hg
    · exact lookup_evictOldest hg
    · exact hg
  · rw [hr] at hg
    simp only [Finmap.lookup_insert, Option.some.injEq] at hg
    exact htaken ▸ hg ▸ hrecords

theorem Sound.next_of_some (h : s.Sound)
    (hdata : FragmentHeader.decode a.2 = some (header, chunk)) (hmultiple : header.Multiple)
    (hmarked : s.Marked a) {g : Group}
    (hg : s.reassembler.groups.lookup header.packetSeq = some g) :
    (∀ packet, (s.reassembler.reassemble a.1 a.2).1 = some packet → ∀ id < header.fragmentCount,
      ∃ f ∈ s.taken header chunk, f.1.fragmentId = id ∧
        f.1.fragmentCount = header.fragmentCount) ∧ (s.next a).Sound := by
  have hrecords := h _ g hg
  have hr := Reassembler.reassemble_multiple s.reassembler a.1 hdata hmultiple
  simp only [hg] at hr
  by_cases hreject : Reassembler.Rejects g header
  · have htaken : s.taken header chunk = s.accepted header.packetSeq := by
      simp only [taken, hg, if_pos hreject]
    rw [Reassembler.store_rejects hreject] at hr
    have htable : (s.reassembler.reassemble a.1 a.2).2 = s.reassembler := congrArg Prod.snd hr
    refine ⟨fun packet hout => absurd (hr ▸ hout) (by simp),
      h.of_step hdata hmultiple (fun seq g' _ hg' => htable ▸ hg') fun g' hg' => ?_⟩
    rw [htaken]
    exact h _ g' (htable ▸ hg')
  · have htaken : s.taken header chunk = s.accepted header.packetSeq ++ [(header, chunk)] := by
      simp only [taken, hg, if_neg hreject]
    have hcount : header.fragmentCount = g.count := not_not.mp (not_or.mp hreject).1
    have hid : header.fragmentId < g.count := hcount ▸ hmultiple.id_lt
    have hnew := hrecords.new hreject (hmarked header chunk g hdata hmultiple hg hcount)
    rw [Reassembler.store_accepts hreject] at hr
    rw [htaken]
    by_cases hmore : (g.accept header chunk).received < g.count
    · rw [if_pos hmore] at hr
      refine ⟨fun packet hout => absurd (hr ▸ hout) (by simp),
        h.of_step hdata hmultiple (fun seq g' hseq hg' => ?_) fun g' hg' => ?_⟩
      · rw [hr] at hg'
        rwa [Finmap.lookup_insert_of_ne _ hseq] at hg'
      · rw [hr, Finmap.lookup_insert, Option.some.injEq] at hg'
        exact htaken ▸ hg' ▸ hrecords.accept hcount hid hnew hmore
    · rw [if_neg hmore] at hr
      refine ⟨fun packet _ => hcount ▸ hrecords.all_of_full hcount hid hnew hmore,
        h.of_step hdata hmultiple (fun seq g' _ hg' => ?_) fun g' hg' => ?_⟩
      · rw [hr] at hg'
        exact lookup_of_erase hg'
      · rw [hr, Finmap.lookup_erase] at hg'
        exact absurd hg' (by simp)

theorem Sound.next (h : s.Sound) (hmarked : s.Marked a) : (s.next a).Sound := by
  by_cases hall : ∀ header chunk, FragmentHeader.decode a.2 = some (header, chunk) →
      ¬ header.Multiple
  · have haccepted : (s.next a).accepted = s.accepted := by
      cases hdata : FragmentHeader.decode a.2 with
      | none => simp only [Intake.next, hdata]
      | some x => simp only [Intake.next, hdata, if_neg (hall x.1 x.2 hdata)]
    have htable : (s.next a).reassembler = s.reassembler := Reassembler.reassemble_unchanged hall
    intro seq g hg
    rw [haccepted]
    exact h seq g (htable ▸ hg)
  · push Not at hall
    obtain ⟨header, chunk, hdata, hmultiple⟩ := hall
    cases hlook : s.reassembler.groups.lookup header.packetSeq with
    | none => exact (h.next_of_none hdata hmultiple hlook).2
    | some g => exact (h.next_of_some hdata hmultiple hmarked hlook).2

theorem sound {s : Intake} (h : machine.ReachableUnder Marked s) : s.Sound := by
  refine h.invariant ?_ fun s a hs hmarked _ => hs.next hmarked
  exact fun seq g hg => absurd hg (by simp [machine])

theorem mem_ids {seq : UInt16} {id : UInt8} :
    id ∈ s.ids seq ↔ ∃ f ∈ s.accepted seq, f.1.fragmentId = id := by
  rw [ids, List.mem_toFinset, List.mem_map]

/-- In a run in which no fragment repeats one with an empty chunk, a group counts the
distinct ids it has accepted, a packet is returned only if all of them have come in,
and a repeated id changes nothing. -/
theorem counts_distinct {s : Intake} (h : machine.ReachableUnder Marked s) :
    (∀ seq g, s.reassembler.groups.lookup seq = some g →
      g.received.toNat = (s.ids seq).card ∧ g.received < g.count) ∧
    ∀ a header chunk, FragmentHeader.decode a.2 = some (header, chunk) → header.Multiple →
      s.Marked a →
      (∀ packet, (s.reassembler.reassemble a.1 a.2).1 = some packet →
        ∀ id < header.fragmentCount, ∃ f ∈ s.taken header chunk,
          f.1.fragmentId = id ∧ f.1.fragmentCount = header.fragmentCount) ∧
      (s.reassembler.groups.lookup header.packetSeq ≠ none →
        header.fragmentId ∈ s.ids header.packetSeq →
        s.reassembler.reassemble a.1 a.2 = (none, s.reassembler)) := by
  have hsound := sound h
  refine ⟨fun seq g hg => ⟨?_, (hsound seq g hg).received_lt⟩,
    fun a header chunk hdata hmultiple hmarked => ?_⟩
  · rw [(hsound seq g hg).received, ids,
      List.toFinset_card_of_nodup (hsound seq g hg).nodup, List.length_map]
  · cases hlook : s.reassembler.groups.lookup header.packetSeq with
    | none =>
      obtain ⟨hout, -⟩ := hsound.next_of_none hdata hmultiple hlook
      exact ⟨fun packet hpacket => absurd (hout ▸ hpacket) (by simp), fun hne => absurd rfl hne⟩
    | some g =>
      refine ⟨(hsound.next_of_some hdata hmultiple hmarked hlook).1, fun _ hid => ?_⟩
      have hreject : Reassembler.Rejects g header := by
        rw [(hsound _ g hlook).rejects_iff]
        by_cases hcount : header.fragmentCount = g.count
        · obtain ⟨f, hf, heq⟩ := mem_ids.mp hid
          exact Or.inr ⟨f, hf, heq, hmarked header chunk g hdata hmultiple hlook hcount f hf heq⟩
        · exact Or.inl hcount
      rw [Reassembler.reassemble_multiple _ _ hdata hmultiple, hlook]
      exact Reassembler.store_rejects hreject

def mixedIntake : List (VisitOrder × Bytes) :=
  [[1, 0, 0, 3, 7], [9], [1, 0, 0, 3, 7], [1, 0, 1, 4, 5], [1, 0, 2, 3]].map fun data =>
    (VisitOrder.ascending, data)

theorem counts_distinct_mixedIntake :
    let s := machine.runFrom {} mixedIntake
    ((s.ids 1).card = 2 ∧ s.reassembler.reassemble .ascending [1, 0, 0, 3, 6] =
      (none, s.reassembler)) ∧
      (s.reassembler.reassemble .ascending [1, 0, 1, 3, 8]).1 = some [7, 8] ∧
      ∀ id < 3, ∃ f ∈ s.taken ⟨1, 1, 3⟩ [8], f.1.fragmentId = id ∧ f.1.fragmentCount = 3 := by
  intro s
  have hreach : machine.ReachableUnder Marked s :=
    Machine.ReachableUnder.init.runFrom (by decide +kernel)
  obtain ⟨hcounts, harrivals⟩ := counts_distinct hreach
  have hcompletes : (s.reassembler.reassemble .ascending [1, 0, 1, 3, 8]).1 = some [7, 8] := by
    decide +kernel
  have hrepeat := (harrivals (.ascending, [1, 0, 0, 3, 6]) ⟨1, 0, 3⟩ [6] rfl (by decide)
    (by decide +kernel)).2 (by decide +kernel) (by decide +kernel)
  have hall := (harrivals (.ascending, [1, 0, 1, 3, 8]) ⟨1, 1, 3⟩ [8] rfl (by decide)
    (by decide +kernel)).1 [7, 8] hcompletes
  have hgroup : s.reassembler.groups.lookup 1 = some ⟨3, 2, [[7], [], []]⟩ := rfl
  exact ⟨⟨(hcounts 1 _ hgroup).1.symm, hrepeat⟩, hcompletes, hall⟩

/-- The condition is needed: the first fragment that breaks it is counted again. -/
theorem unmarked_advances {s : Intake} (h : machine.ReachableUnder Marked s)
    (hunmarked : ¬ s.Marked a) : ∃ header chunk,
      FragmentHeader.decode a.2 = some (header, chunk) ∧
        header.fragmentId ∈ s.ids header.packetSeq ∧
        s.reassembler.reassemble a.1 a.2 ≠ (none, s.reassembler) := by
  rw [Marked] at hunmarked
  push Not at hunmarked
  obtain ⟨header, chunk, g, hdata, hmultiple, hg, hcount, f, hf, hid, hempty⟩ := hunmarked
  have hrecords := sound h _ g hg
  refine ⟨header, chunk, hdata, mem_ids.mpr ⟨f, hf, hid⟩, ?_⟩
  have haccepts : ¬ Reassembler.Rejects g header := by
    intro hreject
    rcases hrecords.rejects_iff.mp hreject with hother | ⟨d, hd, hdid, hne⟩
    · exact hother hcount
    · obtain rfl := List.inj_on_of_nodup_map hrecords.nodup hd hf (hdid.trans hid.symm)
      exact hne hempty
  rw [Reassembler.reassemble_multiple _ _ hdata hmultiple, hg]
  simp only [Reassembler.store_accepts haccepts]
  split_ifs
  · intro hsame
    have hlook := congrArg (fun x => x.2.groups.lookup header.packetSeq) hsame
    simp only [Finmap.lookup_insert, hg, Option.some.injEq] at hlook
    have hreceived : (g.accept header chunk).received.toNat = _ := hrecords.received_accept
    rw [hlook, hrecords.received] at hreceived
    omega
  · exact fun hsame => absurd (congrArg Prod.fst hsame) (by simp)

end Intake

def headerOnly : VisitOrder × Bytes := (.ascending, [1, 0, 0, 2])

theorem headerOnly_completes :
    ¬ ∀ s, Intake.machine.Reachable s → ∀ (a : VisitOrder × Bytes) header chunk packet,
      FragmentHeader.decode a.2 = some (header, chunk) → header.Multiple →
      (s.reassembler.reassemble a.1 a.2).1 = some packet → ∀ id < header.fragmentCount,
        ∃ f ∈ s.taken header chunk, f.1.fragmentId = id ∧
          f.1.fragmentCount = header.fragmentCount := by
  intro hclaim
  have hall := hclaim (Intake.next {} headerOnly)
    (Machine.Reachable.init.step headerOnly trivial) headerOnly ⟨1, 0, 2⟩ [] [] rfl (by decide)
    (by decide) 1 (by decide)
  revert hall
  decide

end Netcode.Transport
