import Netcode.Transport.Fragment

/-!
# Fragments of several packets in any order

A `Traffic` is what a reassembler with room for `kMaxGroups` groups can take at
once. Its fragments may come interleaved, in any order and any number of times.
What the reassembler is for is to return a packet when the last of its fragments
has come in; `supplied` says which have come in since it was last returned.
-/

namespace Netcode.Transport

open Netcode.Library

structure Traffic where
  packets : List (UInt16 × Bytes)
  seqs : (packets.map Prod.fst).Nodup
  length_le : ∀ x ∈ packets, x.2.length ≤ 255 * kMaxFragmentSize
  few : packets.countP (fun x => 2 ≤ fragmentCount x.2.length) ≤ kMaxGroups

def Traffic.Carries (t : Traffic) (data : Bytes) : Prop :=
  ∃ x ∈ t.packets, data ∈ fragment x.1 x.2

/-- `data` is the last fragment of `x` that was missing. -/
def Completes (x : UInt16 × Bytes) (held : Finset Bytes) (data : Bytes) : Prop :=
  data ∈ fragment x.1 x.2 ∧ ∀ d ∈ fragment x.1 x.2, d = data ∨ d ∈ held

instance instDecidableCompletes (x : UInt16 × Bytes) (held : Finset Bytes) (data : Bytes) :
    Decidable (Completes x held data) :=
  inferInstanceAs (Decidable (data ∈ fragment x.1 x.2 ∧ ∀ d ∈ fragment x.1 x.2,
    d = data ∨ d ∈ held))

def supply (x : UInt16 × Bytes) (held : Finset Bytes) (data : Bytes) : Finset Bytes :=
  if data ∈ fragment x.1 x.2 then if Completes x held data then ∅ else insert data held
  else held

def supplied (x : UInt16 × Bytes) (stream : List Bytes) : Finset Bytes :=
  stream.foldl (supply x) ∅

def Reassembler.after (arrivals : List (VisitOrder × Bytes)) : Reassembler :=
  arrivals.foldl (fun r a => (r.reassemble a.1 a.2).2) {}

section Datagrams

variable {s t : UInt16} {p q d : Bytes} {i j : ℕ}

theorem mem_fragment : d ∈ fragment s p ↔ ∃ i < fragmentCount p.length, datagram s p i = d := by
  rw [fragment_eq, List.mem_map]
  simp only [List.mem_range]

theorem datagram_header (h : datagram s p i = datagram t q j) :
    fragmentHeader s p i = fragmentHeader t q j := by
  have hdecode := congrArg FragmentHeader.decode h
  simp only [datagram, FragmentHeader.decode_encode, Option.some.injEq, Prod.mk.injEq] at hdecode
  exact hdecode.1

theorem datagram_injective (hp : p.length ≤ 255 * kMaxFragmentSize)
    (hi : i < fragmentCount p.length) (hj : j < fragmentCount p.length)
    (h : datagram s p i = datagram s p j) : i = j := by
  have hid := congrArg (fun h => h.fragmentId.toNat) (datagram_header h)
  rwa [fragmentHeader, fragmentHeader, toNat_fragmentId hp hi, toNat_fragmentId hp hj] at hid

theorem fragment_seq (hp : d ∈ fragment s p) (hq : d ∈ fragment t q) : s = t := by
  obtain ⟨i, -, rfl⟩ := mem_fragment.mp hp
  obtain ⟨j, -, heq⟩ := mem_fragment.mp hq
  exact (congrArg FragmentHeader.packetSeq (datagram_header heq)).symm

end Datagrams

structure Group.Collects (g : Group) (x : UInt16 × Bytes) (held : Finset Bytes) : Prop
    extends g.Holds x.2 where
  slot : ∀ i, ∀ hi : i < g.chunks.length, g.chunks[i] ≠ [] ↔ datagram x.1 x.2 i ∈ held
  missing : ∃ d ∈ fragment x.1 x.2, d ∉ held

namespace Group.Collects

variable {g : Group} {x : UInt16 × Bytes} {held : Finset Bytes} {i : ℕ}

theorem rejects_iff (h : g.Collects x held) (hp : x.2.length ≤ 255 * kMaxFragmentSize)
    (hi : i < fragmentCount x.2.length) :
    Reassembler.Rejects g (fragmentHeader x.1 x.2 i) ↔ datagram x.1 x.2 i ∈ held := by
  have hcount : (fragmentHeader x.1 x.2 i).fragmentCount = g.count := by
    rw [← UInt8.toNat_inj, h.count]
    exact toNat_fragmentCount hp
  have hid : (fragmentHeader x.1 x.2 i).fragmentId.toNat = i := toNat_fragmentId hp hi
  have hi' : i < g.chunks.length := h.length.symm ▸ hi
  rw [Reassembler.Rejects, hid, List.getD_eq_getElem _ _ hi', h.slot i hi']
  exact ⟨fun hr => hr.resolve_left fun hne => hne hcount, Or.inr⟩

theorem slot_put (h : g.Collects x held) (hp : x.2.length ≤ 255 * kMaxFragmentSize)
    (hi : i < fragmentCount x.2.length) (j : ℕ) (hj : j < (g.put x.2 i).chunks.length) :
    (g.put x.2 i).chunks[j] ≠ [] ↔ datagram x.1 x.2 j ∈ insert (datagram x.1 x.2 i) held := by
  have hj' : j < g.chunks.length := by simpa only [Group.put, List.length_set] using hj
  simp only [Group.put, List.getElem_set, Finset.mem_insert]
  split_ifs with hij
  · subst hij
    exact ⟨fun _ => Or.inl rfl, fun _ => piece_fragment_ne_nil h.multiple hi⟩
  · rw [h.slot j hj']
    refine ⟨Or.inr, fun hmem => hmem.resolve_left fun heq => ?_⟩
    exact hij (datagram_injective hp hi (h.length ▸ hj') heq.symm)

theorem put_full_iff (h : g.Collects x held) (hp : x.2.length ≤ 255 * kMaxFragmentSize)
    (hi : i < fragmentCount x.2.length) (hput : (g.put x.2 i).Holds x.2) :
    (g.put x.2 i).received < g.count ↔ ¬ Completes x held (datagram x.1 x.2 i) := by
  have hcount : g.count = (g.put x.2 i).count := rfl
  have hfull : ¬ (g.put x.2 i).received < g.count ↔
      filled (g.put x.2 i).chunks = (g.put x.2 i).chunks.length := by
    have hle := filled_le_length (g.put x.2 i).chunks
    rw [UInt8.lt_iff_toNat_lt, hcount, hput.received, hput.count, ← hput.length]
    omega
  rw [← not_iff_not, not_not, hfull, filled_eq_length_iff]
  constructor
  · intro hall
    refine ⟨mem_fragment.mpr ⟨i, hi, rfl⟩, fun d hd => ?_⟩
    obtain ⟨j, hj, rfl⟩ := mem_fragment.mp hd
    have hj' : j < (g.put x.2 i).chunks.length := hput.length.symm ▸ hj
    exact Finset.mem_insert.mp ((h.slot_put hp hi j hj').mp (hall j hj'))
  · intro hlast j hj
    rw [h.slot_put hp hi j hj, Finset.mem_insert]
    exact hlast.2 _ (mem_fragment.mpr ⟨j, hput.length ▸ hj, rfl⟩)

theorem fresh (hp : x.2.length ≤ 255 * kMaxFragmentSize)
    (hmultiple : 2 ≤ fragmentCount x.2.length) :
    (Reassembler.fresh (fragmentHeader x.1 x.2 i).fragmentCount).Collects x ∅ := by
  refine ⟨holds_fresh hp hmultiple, fun j hj => ?_, datagram x.1 x.2 0, ?_, Finset.notMem_empty _⟩
  · simp only [Reassembler.fresh, List.getElem_replicate, ne_eq, not_true_eq_false,
      Finset.notMem_empty]
  · exact mem_fragment.mpr ⟨0, fragmentCount_pos _, rfl⟩

theorem accepts_put (h : g.Collects x held) (hp : x.2.length ≤ 255 * kMaxFragmentSize)
    (hi : i < fragmentCount x.2.length) (hnew : datagram x.1 x.2 i ∉ held) :
    (g.put x.2 i).Holds x.2 := by
  have hi' : i < g.chunks.length := h.length.symm ▸ hi
  exact h.toHolds.put hp hi' (not_not.mp fun hne => hnew ((h.slot i hi').mp hne))

theorem put (h : g.Collects x held) (hp : x.2.length ≤ 255 * kMaxFragmentSize)
    (hi : i < fragmentCount x.2.length) (hnew : datagram x.1 x.2 i ∉ held)
    (hmore : ¬ Completes x held (datagram x.1 x.2 i)) :
    (g.put x.2 i).Collects x (insert (datagram x.1 x.2 i) held) := by
  refine ⟨h.accepts_put hp hi hnew, h.slot_put hp hi, ?_⟩
  by_contra hall
  push Not at hall
  exact hmore ⟨mem_fragment.mpr ⟨i, hi, rfl⟩, fun d hd => Finset.mem_insert.mp (hall d hd)⟩

theorem not_completes (h : g.Collects x held) {data : Bytes} (hdata : data ∈ held) :
    ¬ Completes x held data := by
  obtain ⟨d, hd, hmissing⟩ := h.missing
  intro hlast
  rcases hlast.2 d hd with heq | hmem
  · exact hmissing (heq ▸ hdata)
  · exact hmissing hmem

end Group.Collects

theorem not_completes_empty {x : UInt16 × Bytes} (hp : x.2.length ≤ 255 * kMaxFragmentSize)
    (hmultiple : 2 ≤ fragmentCount x.2.length) (data : Bytes) : ¬ Completes x ∅ data := by
  intro hlast
  have hall : ∀ j < fragmentCount x.2.length, datagram x.1 x.2 j = data := fun j hj =>
    (hlast.2 _ (mem_fragment.mpr ⟨j, hj, rfl⟩)).resolve_right (Finset.notMem_empty _)
  have hsame := (hall 0 (by omega)).trans (hall 1 (by omega)).symm
  exact absurd (datagram_injective hp (by omega) (by omega) hsame) (by decide)

theorem supplied_concat (x : UInt16 × Bytes) (stream : List Bytes) (d : Bytes) :
    supplied x (stream ++ [d]) = supply x (supplied x stream) d := List.foldl_concat ..

/-- For each packet the table has the fragments that are supplied, and no other group. -/
structure Reassembler.Tracks (r : Reassembler) (t : Traffic) (stream : List Bytes) : Prop where
  keys : ∀ s g, r.groups.lookup s = some g → ∃ x ∈ t.packets, x.1 = s
  none : ∀ x ∈ t.packets, r.groups.lookup x.1 = none → supplied x stream = ∅
  some : ∀ x ∈ t.packets, ∀ g, r.groups.lookup x.1 = some g → g.Collects x (supplied x stream)

def Reassembler.Answers (r : Reassembler) (t : Traffic) (stream : List Bytes)
    (order : VisitOrder) (x : UInt16 × Bytes) (d : Bytes) : Prop :=
  (r.reassemble order d).1 = (if Completes x (supplied x stream) d then some x.2 else none) ∧
    (r.reassemble order d).2.Tracks t (stream ++ [d])

namespace Reassembler.Tracks

variable {r r' : Reassembler} {t : Traffic} {stream : List Bytes} {x : UInt16 × Bytes} {d : Bytes}

theorem init (t : Traffic) : ({} : Reassembler).Tracks t [] where
  keys s g h := absurd h (by simp)
  none x _ _ := rfl
  some x _ g h := absurd h (by simp)

theorem room (h : r.Tracks t stream) (hx : x ∈ t.packets)
    (hmultiple : 2 ≤ fragmentCount x.2.length) (hnone : r.groups.lookup x.1 = Option.none) :
    r.groups.keys.card < kMaxGroups := by
  set multi := (t.packets.filter fun x => 2 ≤ fragmentCount x.2.length).map Prod.fst with hmulti
  have hmem : ∀ y ∈ t.packets, 2 ≤ fragmentCount y.2.length → y.1 ∈ multi.toFinset := by
    intro y hy hcount
    rw [List.mem_toFinset, hmulti, List.mem_map]
    exact ⟨y, List.mem_filter.mpr ⟨hy, decide_eq_true hcount⟩, rfl⟩
  have hsub : r.groups.keys ⊆ multi.toFinset.erase x.1 := by
    intro s hs
    obtain ⟨g, hg⟩ := Option.isSome_iff_exists.mp
      (Finmap.lookup_isSome.mpr (Finmap.mem_keys.mp hs))
    obtain ⟨y, hy, rfl⟩ := h.keys s g hg
    refine Finset.mem_erase.mpr ⟨fun heq => ?_, hmem y hy (h.some y hy g hg).multiple⟩
    rw [heq, hnone] at hg
    exact absurd hg (by simp)
  have hfew : multi.length ≤ kMaxGroups := by
    rw [hmulti, List.length_map, ← List.countP_eq_length_filter]
    exact t.few
  calc r.groups.keys.card
      ≤ (multi.toFinset.erase x.1).card := Finset.card_le_card hsub
    _ < multi.toFinset.card := Finset.card_erase_lt_of_mem (hmem x hx hmultiple)
    _ ≤ multi.length := List.toFinset_card_le _
    _ ≤ kMaxGroups := hfew

theorem eq_of_seq (t : Traffic) {y : UInt16 × Bytes} (hx : x ∈ t.packets) (hy : y ∈ t.packets)
    (h : y.1 = x.1) : y = x := List.inj_on_of_nodup_map t.seqs hy hx h

theorem of_step (h : r.Tracks t stream) (hx : x ∈ t.packets) (hd : d ∈ fragment x.1 x.2)
    (hother : ∀ s ≠ x.1, r'.groups.lookup s = r.groups.lookup s)
    (hnone : r'.groups.lookup x.1 = Option.none → supply x (supplied x stream) d = ∅)
    (hsome : ∀ g, r'.groups.lookup x.1 = Option.some g →
      g.Collects x (supply x (supplied x stream) d)) : r'.Tracks t (stream ++ [d]) := by
  have hstream : ∀ y ∈ t.packets, y.1 ≠ x.1 → supplied y (stream ++ [d]) = supplied y stream := by
    intro y _ hne
    rw [supplied_concat]
    exact if_neg fun hmem => hne (fragment_seq hmem hd)
  refine ⟨fun s g hg => ?_, fun y hy hg => ?_, fun y hy g hg => ?_⟩
  · by_cases hs : s = x.1
    · exact ⟨x, hx, hs.symm⟩
    · exact h.keys s g (hother s hs ▸ hg)
  · by_cases hs : y.1 = x.1
    · obtain rfl := eq_of_seq t hx hy hs
      exact (supplied_concat _ _ _).trans (hnone hg)
    · rw [hstream y hy hs]
      exact h.none y hy (hother _ hs ▸ hg)
  · by_cases hs : y.1 = x.1
    · obtain rfl := eq_of_seq t hx hy hs
      exact supplied_concat _ _ _ ▸ hsome g hg
    · rw [hstream y hy hs]
      exact h.some y hy g (hother _ hs ▸ hg)

theorem whole (h : r.Tracks t stream) (hx : x ∈ t.packets) (order : VisitOrder)
    (hone : fragmentCount x.2.length = 1) : Answers r t stream order x (datagram x.1 x.2 0) := by
  have hmem : datagram x.1 x.2 0 ∈ fragment x.1 x.2 :=
    mem_fragment.mpr ⟨0, fragmentCount_pos _, rfl⟩
  have hlast : ∀ held, Completes x held (datagram x.1 x.2 0) := by
    refine fun held => ⟨hmem, fun d hd => Or.inl ?_⟩
    obtain ⟨i, hi, rfl⟩ := mem_fragment.mp hd
    obtain rfl : i = 0 := by omega
    rfl
  rw [Answers, reassemble_whole hone, if_pos (hlast _)]
  refine ⟨rfl, h.of_step hx hmem (fun _ _ => rfl) (fun _ => ?_) fun g hg => ?_⟩
  · rw [supply, if_pos hmem, if_pos (hlast _)]
  · have hmultiple := (h.some x hx g hg).multiple
    omega

theorem opened (h : r.Tracks t stream) (hx : x ∈ t.packets) (order : VisitOrder)
    (hmultiple : 2 ≤ fragmentCount x.2.length) {i : ℕ} (hi : i < fragmentCount x.2.length)
    (hnone : r.groups.lookup x.1 = Option.none) :
    Answers r t stream order x (datagram x.1 x.2 i) := by
  have hp := t.length_le x hx
  have hmem : datagram x.1 x.2 i ∈ fragment x.1 x.2 := mem_fragment.mpr ⟨i, hi, rfl⟩
  have hmore := not_completes_empty hp hmultiple (datagram x.1 x.2 i)
  have hput := (Group.Collects.fresh (i := i) hp hmultiple).put hp hi (Finset.notMem_empty _) hmore
  obtain ⟨groups, -, hroom, hr⟩ := reassemble_created (r := r) order hp hmultiple hi hnone
  rw [hroom (h.room hx hmultiple hnone)] at hr
  have hsupply : supply x (supplied x stream) (datagram x.1 x.2 i) =
      insert (datagram x.1 x.2 i) ∅ := by
    rw [h.none x hx hnone, supply, if_pos hmem, if_neg hmore]
  rw [Answers, hr, h.none x hx hnone, if_neg hmore]
  refine ⟨rfl, h.of_step hx hmem (fun s hs => Finmap.lookup_insert_of_ne _ hs) ?_ ?_⟩
  · exact fun hlook => absurd (Finmap.lookup_insert (s := r.groups) ▸ hlook) (by simp)
  · intro g hg
    rw [Finmap.lookup_insert, Option.some.injEq] at hg
    exact hsupply ▸ hg ▸ hput

theorem found (h : r.Tracks t stream) (hx : x ∈ t.packets) (order : VisitOrder) {i : ℕ}
    (hi : i < fragmentCount x.2.length) {g : Group} (hg : r.groups.lookup x.1 = Option.some g) :
    Answers r t stream order x (datagram x.1 x.2 i) := by
  have hp := t.length_le x hx
  have hcollects := h.some x hx g hg
  have hmem : datagram x.1 x.2 i ∈ fragment x.1 x.2 := mem_fragment.mpr ⟨i, hi, rfl⟩
  have hr := reassemble_found order hp hcollects.multiple hi hg
  by_cases hheld : datagram x.1 x.2 i ∈ supplied x stream
  · have hmore := hcollects.not_completes hheld
    have hsupply : supply x (supplied x stream) (datagram x.1 x.2 i) = supplied x stream := by
      rw [supply, if_pos hmem, if_neg hmore, Finset.insert_eq_of_mem hheld]
    rw [store_rejects ((hcollects.rejects_iff hp hi).mpr hheld)] at hr
    rw [Answers, hr, if_neg hmore]
    refine ⟨rfl, h.of_step hx hmem (fun _ _ => rfl) (fun hlook => ?_) fun g' hg' => ?_⟩
    · exact absurd (hg ▸ hlook) (by simp)
    · rw [hsupply]
      exact h.some x hx g' hg'
  · obtain ⟨hput, hstore⟩ := store_holds (r := r) hcollects.toHolds hp hi
      fun hr => hheld ((hcollects.rejects_iff hp hi).mp hr)
    rw [hstore] at hr
    by_cases hlast : Completes x (supplied x stream) (datagram x.1 x.2 i)
    · rw [if_neg fun hlt => (hcollects.put_full_iff hp hi hput).mp hlt hlast] at hr
      rw [Answers, hr, if_pos hlast]
      refine ⟨rfl, h.of_step hx hmem (fun s hs => Finmap.lookup_erase_ne hs) (fun _ => ?_) ?_⟩
      · rw [supply, if_pos hmem, if_pos hlast]
      · intro g' hg'
        rw [Finmap.lookup_erase] at hg'
        exact absurd hg' (by simp)
    · rw [if_pos ((hcollects.put_full_iff hp hi hput).mpr hlast)] at hr
      rw [Answers, hr, if_neg hlast]
      refine ⟨rfl, h.of_step hx hmem (fun s hs => Finmap.lookup_insert_of_ne _ hs) ?_ ?_⟩
      · exact fun hlook => absurd (Finmap.lookup_insert (s := r.groups) ▸ hlook) (by simp)
      · intro g' hg'
        rw [Finmap.lookup_insert, Option.some.injEq] at hg'
        rw [supply, if_pos hmem, if_neg hlast, ← hg']
        exact hcollects.put hp hi hheld hlast

theorem reassemble (h : r.Tracks t stream) (hx : x ∈ t.packets) (order : VisitOrder)
    (hd : d ∈ fragment x.1 x.2) : Answers r t stream order x d := by
  obtain ⟨i, hi, rfl⟩ := mem_fragment.mp hd
  rcases Nat.lt_or_ge 1 (fragmentCount x.2.length) with hmultiple | hone
  · cases hg : r.groups.lookup x.1 with
    | none => exact h.opened hx order hmultiple hi hg
    | some g => exact h.found hx order hi hg
  · obtain rfl : i = 0 := by omega
    exact h.whole hx order (le_antisymm hone (fragmentCount_pos _))

end Reassembler.Tracks

theorem tracks_after (t : Traffic) {arrivals : List (VisitOrder × Bytes)}
    (harrivals : ∀ a ∈ arrivals, t.Carries a.2) :
    (Reassembler.after arrivals).Tracks t (arrivals.map Prod.snd) := by
  induction arrivals using List.reverseRecOn with
  | nil => exact Reassembler.Tracks.init t
  | append_singleton arrivals a ih =>
    have hbefore := ih fun b hb => harrivals b (List.mem_append_left _ hb)
    obtain ⟨x, hx, hd⟩ := harrivals a (List.mem_append_right _ (List.mem_singleton_self a))
    rw [Reassembler.after, List.foldl_concat, List.map_append]
    exact (hbefore.reassemble hx a.1 hd).2

theorem mem_supplied {x : UInt16 × Bytes} {d : Bytes} {stream : List Bytes}
    (hd : d ∈ fragment x.1 x.2) (hnew : d ∉ stream) {e : Bytes} (he : e ∈ fragment x.1 x.2)
    (hmem : e ∈ stream) : e ∈ supplied x stream := by
  have hsub : ∀ stream : List Bytes, d ∉ stream → d ∉ supplied x stream ∧
      ∀ e ∈ fragment x.1 x.2, e ∈ stream → e ∈ supplied x stream := by
    intro stream
    induction stream using List.reverseRecOn with
    | nil => exact fun _ => ⟨Finset.notMem_empty _, fun e _ he => absurd he List.not_mem_nil⟩
    | append_singleton stream a ih =>
      intro hnew
      simp only [List.mem_append, List.mem_singleton, not_or] at hnew
      obtain ⟨hmissing, hkept⟩ := ih hnew.1
      rw [supplied_concat, supply]
      by_cases ha : a ∈ fragment x.1 x.2
      · have hmore : ¬ Completes x (supplied x stream) a := fun hlast =>
          (hlast.2 d hd).elim hnew.2 hmissing
        rw [if_pos ha, if_neg hmore]
        refine ⟨fun h => (Finset.mem_insert.mp h).elim hnew.2 hmissing, fun e he hmem => ?_⟩
        rcases List.mem_append.mp hmem with hmem | hmem
        · exact Finset.mem_insert_of_mem (hkept e he hmem)
        · exact Finset.mem_insert.mpr (Or.inl (List.mem_singleton.mp hmem))
      · rw [if_neg ha]
        refine ⟨hmissing, fun e he hmem => ?_⟩
        rcases List.mem_append.mp hmem with hmem | hmem
        · exact hkept e he hmem
        · exact absurd (List.mem_singleton.mp hmem ▸ he) ha
  exact (hsub stream hnew).2 e he hmem

/-- A call returns its own packet if it supplies the last fragment that was missing,
and otherwise nothing. -/
theorem reassemble_interleaved (t : Traffic) {arrivals : List (VisitOrder × Bytes)}
    (harrivals : ∀ a ∈ arrivals, t.Carries a.2) (order : VisitOrder) {x : UInt16 × Bytes}
    (hx : x ∈ t.packets) {d : Bytes} (hd : d ∈ fragment x.1 x.2) :
    ((Reassembler.after arrivals).reassemble order d).1 =
        (if Completes x (supplied x (arrivals.map Prod.snd)) d then some x.2 else none) ∧
      (d ∉ arrivals.map Prod.snd →
        (∀ e ∈ fragment x.1 x.2, e = d ∨ e ∈ arrivals.map Prod.snd) →
        ((Reassembler.after arrivals).reassemble order d).1 = some x.2) := by
  have hreturned := ((tracks_after t harrivals).reassemble hx order hd).1
  refine ⟨hreturned, fun hnew hall => ?_⟩
  rw [hreturned, if_pos]
  exact ⟨hd, fun e he => (hall e he).imp_right (mem_supplied hd hnew he)⟩

def long : Bytes := List.replicate 1500 7

theorem length_long : long.length = 1500 := List.length_replicate

theorem fragmentCount_long : fragmentCount long.length = 2 := by
  rw [length_long]
  rfl

def twoPackets : Traffic where
  packets := [(1, long), (2, [9])]
  seqs := by simp
  length_le x hx := by
    rcases List.mem_pair.mp hx with rfl | rfl
    · exact length_long.trans_le (by decide)
    · exact (by decide : 1 ≤ 255 * kMaxFragmentSize)
  few := List.countP_le_length.trans (by decide : 2 ≤ kMaxGroups)

theorem reassemble_interleaved_twoPackets :
    ((Reassembler.after
      [(.ascending, datagram 1 long 1), (.ascending, datagram 2 [9] 0)]).reassemble
        .ascending (datagram 1 long 0)).1 = some long := by
  have hlong : ∀ i < 2, datagram 1 long i ∈ fragment 1 long := fun i hi =>
    mem_fragment.mpr ⟨i, fragmentCount_long.symm ▸ hi, rfl⟩
  have hshort : datagram 2 [9] 0 ∈ fragment 2 [9] := mem_fragment.mpr ⟨0, by decide, rfl⟩
  have hfirst : datagram 1 long 0 ≠ datagram 1 long 1 := fun heq =>
    absurd (datagram_injective (twoPackets.length_le (1, long) List.mem_cons_self)
      (by rw [fragmentCount_long]; omega) (by rw [fragmentCount_long]; omega) heq) (by decide)
  have hother : datagram 1 long 0 ≠ datagram 2 [9] 0 := fun heq =>
    absurd (fragment_seq (hlong 0 (by omega)) (heq ▸ hshort)) (by decide)
  refine (reassemble_interleaved twoPackets (x := (1, long)) ?_ .ascending List.mem_cons_self
    (hlong 0 (by omega))).2 ?_ ?_
  · simp only [List.mem_cons, List.not_mem_nil, or_false, forall_eq_or_imp, forall_eq]
    exact ⟨⟨(1, long), List.mem_cons_self, hlong 1 (by omega)⟩,
      (2, [9]), List.mem_cons_of_mem _ List.mem_cons_self, hshort⟩
  · simp only [List.map_cons, List.map_nil, List.mem_cons, List.not_mem_nil, or_false, not_or]
    exact ⟨hfirst, hother⟩
  · intro e he
    obtain ⟨i, hi, rfl⟩ := mem_fragment.mp he
    rw [fragmentCount_long] at hi
    obtain rfl | rfl : i = 0 ∨ i = 1 := by omega
    · exact Or.inl rfl
    · exact Or.inr List.mem_cons_self

end Netcode.Transport
