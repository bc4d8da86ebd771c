import Netcode.Sim.Snapshot

/-!
# A delta restores what it was made from

`diff` runs over two lists sorted by id and finds exactly what changed and what
was removed. Merged onto the baseline as the client holds it, that gives the
current snapshot as a keyframe would have given it.
-/

namespace Netcode.Sim

open Netcode.Library

variable {α : Type*}

def SortedById (es : List (EntityState α)) : Prop :=
  es.Pairwise fun a b => a.id < b.id

namespace SortedById

variable {es : List (EntityState α)} {e : EntityState α} {k : EntityId}

theorem cons (h : SortedById (e :: es)) : (∀ d ∈ es, d.id ≠ e.id) ∧ SortedById es :=
  ⟨fun d hd => ne_of_gt ((List.pairwise_cons.mp h).1 d hd), (List.pairwise_cons.mp h).2⟩

theorem ne_of_lt (h : SortedById (e :: es)) (hlt : k < e.id) : ∀ d ∈ e :: es, d.id ≠ k := by
  intro d hd
  rcases List.mem_cons.mp hd with hd | hd
  · rw [hd]
    exact ne_of_gt hlt
  · exact ne_of_gt (lt_trans hlt ((List.pairwise_cons.mp h).1 d hd))

end SortedById

def byId (es : List (EntityState α)) : List (EntityId × EntityState α) :=
  es.map fun e => (e.id, e)

theorem SortedById.pairs {es : List (EntityState α)} (h : SortedById es) :
    (byId es).Pairwise fun a b => a.1 < b.1 := List.pairwise_map.mpr h

theorem find_byId {es : List (EntityState α)} (h : SortedById es) {k : EntityId}
    {e : EntityState α} : SortedMap.find k (byId es) = some e ↔ e ∈ es ∧ e.id = k := by
  rw [SortedMap.find_eq_some_iff h.pairs, byId, List.mem_map]
  constructor
  · intro hmem
    obtain ⟨d, hd, heq⟩ := hmem
    obtain ⟨hid, hde⟩ := Prod.mk.inj heq
    exact ⟨hde ▸ hd, hde ▸ hid⟩
  · exact fun hmem => ⟨e, hmem.1, by rw [hmem.2]⟩

theorem find_byId_none {es : List (EntityState α)} {k : EntityId} :
    SortedMap.find k (byId es) = none ↔ ∀ e ∈ es, e.id ≠ k := by
  constructor
  · intro hnone
    induction es with
    | nil => exact fun e he => absurd he List.not_mem_nil
    | cons d es ih =>
      simp only [byId, List.map_cons, SortedMap.find] at hnone
      split_ifs at hnone with hd
      exact List.forall_mem_cons.mpr ⟨hd, ih hnone⟩
  · intro habsent
    exact SortedMap.find_eq_none (List.forall_mem_map.mpr habsent)

theorem merge_spec {base changed : List (EntityState α)} (hbase : SortedById base)
    (hchanged : SortedById changed) (removed : List EntityId) {es : List (EntityState α)}
    (hes : SortedById es)
    (h : ∀ k, (SortedMap.find k (byId changed)).or
      (if k ∈ removed then none else SortedMap.find k (byId base)) = SortedMap.find k (byId es)) :
    merge base removed changed = es := by
  have hinsert : ∀ (fs : List (EntityState α)) (m : SortedMap EntityId (EntityState α)),
      fs.foldl (fun m e => m.insert e.id e) m =
        (byId fs).foldl (fun m e => m.insert e.1 e.2) m := by
    intro fs m
    rw [byId, List.foldl_map]
  rw [merge, SortedMap.values_eq_of_lookup hes.pairs fun k => ?_, byId, List.map_map]
  · exact List.map_id es
  · rw [hinsert, SortedMap.lookup_foldl_insert hchanged.pairs, SortedMap.lookup_foldl_erase,
      entityMap, hinsert, SortedMap.lookup_foldl_insert hbase.pairs, SortedMap.lookup_empty,
      Option.or_none, h]

theorem sorted_map {f : EntityState α → EntityState α} {es : List (EntityState α)}
    (hid : ∀ e ∈ es, (f e).id = e.id) (h : SortedById es) : SortedById (es.map f) := by
  refine List.pairwise_map.mpr (h.imp_of_mem fun ha hb hlt => ?_)
  rwa [hid _ ha, hid _ hb]

theorem find_map {f : EntityState α → EntityState α} {es : List (EntityState α)}
    (hid : ∀ e ∈ es, (f e).id = e.id) (k : EntityId) :
    SortedMap.find k (byId (es.map f)) = (SortedMap.find k (byId es)).map f := by
  induction es with
  | nil => rfl
  | cons e es ih =>
    have hrest := ih fun d hd => hid d (List.mem_cons_of_mem e hd)
    simp only [byId, List.map_cons, SortedMap.find, hid e List.mem_cons_self] at hrest ⊢
    split_ifs
    · rfl
    · exact hrest

/-- What the sixteen-bit fields of the wire have room for. -/
structure Fits (es : List (EntityState α)) : Prop where
  sorted : SortedById es
  id_lt : ∀ e ∈ es, e.id.toNat < 2 ^ 16
  length_lt : es.length < 2 ^ 16

instance (es : List (EntityState α)) : Decidable (Fits es) :=
  have : Decidable (SortedById es) :=
    inferInstanceAs (Decidable (es.Pairwise fun a b => a.id < b.id))
  decidable_of_iff (SortedById es ∧ (∀ e ∈ es, e.id.toNat < 2 ^ 16) ∧ es.length < 2 ^ 16)
    ⟨fun h => ⟨h.1, h.2.1, h.2.2⟩, fun h => ⟨h.sorted, h.id_lt, h.length_lt⟩⟩

theorem Fits.sublist {es fs : List (EntityState α)} (h : Fits es) (hsub : fs.Sublist es) :
    Fits fs where
  sorted := h.sorted.sublist hsub
  id_lt := fun e he => h.id_lt e (hsub.subset he)
  length_lt := hsub.length_le.trans_lt h.length_lt

variable [Scalar α] {max : α}

def Same (c b : EntityState α) : Prop := Scalar.eq c.x b.x = true ∧ Scalar.eq c.y b.y = true

theorem changes_iff (c b : EntityState α) :
    (!Scalar.eq c.x b.x || !Scalar.eq c.y b.y) = true ↔ ¬ Same c b := by
  simp only [Same, Bool.or_eq_true, Bool.not_eq_true', not_and_or, Bool.not_eq_true]

theorem sublist_diff (cs bs : List (EntityState α)) :
    (diff cs bs).1.Sublist cs ∧ (diff cs bs).2.Sublist (bs.map EntityState.id) := by
  induction cs, bs using diff.induct with
  | case1 bs =>
    rw [diff]
    exact ⟨List.Sublist.refl _, List.Sublist.refl _⟩
  | case2 c cs =>
    rw [diff]
    exact ⟨List.Sublist.refl _, List.nil_sublist _⟩
  | case3 c cs b bs hlt ih =>
    rw [diff, if_pos hlt]
    exact ⟨ih.1.cons_cons c, ih.2⟩
  | case4 c cs b bs hlt hgt ih =>
    rw [diff, if_neg hlt, if_pos hgt]
    exact ⟨ih.1, ih.2.cons_cons b.id⟩
  | case5 c cs b bs hlt hgt ih =>
    rw [diff, if_neg hlt, if_neg hgt]
    refine ⟨?_, ih.2.cons b.id⟩
    simp only
    split_ifs
    · exact ih.1.cons_cons c
    · exact ih.1.cons c

theorem mem_changed {cs bs : List (EntityState α)} (hcs : SortedById cs) (hbs : SortedById bs)
    (e : EntityState α) :
    e ∈ (diff cs bs).1 ↔ e ∈ cs ∧ ∀ b ∈ bs, b.id = e.id → ¬ Same e b := by
  induction cs, bs using diff.induct with
  | case1 bs => simp [diff]
  | case2 c cs => simp [diff]
  | case3 c cs b bs hlt ih =>
    have hnew := hbs.ne_of_lt hlt
    rw [diff, if_pos hlt, List.mem_cons, ih hcs.cons.2 hbs, List.mem_cons]
    constructor
    · intro h
      rcases h with h | h
      · exact ⟨Or.inl h, fun d hd hid => absurd (h ▸ hid) (hnew d hd)⟩
      · exact ⟨Or.inr h.1, h.2⟩
    · exact fun h => h.1.imp_right fun he => ⟨he, h.2⟩
  | case4 c cs b bs hlt hgt ih =>
    have hgone := hcs.ne_of_lt hgt
    rw [diff, if_neg hlt, if_pos hgt, ih hcs hbs.cons.2]
    apply and_congr_right
    intro he
    rw [List.forall_mem_cons]
    exact ⟨fun h => ⟨fun hid => absurd hid.symm (hgone e he), h⟩, fun h => h.2⟩
  | case5 c cs b bs hlt hgt ih =>
    have hid : b.id = c.id := le_antisymm (not_lt.mp hlt) (not_lt.mp hgt)
    rw [diff, if_neg hlt, if_neg hgt]
    have hdrop : e ∈ cs → b.id ≠ e.id := fun he h => hcs.cons.1 e he (h.symm.trans hid)
    have hrest : (e ∈ cs ∧ ∀ d ∈ b :: bs, d.id = e.id → ¬ Same e d) ↔ e ∈ (diff cs bs).1 := by
      rw [ih hcs.cons.2 hbs.cons.2]
      apply and_congr_right
      intro he
      rw [List.forall_mem_cons]
      exact ⟨fun h => h.2, fun h => ⟨fun heq => absurd heq (hdrop he), h⟩⟩
    have hhead : (∀ d ∈ b :: bs, d.id = c.id → ¬ Same c d) ↔ ¬ Same c b := by
      rw [List.forall_mem_cons]
      exact ⟨fun h => h.1 hid, fun h => ⟨fun _ => h, fun d hd heq =>
        absurd (heq.trans hid.symm) (hbs.cons.1 d hd)⟩⟩
    rw [List.mem_cons, or_and_right, hrest]
    rw [← changes_iff] at hhead
    split_ifs with hsame
    · rw [List.mem_cons]
      exact or_congr_left ⟨fun h => ⟨h, h ▸ hhead.mpr hsame⟩, fun h => h.1⟩
    · exact ⟨Or.inr, fun h => h.resolve_left fun h => hsame (hhead.mp (h.1 ▸ h.2))⟩

theorem mem_removed {cs bs : List (EntityState α)} (hcs : SortedById cs) (hbs : SortedById bs)
    (id : EntityId) :
    id ∈ (diff cs bs).2 ↔ (∃ b ∈ bs, b.id = id) ∧ ∀ c ∈ cs, c.id ≠ id := by
  induction cs, bs using diff.induct with
  | case1 bs => simp [diff]
  | case2 c cs => simp [diff]
  | case3 c cs b bs hlt ih =>
    have hnew := hbs.ne_of_lt hlt
    rw [diff, if_pos hlt, ih hcs.cons.2 hbs, List.forall_mem_cons]
    apply and_congr_right
    intro hex
    obtain ⟨d, hd, hdid⟩ := hex
    exact ⟨fun h => ⟨fun hcid => hnew d hd (hdid.trans hcid.symm), h⟩, fun h => h.2⟩
  | case4 c cs b bs hlt hgt ih =>
    have hgone := hcs.ne_of_lt hgt
    rw [diff, if_neg hlt, if_pos hgt, List.mem_cons, ih hcs hbs.cons.2]
    constructor
    · intro h
      rcases h with h | h
      · exact ⟨⟨b, List.mem_cons_self, h.symm⟩, h ▸ hgone⟩
      · exact ⟨⟨h.1.choose, List.mem_cons_of_mem b h.1.choose_spec.1, h.1.choose_spec.2⟩, h.2⟩
    · intro h
      obtain ⟨⟨d, hd, hdid⟩, hcs'⟩ := h
      rcases List.mem_cons.mp hd with hd | hd
      · exact Or.inl (hd ▸ hdid.symm)
      · exact Or.inr ⟨⟨d, hd, hdid⟩, hcs'⟩
  | case5 c cs b bs hlt hgt ih =>
    have hid : b.id = c.id := le_antisymm (not_lt.mp hlt) (not_lt.mp hgt)
    rw [diff, if_neg hlt, if_neg hgt, ih hcs.cons.2 hbs.cons.2, List.forall_mem_cons]
    constructor
    · intro h
      obtain ⟨⟨d, hd, hdid⟩, hcs'⟩ := h
      refine ⟨⟨d, List.mem_cons_of_mem b hd, hdid⟩, fun hcid => ?_, hcs'⟩
      exact hbs.cons.1 d hd (hdid.trans (hcid.symm.trans hid.symm))
    · intro h
      obtain ⟨⟨d, hd, hdid⟩, hcid, hcs'⟩ := h
      rcases List.mem_cons.mp hd with hd | hd
      · exact absurd (hid.symm.trans (hd ▸ hdid)) hcid
      · exact ⟨⟨d, hd, hdid⟩, hcs'⟩

/-- Merging the entries that the encoder lists onto the baseline gives the current
snapshot, whatever the wire does to an entity besides keeping its id, as long as
it does the same to two entities that compare equal. -/
theorem merge_diff {f : EntityState α → EntityState α} {cs bs : List (EntityState α)}
    (hcs : SortedById cs) (hbs : SortedById bs) (hidc : ∀ e ∈ cs, (f e).id = e.id)
    (hidb : ∀ e ∈ bs, (f e).id = e.id)
    (hsame : ∀ c ∈ cs, ∀ b ∈ bs, b.id = c.id → Same c b → f b = f c) :
    merge (bs.map f) (diff cs bs).2 ((diff cs bs).1.map f) = cs.map f := by
  have hsub := (sublist_diff cs bs).1
  have hchanged : SortedById (diff cs bs).1 := hcs.sublist hsub
  have hidd : ∀ e ∈ (diff cs bs).1, (f e).id = e.id := fun e he => hidc e (hsub.subset he)
  refine merge_spec (sorted_map hidb hbs) (sorted_map hidd hchanged) _ (sorted_map hidc hcs)
    fun k => ?_
  rw [find_map hidd, find_map hidb, find_map hidc]
  cases hc : SortedMap.find k (byId cs) with
  | none =>
    have habsent := find_byId_none.mp hc
    have hnone : SortedMap.find k (byId (diff cs bs).1) = none :=
      find_byId_none.mpr fun e he => habsent e (hsub.subset he)
    rw [hnone, Option.map_none, Option.none_or]
    split_ifs with hremoved
    · rfl
    · have hbase : SortedMap.find k (byId bs) = none :=
        find_byId_none.mpr fun b hb hid =>
          hremoved ((mem_removed hcs hbs k).mpr ⟨⟨b, hb, hid⟩, habsent⟩)
      rw [hbase, Option.map_none]
  | some c =>
    obtain ⟨hmem, hid⟩ := (find_byId hcs).mp hc
    have hkept : k ∉ (diff cs bs).2 := fun hremoved =>
      ((mem_removed hcs hbs k).mp hremoved).2 c hmem hid
    rw [if_neg hkept]
    by_cases hlisted : c ∈ (diff cs bs).1
    · rw [(find_byId hchanged).mpr ⟨hlisted, hid⟩]
      rfl
    · have hunchanged : ∃ b ∈ bs, b.id = c.id ∧ Same c b := by
        by_contra hall
        exact hlisted ((mem_changed hcs hbs c).mpr ⟨hmem, fun b hb hbid hsame =>
          hall ⟨b, hb, hbid, hsame⟩⟩)
      obtain ⟨b, hb, hbid, hbsame⟩ := hunchanged
      have hnone : SortedMap.find k (byId (diff cs bs).1) = none := by
        apply find_byId_none.mpr
        intro e he heid
        have hec := (find_byId hcs).mpr ⟨hsub.subset he, heid⟩
        rw [hc] at hec
        exact hlisted (Option.some.inj hec ▸ he)
      rw [hnone, (find_byId hbs).mpr ⟨hb, hbid.trans hid⟩, Option.map_none, Option.none_or,
        Option.map_some, Option.map_some, hsame c hmem b hb hbid hbsame]

theorem encodeDelta_bits (curr baseline : WorldSnapshot α) (max : α) :
    ∃ data, encodeDelta curr baseline max = SnapshotType.delta.code :: data ∧
      bitsOf data = bits 32 curr.tick.toNat ++ (bits 32 baseline.tick.toNat ++
        (countedBits (entityBits max) (diff curr.entities baseline.entities).1 ++
          countedBits idBits (diff curr.entities baseline.entities).2)) := by
  have hwriteId : ∀ (w : BitWriter) (bs : List Bool) (id : EntityId), w.Holds bs →
      (w.writeBits id 16).Holds (bs ++ idBits id) := fun w bs id h => h.writeBits id
  have hticks := (BitWriter.holds_init.writeBits curr.tick (n := 32)).writeBits
    baseline.tick (n := 32)
  have hwritten := holds_counted hwriteId (diff curr.entities baseline.entities).2
    (holds_counted (holds_writeEntity max) (diff curr.entities baseline.entities).1 hticks)
  simp only [List.nil_append, List.append_assoc] at hwritten
  refine ⟨_, rfl, take_bits hwritten ?_⟩
  simp only [List.length_append, length_bits, length_countedBits length_entityBits,
    length_countedBits length_idBits]
  omega

theorem encodeDelta_ahead (curr baseline : WorldSnapshot α) (max : α) :
    ∃ data, encodeDelta curr baseline max = SnapshotType.delta.code :: data ∧
      BitReader.Ahead { data := data } (bits 32 curr.tick.toNat ++ (bits 32 baseline.tick.toNat ++
        (countedBits (entityBits max) (diff curr.entities baseline.entities).1 ++
          (countedBits idBits (diff curr.entities baseline.entities).2 ++ [])))) := by
  obtain ⟨data, hdata, hbits⟩ := encodeDelta_bits curr baseline max
  have hahead := ahead_of_bits hbits
  simp only [List.append_assoc] at hahead
  exact ⟨data, hdata, hahead⟩

theorem delta_cases (base curr baseline : WorldSnapshot α) :
    applySnapshot base (encodeDelta curr baseline max) max = (false, base) ∨
      base.tick = baseline.tick ∧
        ∃ es, applySnapshot base (encodeDelta curr baseline max) max = (true, ⟨curr.tick, es⟩) := by
  obtain ⟨data, hdata, hahead⟩ := encodeDelta_ahead curr baseline max
  rw [hdata, applySnapshot_delta]
  exact applyDelta_cases base hahead

theorem apply_encodeDelta (base curr baseline : WorldSnapshot α)
    (hcurr : curr.entities.length < 2 ^ 16) (hbaseline : baseline.entities.length < 2 ^ 16) :
    applySnapshot base (encodeDelta curr baseline max) max =
      if base.tick = baseline.tick then (true, ⟨curr.tick, merge base.entities
        ((diff curr.entities baseline.entities).2.map (low 16))
        ((diff curr.entities baseline.entities).1.map (wired max))⟩)
      else (false, base) := by
  obtain ⟨hchanged, hremoved⟩ := sublist_diff curr.entities baseline.entities
  have hremovedLen := hremoved.length_le
  rw [List.length_map] at hremovedLen
  obtain ⟨data, hdata, hahead⟩ := encodeDelta_ahead curr baseline max
  rw [hdata, applySnapshot_delta]
  exact applyDelta_ahead base (hchanged.length_le.trans_lt hcurr)
    (hremovedLen.trans_lt hbaseline) hahead

def keyframeTick : Bytes → Option UInt32
  | [] => none
  | type :: data =>
    if type = SnapshotType.keyframe.code then some (BitReader.readBits { data := data } 32).1
    else none

def deltaBaseline : Bytes → Option UInt32
  | [] => none
  | type :: data =>
    if type = SnapshotType.delta.code then
      some ((BitReader.readBits { data := data } 32).2.readBits 32).1
    else none

theorem keyframeTick_encodeKeyframe (snap : WorldSnapshot α) (max : α) :
    keyframeTick (encodeKeyframe snap max) = some snap.tick := by
  obtain ⟨data, hdata, hbits⟩ := encodeKeyframe_bits snap max
  have hahead := ahead_of_bits hbits
  rw [List.append_assoc] at hahead
  rw [hdata, keyframeTick, if_pos rfl]
  exact congrArg some (readTick_ahead hahead).1

theorem keyframeTick_encodeDelta (curr baseline : WorldSnapshot α) (max : α) :
    keyframeTick (encodeDelta curr baseline max) = none := rfl

theorem deltaBaseline_encodeKeyframe (snap : WorldSnapshot α) (max : α) :
    deltaBaseline (encodeKeyframe snap max) = none := rfl

theorem deltaBaseline_encodeDelta (curr baseline : WorldSnapshot α) (max : α) :
    deltaBaseline (encodeDelta curr baseline max) = some baseline.tick := by
  obtain ⟨data, hdata, hahead⟩ := encodeDelta_ahead curr baseline max
  obtain ⟨-, hrest⟩ := readTick_ahead hahead
  rw [hdata, deltaBaseline, if_pos rfl, (readTick_ahead hrest).1]

/-- New against the baseline, or moved since. -/
def Changed (baseline : List (EntityState α)) (e : EntityState α) : Prop :=
  (∀ b ∈ baseline, b.id ≠ e.id) ∨
    ∃ b ∈ baseline, b.id = e.id ∧ (Scalar.eq e.x b.x = false ∨ Scalar.eq e.y b.y = false)

theorem changed_iff {cs bs : List (EntityState α)} (hcs : SortedById cs) (hbs : SortedById bs)
    (e : EntityState α) : e ∈ (diff cs bs).1 ↔ e ∈ cs ∧ Changed bs e := by
  rw [mem_changed hcs hbs]
  apply and_congr_right
  intro _
  constructor
  · intro hdiffers
    by_cases hnew : ∀ b ∈ bs, b.id ≠ e.id
    · exact Or.inl hnew
    · push Not at hnew
      obtain ⟨b, hb, hid⟩ := hnew
      have hmoved := hdiffers b hb hid
      rw [Same, not_and_or, Bool.not_eq_true, Bool.not_eq_true] at hmoved
      exact Or.inr ⟨b, hb, hid, hmoved⟩
  · intro h b hb hid hsame
    rcases h with hnew | ⟨d, hd, hdid, hmoved⟩
    · exact hnew b hb hid
    · have hfound := (find_byId hbs).mpr ⟨hb, hid⟩
      rw [(find_byId hbs).mpr ⟨hd, hdid⟩] at hfound
      obtain rfl := Option.some.inj hfound
      rw [hsame.1, hsame.2] at hmoved
      simp at hmoved

/-- What `blob` says bit for bit: a delta from `baselineTick` to `tick` that lists
`changed` and `removed`. -/
def DeltaLists (max : α) (blob : Bytes) (tick baselineTick : UInt32)
    (changed : List (EntityState α)) (removed : List EntityId) : Prop :=
  ∃ data, blob = SnapshotType.delta.code :: data ∧
    bitsOf data = bits 32 tick.toNat ++ (bits 32 baselineTick.toNat ++
      (countedBits (entityBits max) changed ++ countedBits idBits removed))

theorem wired_same {c b : EntityState α} (hid : b.id = c.id)
    (hcongr : ∀ u v : α, Scalar.eq u v = true → quantize u max = quantize v max)
    (h : Same c b) : wired max b = wired max c := by
  simp only [wired, hid, hcongr _ _ h.1, hcongr _ _ h.2]

theorem apply_delta_wired {base curr baseline : WorldSnapshot α} (hcurr : Fits curr.entities)
    (hbaseline : Fits baseline.entities)
    (hcongr : ∀ u v : α, Scalar.eq u v = true → quantize u max = quantize v max)
    (htick : base.tick = baseline.tick)
    (hheld : base.entities = baseline.entities.map (wired max)) :
    applySnapshot base (encodeDelta curr baseline max) max =
      (true, ⟨curr.tick, curr.entities.map (wired max)⟩) := by
  have hremoved := (sublist_diff curr.entities baseline.entities).2
  have hids : (diff curr.entities baseline.entities).2.map (low 16) =
      (diff curr.entities baseline.entities).2 := by
    refine (List.map_congr_left fun id hid => low_eq ?_).trans (List.map_id _)
    obtain ⟨e, he, heid⟩ := List.mem_map.mp (hremoved.subset hid)
    exact heid ▸ hbaseline.id_lt e he
  have hmerge := merge_diff (f := wired max) hcurr.sorted hbaseline.sorted
    (fun e he => low_eq (hcurr.id_lt e he)) (fun e he => low_eq (hbaseline.id_lt e he))
    fun c _ b _ hid hsame => wired_same hid hcongr hsame
  rw [apply_encodeDelta base curr baseline hcurr.length_lt hbaseline.length_lt, if_pos htick,
    hheld, hids, hmerge]

/-- To a client that holds the baseline the delta is worth the keyframe, and it lists
no more than what changed. -/
theorem delta_agrees_with_keyframe {curr baseline : WorldSnapshot α} (hcurr : Fits curr.entities)
    (hbaseline : Fits baseline.entities)
    (hcongr : ∀ u v : α, Scalar.eq u v = true → quantize u max = quantize v max)
    (fresh other : WorldSnapshot α) :
    let held := applySnapshot fresh (encodeKeyframe baseline max) max
    let keyframe := applySnapshot other (encodeKeyframe curr max) max
    held.1 = true ∧ keyframe.1 = true ∧ keyframe.2.tick = curr.tick ∧
      keyframe.2.entities.map EntityState.id = curr.entities.map EntityState.id ∧
      applySnapshot held.2 (encodeDelta curr baseline max) max = keyframe ∧
      ∃ changed removed,
        DeltaLists max (encodeDelta curr baseline max) curr.tick baseline.tick changed removed ∧
        changed.Sublist curr.entities ∧ (∀ e, e ∈ changed ↔ e ∈ curr.entities ∧
          Changed baseline.entities e) ∧
        removed.Sublist (baseline.entities.map EntityState.id) ∧
        ∀ id, id ∈ removed ↔
          (∃ b ∈ baseline.entities, b.id = id) ∧ ∀ c ∈ curr.entities, c.id ≠ id := by
  have hkeyframe : applySnapshot other (encodeKeyframe curr max) max = _ :=
    apply_encodeKeyframe other curr hcurr.length_lt
  have hheld : applySnapshot fresh (encodeKeyframe baseline max) max = _ :=
    apply_encodeKeyframe fresh baseline hbaseline.length_lt
  have hsub := sublist_diff curr.entities baseline.entities
  simp only [hkeyframe, hheld, true_and]
  refine ⟨?_, apply_delta_wired hcurr hbaseline hcongr rfl rfl, _, _,
    encodeDelta_bits curr baseline max, hsub.1, changed_iff hcurr.sorted hbaseline.sorted,
    hsub.2, mem_removed hcurr.sorted hbaseline.sorted⟩
  rw [List.map_map]
  exact List.map_congr_left fun e he => low_eq (hcurr.id_lt e he)

def lobby : WorldSnapshot ℚ := ⟨7, [⟨1, 10, 20⟩, ⟨2, 30, 40⟩, ⟨4, 50, 60⟩]⟩

def lobbyNext : WorldSnapshot ℚ := ⟨9, [⟨1, 10, 20⟩, ⟨2, 30, 41⟩, ⟨5, 0, 100⟩]⟩

theorem delta_agrees_with_keyframe_lobby :
    applySnapshot (applySnapshot lobbyNext (encodeKeyframe lobby 100) 100).2
      (encodeDelta lobbyNext lobby 100) 100 =
        applySnapshot lobby (encodeKeyframe lobbyNext 100) 100 := by
  have hcongr : ∀ u v : ℚ, Scalar.eq u v = true → quantize u 100 = quantize v 100 :=
    fun _ _ h => LawfulLevels.quantize_congr h 100
  exact (@delta_agrees_with_keyframe ℚ _ 100 lobbyNext lobby (by decide +kernel)
    (by decide +kernel) hcongr lobbyNext lobby).2.2.2.2.1

def received (max : α) (e : EntityState α) : EntityState α :=
  ⟨e.id, dequantize (quantize e.x max) max, dequantize (quantize e.y max) max⟩

variable [LawfulLevels α]

theorem wired_eq {e : EntityState α} (hid : e.id.toNat < 2 ^ 16) :
    wired max e = received max e := by
  rw [wired, low_eq hid, low_eq (LawfulLevels.quantize_lt e.x max),
    low_eq (LawfulLevels.quantize_lt e.y max), received]

theorem Fits.map_wired {es : List (EntityState α)} (h : Fits es) :
    es.map (wired max) = es.map (received max) :=
  List.map_congr_left fun e he => wired_eq (h.id_lt e he)

theorem apply_keyframe_received (base snap : WorldSnapshot α) (h : Fits snap.entities) :
    applySnapshot base (encodeKeyframe snap max) max =
      (true, ⟨snap.tick, snap.entities.map (received max)⟩) := by
  rw [apply_encodeKeyframe base snap h.length_lt, h.map_wired]

theorem apply_delta_received {base curr baseline : WorldSnapshot α}
    (hcurr : Fits curr.entities) (hbaseline : Fits baseline.entities)
    (htick : base.tick = baseline.tick)
    (hheld : base.entities = baseline.entities.map (received max)) :
    applySnapshot base (encodeDelta curr baseline max) max =
      (true, ⟨curr.tick, curr.entities.map (received max)⟩) := by
  rw [← hbaseline.map_wired] at hheld
  rw [← hcurr.map_wired]
  exact apply_delta_wired hcurr hbaseline (fun _ _ h => LawfulLevels.quantize_congr h max)
    htick hheld

end Netcode.Sim
