import Netcode.Sim.Delta

/-!
# Which buffers are applied

A failed read latches `ok` and the reader goes on, so whether a buffer is applied
is decided by the sum of the widths that its own counts ask for. `keyframeBits`
and `deltaBits` are these sums: a buffer is applied if they lie inside it, and
otherwise the client keeps what it holds.
-/

namespace Netcode.Sim

open Netcode.Library

/-- Where it does not fail, `next` moves on by `width`, which may depend on the
buffer and on the position in it. -/
structure Takes (next : BitReader → BitReader) (width : Bytes → ℕ → ℕ) : Prop where
  data : ∀ r, (next r).data = r.data
  ok : ∀ r, (next r).ok = true ↔
    r.ok = true ∧ r.bitpos + width r.data r.bitpos ≤ r.data.length * 8
  bitpos : ∀ r, (next r).ok = true → (next r).bitpos = r.bitpos + width r.data r.bitpos

namespace Takes

variable {f g : BitReader → BitReader} {u v : Bytes → ℕ → ℕ}

theorem id : Takes (fun r => r) fun _ _ => 0 where
  data _ := rfl
  ok r := by simp [r.bitpos_le]
  bitpos _ _ := rfl

theorem readBits (n : ℕ) : Takes (fun r => (r.readBits n).2) fun _ _ => n where
  data r := by
    rw [BitReader.readBits]
    split_ifs <;> rfl
  ok r := by
    rw [BitReader.readBits]
    split_ifs with hshort
    · simp [hshort]
    · simp [Nat.le_of_not_lt hshort]
  bitpos r hok := by
    rw [BitReader.readBits] at hok ⊢
    by_cases hshort : r.data.length * 8 < r.bitpos + n
    · rw [dif_pos hshort] at hok
      exact absurd hok Bool.false_ne_true
    · rw [dif_neg hshort]

theorem comp (hf : Takes f u) (hg : Takes g v) :
    Takes (fun r => g (f r)) fun data pos => u data pos + v data (pos + u data pos) where
  data r := (hg.data _).trans (hf.data r)
  ok r := by
    rw [hg.ok, hf.data]
    constructor
    · intro h
      rw [hf.bitpos r h.1] at h
      exact ⟨((hf.ok r).mp h.1).1, by omega⟩
    · intro h
      have hfits := (hf.ok r).mpr ⟨h.1, by omega⟩
      rw [hf.bitpos r hfits]
      exact ⟨hfits, by omega⟩
  bitpos r hok := by
    have hfits := ((hg.ok _).mp hok).1
    rw [hg.bitpos _ hok, hf.bitpos r hfits, hf.data, Nat.add_assoc]

theorem congr {w : Bytes → ℕ → ℕ} (hf : Takes f u) (h : ∀ data pos, u data pos = w data pos) :
    Takes f w := by
  have huw : u = w := funext fun data => funext fun pos => h data pos
  exact huw ▸ hf

variable {β : Type*} {read : BitReader → β × BitReader} {k : ℕ}

theorem readMany (hread : Takes (fun r => (read r).2) fun _ _ => k) (n : ℕ) :
    Takes (fun r => (readMany read n r).2) fun _ _ => n * k := by
  induction n with
  | zero => exact id.congr fun _ _ => (Nat.zero_mul k).symm
  | succ n ih => exact (hread.comp ih).congr fun _ _ => by rw [Nat.succ_mul, Nat.add_comm]

theorem readCounted (hread : Takes (fun r => (read r).2) fun _ _ => k) :
    Takes (fun r => (readCounted read r).2) fun data pos => 16 + field data pos 16 * k := by
  have hcount := readBits 16
  have hshort : ∀ r : BitReader, ¬ r.bitpos + 16 ≤ r.data.length * 8 →
      Sim.readCounted read r = ([], { r with ok := false }) := by
    intro r hlong
    rw [Sim.readCounted, BitReader.readBits, dif_pos (Nat.lt_of_not_le hlong)]
    rfl
  have hlong : ∀ r : BitReader, r.bitpos + 16 ≤ r.data.length * 8 →
      Sim.readCounted read r =
        Sim.readMany read (field r.data r.bitpos 16) (r.readBits 16).2 := by
    intro r hfits
    rw [Sim.readCounted, ← BitReader.toNat_readBits hfits]
  refine ⟨fun r => ?_, fun r => ?_, fun r hok => ?_⟩
  · by_cases hfits : r.bitpos + 16 ≤ r.data.length * 8
    · rw [hlong r hfits]
      exact ((readMany hread _).data _).trans (hcount.data r)
    · rw [hshort r hfits]
  · by_cases hfits : r.bitpos + 16 ≤ r.data.length * 8
    · rw [hlong r hfits]
      exact (hcount.comp (readMany hread _)).ok r
    · rw [hshort r hfits]
      simp only [Bool.false_eq_true, false_iff, not_and]
      omega
  · by_cases hfits : r.bitpos + 16 ≤ r.data.length * 8
    · rw [hlong r hfits] at hok ⊢
      exact (hcount.comp (readMany hread _)).bitpos r hok
    · rw [hshort r hfits] at hok
      exact absurd hok Bool.false_ne_true

end Takes

def keyframeBits (data : Bytes) : ℕ := 32 + (16 + field data 32 16 * 40)

def deltaBits (data : Bytes) : ℕ :=
  let changed := 16 + field data 64 16 * 40
  let removed := 16 + field data (64 + changed) 16 * 16
  64 + (changed + removed)

/-- `data` is a keyframe, or a delta against the tick that `base` has, and all that it
counts lies inside it. -/
def Accepts {α : Type*} (base : WorldSnapshot α) : Bytes → Prop
  | [] => False
  | type :: data =>
    type = SnapshotType.keyframe.code ∧ keyframeBits data ≤ data.length * 8 ∨
      type = SnapshotType.delta.code ∧ field data 32 32 = base.tick.toNat ∧
        deltaBits data ≤ data.length * 8

variable {α : Type*} [Scalar α] {max : α}

theorem takes_readEntity (max : α) : Takes (fun r => (readEntity max r).2) fun _ _ => 40 := by
  have hfields := (Takes.readBits 16).comp
    ((Takes.readBits kPosBits).comp (Takes.readBits kPosBits))
  simp only [readEntity]
  exact hfields

theorem applyKeyframe_iff (base : WorldSnapshot α) (data : Bytes) :
    (applyKeyframe base { data := data } max).1 = true ↔ keyframeBits data ≤ data.length * 8 := by
  have hok := ((Takes.readBits 32).comp (Takes.readCounted (takes_readEntity max))).ok
    { data := data }
  simp only [Nat.zero_add, true_and] at hok
  rw [keyframeBits, ← hok, applyKeyframe]
  split_ifs with h
  · exact ⟨fun _ => h, fun _ => rfl⟩
  · exact ⟨False.elim, fun htrue => absurd htrue h⟩

theorem baselineTick_eq_iff {data : Bytes} {held : UInt32}
    (hok : (((BitReader.readBits { data := data } 32).2).readBits 32).2.ok = true) :
    held = (((BitReader.readBits { data := data } 32).2).readBits 32).1 ↔
      field data 32 32 = held.toNat := by
  have htick := Takes.readBits 32
  obtain ⟨hfirst, hfits⟩ := (htick.ok _).mp hok
  have hvalue := BitReader.toNat_readBits hfits
  rw [htick.bitpos _ hfirst, htick.data] at hvalue
  simp only [Nat.zero_add] at hvalue
  rw [← UInt32.toNat_inj, hvalue, eq_comm]

theorem applyDelta_iff (base : WorldSnapshot α) (data : Bytes) :
    (applyDelta base { data := data } max).1 = true ↔
      field data 32 32 = base.tick.toNat ∧ deltaBits data ≤ data.length * 8 := by
  have hticks := (Takes.readBits 32).comp (Takes.readBits 32)
  have hlists := (Takes.readCounted (takes_readEntity max)).comp
    (Takes.readCounted (Takes.readBits 16))
  have hok := (hticks.comp hlists).ok { data := data }
  simp only [Nat.zero_add, true_and] at hok
  rw [deltaBits, ← hok, applyDelta]
  constructor
  · intro haccepted
    simp only [Bool.not_eq_true', ite_not] at haccepted
    split_ifs at haccepted with hshort hbase hend
    rw [Bool.not_eq_false] at hshort
    exact ⟨(baselineTick_eq_iff hshort).mp hbase, hend⟩
  · intro h
    have hshort := ((hlists.ok _).mp h.2).1
    have hbase := (baselineTick_eq_iff hshort).mpr h.1
    simp only [hshort, ← hbase, h.2, Bool.not_true, Bool.false_eq_true, if_false, ne_eq,
      not_true_eq_false, if_true]

theorem applySnapshot_rejected {base : WorldSnapshot α} {data : Bytes}
    (h : (applySnapshot base data max).1 = false) : (applySnapshot base data max).2 = base := by
  cases data with
  | nil => rfl
  | cons type data =>
    simp only [applySnapshot, applyKeyframe, applyDelta] at h ⊢
    split_ifs at h ⊢ <;> rfl

theorem applySnapshot_iff (base : WorldSnapshot α) (data : Bytes) :
    (applySnapshot base data max).1 = true ↔ Accepts base data := by
  cases data with
  | nil => exact ⟨fun h => absurd h Bool.false_ne_true, False.elim⟩
  | cons type data =>
    have hcodes : SnapshotType.delta.code ≠ SnapshotType.keyframe.code := by decide
    rw [applySnapshot, Accepts]
    split_ifs with hkey hdelta
    · rw [applyKeyframe_iff]
      exact ⟨fun h => Or.inl ⟨hkey, h⟩, fun h => h.elim And.right
        fun hother => absurd (hother.1.symm.trans hkey) hcodes⟩
    · rw [applyDelta_iff]
      exact ⟨fun h => Or.inr ⟨hdelta, h⟩, fun h => h.elim (fun hother => absurd hother.1 hkey)
        And.right⟩
    · exact ⟨False.elim, fun h => h.elim
        (fun hother => absurd hother.1 hkey) fun hother => absurd hother.1 hdelta⟩

section Cut

variable {a b : Bytes}

theorem isPrefix_keyframeBits (h : a <+: b) :
    keyframeBits a ≤ a.length * 8 ↔ keyframeBits b ≤ a.length * 8 := by
  by_cases hcount : 48 ≤ 8 * a.length
  · rw [keyframeBits, keyframeBits, field_of_prefix h hcount]
  · simp only [keyframeBits]
    omega

theorem isPrefix_deltaBits (h : a <+: b) :
    deltaBits a ≤ a.length * 8 ↔ deltaBits b ≤ a.length * 8 := by
  by_cases hchanged : 80 ≤ 8 * a.length
  · have hcount : field a 64 16 = field b 64 16 := field_of_prefix h hchanged
    by_cases hremoved : 64 + (16 + field b 64 16 * 40) + 16 ≤ 8 * a.length
    · rw [deltaBits, deltaBits, hcount, field_of_prefix h hremoved]
    · simp only [deltaBits, hcount]
      omega
  · simp only [deltaBits]
    omega

end Cut

/-- Every strict prefix of `blob` is rejected, whatever the client holds. -/
def PrefixesRejected (max : α) (blob : Bytes) : Prop :=
  ∀ (base : WorldSnapshot α) (cut : Bytes), cut <+: blob → cut ≠ blob →
    (applySnapshot base cut max).1 = false

theorem not_accepts_iff (base : WorldSnapshot α) (data : Bytes) :
    (applySnapshot base data max).1 = false ↔ ¬ Accepts base data := by
  rw [← Bool.not_eq_true]
  exact not_congr (applySnapshot_iff base data)

theorem length_lt_of_cut {a b : Bytes} (h : a <+: b) (hne : a ≠ b) : a.length < b.length :=
  lt_of_le_of_ne h.length_le fun hlen => hne (h.eq_of_length hlen)

theorem prefix_of_cut {type code : UInt8} {cut data : Bytes} (h : type :: cut <+: code :: data)
    (hne : type :: cut ≠ code :: data) : type = code ∧ cut <+: data ∧ cut.length < data.length := by
  obtain ⟨htype, hcut⟩ := List.cons_prefix_cons.mp h
  exact ⟨htype, hcut, length_lt_of_cut hcut fun heq => hne (by rw [htype, heq])⟩

theorem cut_last (code : UInt8) (data : Bytes) (hdata : 0 < data.length) :
    code :: data.take (data.length - 1) <+: code :: data ∧
      code :: data.take (data.length - 1) ≠ code :: data := by
  refine ⟨(List.prefix_cons_inj code).mpr (List.take_prefix _ _), fun heq => ?_⟩
  have hlen := congrArg List.length heq
  simp only [List.length_cons, List.length_take] at hlen
  omega

/-- A blob whose own last byte no reader needs can be cut; `size` is what its reader needs. -/
theorem prefixesRejected_iff {code : UInt8} {data : Bytes} {size : Bytes → ℕ}
    (hsize : ∀ a b : Bytes, a <+: b → (size a ≤ a.length * 8 ↔ size b ≤ a.length * 8))
    (hfits : ∀ (base : WorldSnapshot α) cut, Accepts base (code :: cut) →
      size cut ≤ cut.length * 8)
    (hmeets : ∃ base : WorldSnapshot α, ∀ cut, cut <+: data → size cut ≤ cut.length * 8 →
      Accepts base (code :: cut)) :
    PrefixesRejected max (code :: data) ↔ data.length * 8 < size data + 8 := by
  constructor
  · intro hrejected
    by_contra hlong
    obtain ⟨base, haccepts⟩ := hmeets
    have hprefix : data.take (data.length - 1) <+: data := List.take_prefix _ _
    obtain ⟨hcut, hne⟩ := cut_last code data (by omega)
    apply (not_accepts_iff _ _).mp (hrejected base _ hcut hne)
    apply haccepts _ hprefix
    rw [hsize _ _ hprefix, List.length_take]
    omega
  · intro hshort base cut hcut hne
    rw [not_accepts_iff]
    cases cut with
    | nil => exact id
    | cons type cut =>
      obtain ⟨rfl, hprefix, hlt⟩ := prefix_of_cut hcut hne
      intro haccepts
      have hread := (hsize _ _ hprefix).mp (hfits base cut haccepts)
      omega

theorem keyframe_cut_iff (max : α) (data : Bytes) :
    PrefixesRejected max (SnapshotType.keyframe.code :: data) ↔
      data.length * 8 < keyframeBits data + 8 := by
  refine prefixesRejected_iff (fun _ _ => isPrefix_keyframeBits) (fun base cut haccepts => ?_)
    ⟨{}, fun cut _ hfits => Or.inl ⟨rfl, hfits⟩⟩
  rcases haccepts with ⟨-, hfits⟩ | ⟨hdelta, -⟩
  · exact hfits
  · exact absurd hdelta (by decide)

theorem delta_cut_iff (max : α) (data : Bytes) :
    PrefixesRejected max (SnapshotType.delta.code :: data) ↔
      data.length * 8 < deltaBits data + 8 := by
  have hheld : (UInt32.ofNat (field data 32 32)).toNat = field data 32 32 := by
    rw [UInt32.toNat_ofNat']
    exact Nat.mod_eq_of_lt (field_lt data 32 32)
  -- a client that holds the baseline takes every cut that is long enough
  refine prefixesRejected_iff (fun _ _ => isPrefix_deltaBits) (fun base cut haccepts => ?_)
    ⟨{ tick := UInt32.ofNat (field data 32 32) }, fun cut hcut hfits => ?_⟩
  · rcases haccepts with ⟨hkey, -⟩ | ⟨-, -, hfits⟩
    · exact absurd hkey (by decide)
    · exact hfits
  · have hticks : 64 ≤ deltaBits cut := Nat.le_add_right _ _
    have htick : field cut 32 32 = field data 32 32 := field_of_prefix hcut (by omega)
    exact Or.inr ⟨rfl, htick.trans hheld.symm, hfits⟩

theorem keyframe_prefixes_iff (snap : WorldSnapshot α) :
    PrefixesRejected max (encodeKeyframe snap max) ↔ snap.entities.length < 2 ^ 16 := by
  obtain ⟨data, hdata, hbits⟩ := encodeKeyframe_bits snap max
  have hlen := congrArg List.length hbits
  rw [length_bitsOf, List.length_append, length_bits, length_countedBits length_entityBits] at hlen
  rw [countedBits] at hbits
  rw [hdata, keyframe_cut_iff, keyframeBits, field_of_bits hbits (length_bits _ _)]
  omega

theorem delta_prefixes_iff (curr baseline : WorldSnapshot α) :
    PrefixesRejected max (encodeDelta curr baseline max) ↔
      (diff curr.entities baseline.entities).1.length < 2 ^ 16 ∧
        (diff curr.entities baseline.entities).2.length < 2 ^ 16 := by
  obtain ⟨data, hdata, hbits⟩ := encodeDelta_bits curr baseline max
  generalize hchanged : (diff curr.entities baseline.entities).1 = changed at hbits
  generalize hremoved : (diff curr.entities baseline.entities).2 = removed at hbits
  have hlen := congrArg List.length hbits
  simp only [length_bitsOf, List.length_append, length_bits, length_countedBits length_entityBits,
    length_countedBits length_idBits] at hlen
  have hcount : field data 64 16 = changed.length % 2 ^ 16 := by
    rw [countedBits, ← List.append_assoc, List.append_assoc (bits 16 _)] at hbits
    exact field_of_bits hbits (by simp only [List.length_append, length_bits])
  rw [hdata, delta_cut_iff, deltaBits, hcount]
  by_cases hfits : changed.length < 2 ^ 16
  · have hcount' : field data (64 + (16 + changed.length * 40)) 16 = removed.length % 2 ^ 16 := by
      have hfront : bitsOf data = (bits 32 curr.tick.toNat ++ (bits 32 baseline.tick.toNat ++
          countedBits (entityBits max) changed)) ++
          (bits 16 removed.length ++ removed.flatMap idBits) := by
        simp only [hbits, countedBits, List.append_assoc]
      apply field_of_bits hfront
      simp only [List.length_append, length_bits, length_countedBits length_entityBits]
      omega
    rw [Nat.mod_eq_of_lt hfits, hcount']
    omega
  · have hlt := field_lt data (64 + (16 + changed.length % 2 ^ 16 * 40)) 16
    simp only [hfits, false_and, iff_false]
    omega

/-- All or nothing. A blob cannot be cut short exactly if its lists fit their counts. -/
theorem applySnapshot_all_or_nothing (max : α) :
    (∀ (base : WorldSnapshot α) (data : Bytes), (applySnapshot base data max).1 = false →
      (applySnapshot base data max).2 = base) ∧
    (∀ (base : WorldSnapshot α) (data : Bytes),
      (applySnapshot base data max).1 = true ↔ Accepts base data) ∧
    (∀ snap : WorldSnapshot α, PrefixesRejected max (encodeKeyframe snap max) ↔
      snap.entities.length < 2 ^ 16) ∧
    ∀ curr baseline : WorldSnapshot α, PrefixesRejected max (encodeDelta curr baseline max) ↔
      (diff curr.entities baseline.entities).1.length < 2 ^ 16 ∧
        (diff curr.entities baseline.entities).2.length < 2 ^ 16 :=
  ⟨fun _ _ => applySnapshot_rejected, applySnapshot_iff, keyframe_prefixes_iff,
    delta_prefixes_iff⟩

def crowd : WorldSnapshot ℚ :=
  ⟨1, (List.range 65536).map fun i => ⟨UInt32.ofNat (i + 1), 0, 0⟩⟩

theorem crowd_prefix_accepted :
    ¬ ∀ (base : WorldSnapshot ℚ) (cut : Bytes), cut <+: encodeKeyframe crowd 100 →
      cut ≠ encodeKeyframe crowd 100 → (applySnapshot base cut 100).1 = false := by
  have hlen : crowd.entities.length = 65536 := by
    rw [crowd, List.length_map, List.length_range]
  intro hrejected
  have hshort := (keyframe_prefixes_iff crowd).mp hrejected
  omega

end Netcode.Sim
