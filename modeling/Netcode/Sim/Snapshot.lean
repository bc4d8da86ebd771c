import Netcode.Library.SortedMap
import Netcode.Sim.Bitstream
import Netcode.Sim.Quantize

/-!
# Keyframes and deltas

A snapshot goes over the wire as a keyframe, which is complete, or as a delta
against an earlier snapshot, which lists what changed and what was removed. What
a client gets out of either is `received`: the entities with their positions
passed through the levels.
-/

namespace Netcode.Sim

open Netcode.Library

instance instLinearOrderUInt32 : LinearOrder UInt32 where
  le_refl := UInt32.le_refl
  le_trans _ _ _ := UInt32.le_trans
  le_antisymm _ _ := UInt32.le_antisymm
  le_total := UInt32.le_total
  lt_iff_le_not_ge a b := by
    rw [UInt32.not_le]
    exact ⟨fun h => ⟨UInt32.le_of_lt h, h⟩, fun h => h.2⟩
  toDecidableLE := inferInstance
  toDecidableEq := inferInstance

abbrev EntityId := UInt32

structure EntityState (α : Type*) where
  id : EntityId
  x : α
  y : α
deriving Repr

structure WorldSnapshot (α : Type*) where
  tick : UInt32 := 0
  entities : List (EntityState α) := []
deriving Repr

inductive SnapshotType
  | keyframe
  | delta

def SnapshotType.code : SnapshotType → UInt8
  | .keyframe => 0
  | .delta => 1

variable {α : Type*} [Scalar α]

def writeEntity (max : α) (w : BitWriter) (e : EntityState α) : BitWriter :=
  ((w.writeBits e.id 16).writeBits (quantize e.x max) kPosBits).writeBits
    (quantize e.y max) kPosBits

def writeEntities (max : α) (w : BitWriter) (es : List (EntityState α)) : BitWriter :=
  es.foldl (writeEntity max) (w.writeBits (UInt32.ofNat es.length) 16)

def writeIds (w : BitWriter) (ids : List EntityId) : BitWriter :=
  ids.foldl (fun w id => w.writeBits id 16) (w.writeBits (UInt32.ofNat ids.length) 16)

def encodeKeyframe (snap : WorldSnapshot α) (max : α) : Bytes :=
  SnapshotType.keyframe.code ::
    (writeEntities max (({} : BitWriter).writeBits snap.tick 32) snap.entities).take

/-- The entities that changed or were added, and the ids that were removed. -/
def diff : List (EntityState α) → List (EntityState α) → List (EntityState α) × List EntityId
  | [], bs => ([], bs.map EntityState.id)
  | c :: cs, [] => (c :: cs, [])
  | c :: cs, b :: bs =>
    if c.id < b.id then
      let r := diff cs (b :: bs)
      (c :: r.1, r.2)
    else if b.id < c.id then
      let r := diff (c :: cs) bs
      (r.1, b.id :: r.2)
    else
      let r := diff cs bs
      (if !Scalar.eq c.x b.x || !Scalar.eq c.y b.y then c :: r.1 else r.1, r.2)
termination_by cs bs => cs.length + bs.length

def encodeDelta (curr baseline : WorldSnapshot α) (max : α) : Bytes :=
  let d := diff curr.entities baseline.entities
  let w := (({} : BitWriter).writeBits curr.tick 32).writeBits baseline.tick 32
  SnapshotType.delta.code :: (writeIds (writeEntities max w d.1) d.2).take

def readEntity (max : α) (r : BitReader) : EntityState α × BitReader :=
  let id := r.readBits 16
  let x := id.2.readBits kPosBits
  let y := x.2.readBits kPosBits
  (⟨id.1, dequantize x.1 max, dequantize y.1 max⟩, y.2)

def readMany {β : Type*} (read : BitReader → β × BitReader) : ℕ → BitReader → List β × BitReader
  | 0, r => ([], r)
  | n + 1, r =>
    let b := read r
    let bs := readMany read n b.2
    (b.1 :: bs.1, bs.2)

def readCounted {β : Type*} (read : BitReader → β × BitReader) (r : BitReader) :
    List β × BitReader :=
  let count := r.readBits 16
  readMany read count.1.toNat count.2

def entityMap (es : List (EntityState α)) : SortedMap EntityId (EntityState α) :=
  es.foldl (fun m e => m.insert e.id e) ∅

def merge (base : List (EntityState α)) (removed : List EntityId)
    (changed : List (EntityState α)) : List (EntityState α) :=
  let merged := removed.foldl SortedMap.erase (entityMap base)
  (changed.foldl (fun m e => m.insert e.id e) merged).values

def applyKeyframe (base : WorldSnapshot α) (r : BitReader) (max : α) : Bool × WorldSnapshot α :=
  let tick := r.readBits 32
  let entities := readCounted (readEntity max) tick.2
  if entities.2.ok then (true, ⟨tick.1, entities.1⟩) else (false, base)

def applyDelta (base : WorldSnapshot α) (r : BitReader) (max : α) : Bool × WorldSnapshot α :=
  let tick := r.readBits 32
  let baselineTick := tick.2.readBits 32
  if !baselineTick.2.ok then (false, base)
  else if base.tick ≠ baselineTick.1 then (false, base)
  else
    let changed := readCounted (readEntity max) baselineTick.2
    let removed := readCounted (fun r => r.readBits 16) changed.2
    if removed.2.ok then (true, ⟨tick.1, merge base.entities removed.1 changed.1⟩)
    else (false, base)

def applySnapshot (base : WorldSnapshot α) (data : Bytes) (max : α) : Bool × WorldSnapshot α :=
  match data with
  | [] => (false, base)
  | type :: data =>
    if type = SnapshotType.keyframe.code then applyKeyframe base { data := data } max
    else if type = SnapshotType.delta.code then applyDelta base { data := data } max
    else (false, base)

variable {max : α}

def low (n : ℕ) (v : UInt32) : UInt32 := UInt32.ofNat (v.toNat % 2 ^ n)

theorem low_eq {n : ℕ} {v : UInt32} (h : v.toNat < 2 ^ n) : low n v = v := by
  rw [low, Nat.mod_eq_of_lt h, UInt32.ofNat_toNat]

/-- An entity as it comes back off the wire. -/
def wired (max : α) (e : EntityState α) : EntityState α :=
  ⟨low 16 e.id, dequantize (low kPosBits (quantize e.x max)) max,
    dequantize (low kPosBits (quantize e.y max)) max⟩

def entityBits (max : α) (e : EntityState α) : List Bool :=
  bits 16 e.id.toNat ++
    (bits kPosBits (quantize e.x max).toNat ++ bits kPosBits (quantize e.y max).toNat)

def idBits (id : EntityId) : List Bool := bits 16 id.toNat

def countedBits {β : Type*} (code : β → List Bool) (bs : List β) : List Bool :=
  bits 16 bs.length ++ bs.flatMap code

theorem holds_foldl {β : Type*} {write : BitWriter → β → BitWriter} {code : β → List Bool}
    (hwrite : ∀ w bs b, w.Holds bs → (write w b).Holds (bs ++ code b)) (items : List β)
    {w : BitWriter} {bs : List Bool} (h : w.Holds bs) :
    (items.foldl write w).Holds (bs ++ items.flatMap code) := by
  induction items generalizing w bs with
  | nil => simpa using h
  | cons b items ih =>
    rw [List.flatMap_cons, ← List.append_assoc]
    exact ih (hwrite w bs b h)

theorem holds_counted {β : Type*} {write : BitWriter → β → BitWriter} {code : β → List Bool}
    (hwrite : ∀ w bs b, w.Holds bs → (write w b).Holds (bs ++ code b)) (items : List β)
    {w : BitWriter} {bs : List Bool} (h : w.Holds bs) :
    (items.foldl write (w.writeBits (UInt32.ofNat items.length) 16)).Holds
      (bs ++ countedBits code items) := by
  have hcount : bits 16 (UInt32.ofNat items.length).toNat = bits 16 items.length := by
    apply bits_congr
    intro i hi
    rw [UInt32.toNat_ofNat', Nat.testBit_mod_two_pow, decide_eq_true (by omega), Bool.true_and]
  have hwritten := h.writeBits (UInt32.ofNat items.length) (n := 16)
  rw [hcount] at hwritten
  rw [countedBits, ← List.append_assoc]
  exact holds_foldl hwrite items hwritten

theorem holds_writeEntity (max : α) (w : BitWriter) (bs : List Bool) (e : EntityState α)
    (h : w.Holds bs) : (writeEntity max w e).Holds (bs ++ entityBits max e) := by
  have hid := h.writeBits e.id (n := 16)
  have hx := hid.writeBits (quantize e.x max) (n := kPosBits)
  have hy := hx.writeBits (quantize e.y max) (n := kPosBits)
  rw [entityBits, ← List.append_assoc, ← List.append_assoc]
  exact hy

theorem ahead_readMany {β γ : Type*} {read : BitReader → γ × BitReader} {code : β → List Bool}
    {value : β → γ} {items : List β}
    (hread : ∀ b ∈ items, ∀ r tail, BitReader.Ahead r (code b ++ tail) →
      (read r).1 = value b ∧ (read r).2.Ahead tail)
    {r : BitReader} {tail : List Bool} (h : r.Ahead (items.flatMap code ++ tail)) :
    (readMany read items.length r).1 = items.map value ∧
      (readMany read items.length r).2.Ahead tail := by
  induction items generalizing r with
  | nil => exact ⟨rfl, h⟩
  | cons b items ih =>
    rw [List.flatMap_cons, List.append_assoc] at h
    obtain ⟨hvalue, hahead⟩ := hread b List.mem_cons_self r _ h
    obtain ⟨hvalues, htail⟩ := ih (fun c hc => hread c (List.mem_cons_of_mem b hc)) hahead
    simp only [List.length_cons, readMany, hvalue, hvalues, List.map_cons]
    exact ⟨trivial, htail⟩

theorem ahead_readCounted_mod {β γ : Type*} {read : BitReader → γ × BitReader}
    {code : β → List Bool} {value : β → γ} {items : List β}
    (hread : ∀ b ∈ items, ∀ r tail, BitReader.Ahead r (code b ++ tail) →
      (read r).1 = value b ∧ (read r).2.Ahead tail)
    {r : BitReader} {tail : List Bool} (h : r.Ahead (countedBits code items ++ tail)) :
    (readCounted read r).1 = (items.take (items.length % 2 ^ 16)).map value ∧
      (readCounted read r).2.Ahead
        ((items.drop (items.length % 2 ^ 16)).flatMap code ++ tail) := by
  rw [countedBits, List.append_assoc] at h
  obtain ⟨hvalue, hahead⟩ := h.readBits
  have hlen : (items.take (items.length % 2 ^ 16)).length = items.length % 2 ^ 16 := by
    rw [List.length_take]
    exact min_eq_left (Nat.mod_le _ _)
  have hsplit : items.flatMap code = (items.take (items.length % 2 ^ 16)).flatMap code ++
      (items.drop (items.length % 2 ^ 16)).flatMap code := by
    rw [← List.flatMap_append, List.take_append_drop]
  rw [hsplit, List.append_assoc] at hahead
  have hmany := ahead_readMany (fun b hb => hread b (List.mem_of_mem_take hb)) hahead
  rw [hlen] at hmany
  rw [readCounted, hvalue]
  exact hmany

theorem ahead_readCounted {β γ : Type*} {read : BitReader → γ × BitReader}
    {code : β → List Bool} {value : β → γ} {items : List β}
    (hread : ∀ b ∈ items, ∀ r tail, BitReader.Ahead r (code b ++ tail) →
      (read r).1 = value b ∧ (read r).2.Ahead tail) (hlen : items.length < 2 ^ 16)
    {r : BitReader} {tail : List Bool} (h : r.Ahead (countedBits code items ++ tail)) :
    (readCounted read r).1 = items.map value ∧ (readCounted read r).2.Ahead tail := by
  have hmod := ahead_readCounted_mod hread h
  rwa [Nat.mod_eq_of_lt hlen, List.take_length, List.drop_length, List.flatMap_nil,
    List.nil_append] at hmod

theorem ahead_readBits {r : BitReader} {n : ℕ} {v : UInt32} {tail : List Bool}
    (h : r.Ahead (bits n v.toNat ++ tail)) (hn : n ≤ 32 := by decide) :
    (r.readBits n).1 = low n v ∧ (r.readBits n).2.Ahead tail := by
  obtain ⟨hvalue, hrest⟩ := h.readBits hn
  refine ⟨UInt32.toNat_inj.mp ?_, hrest⟩
  have hlt : v.toNat % 2 ^ n < 2 ^ 32 := (Nat.mod_le _ _).trans_lt v.toNat_lt
  rw [hvalue, low, UInt32.toNat_ofNat', Nat.mod_eq_of_lt hlt]

theorem ahead_readEntity (e : EntityState α) (r : BitReader) (tail : List Bool)
    (h : r.Ahead (entityBits max e ++ tail)) :
    (readEntity max r).1 = wired max e ∧ (readEntity max r).2.Ahead tail := by
  rw [entityBits, List.append_assoc, List.append_assoc] at h
  obtain ⟨hid, hrest⟩ := ahead_readBits h
  obtain ⟨hx, hrest⟩ := ahead_readBits hrest
  obtain ⟨hy, hrest⟩ := ahead_readBits hrest
  simp only [readEntity, wired, hid, hx, hy, true_and]
  exact hrest

theorem length_countedBits {β : Type*} {code : β → List Bool} {k : ℕ}
    (hcode : ∀ b, (code b).length = k) (bs : List β) :
    (countedBits code bs).length = 16 + bs.length * k := by
  rw [countedBits, List.length_append, length_bits, List.length_flatMap,
    List.map_congr_left fun b _ => hcode b, List.map_const', List.sum_replicate_nat]

theorem length_entityBits (e : EntityState α) : (entityBits max e).length = 40 := by
  simp only [entityBits, List.length_append, length_bits, kPosBits]

theorem length_idBits (id : EntityId) : (idBits id).length = 16 := length_bits _ _

theorem take_bits {w : BitWriter} {bs : List Bool} (h : w.Holds bs) (hbytes : bs.length % 8 = 0) :
    bitsOf w.take = bs := by
  obtain ⟨pad, hpad, hbits⟩ := w.take_spec h.2
  have hlen := congrArg List.length hbits
  rw [h.1, length_bitsOf, List.length_append, List.length_replicate] at hlen
  have hzero : pad = 0 := by omega
  rw [hbits, h.1, hzero, List.replicate_zero, List.append_nil]

theorem encodeKeyframe_bits (snap : WorldSnapshot α) (max : α) :
    ∃ data, encodeKeyframe snap max = SnapshotType.keyframe.code :: data ∧
      bitsOf data = bits 32 snap.tick.toNat ++ countedBits (entityBits max) snap.entities := by
  have hwritten := holds_counted (holds_writeEntity max) snap.entities
    (BitWriter.holds_init.writeBits snap.tick (n := 32))
  rw [List.nil_append] at hwritten
  refine ⟨_, rfl, take_bits hwritten ?_⟩
  rw [List.length_append, length_bits, length_countedBits length_entityBits]
  omega

theorem ahead_of_bits {data : Bytes} {bs : List Bool} (h : bitsOf data = bs) :
    BitReader.Ahead { data := data } (bs ++ []) := by
  rw [List.append_nil]
  exact ⟨h, rfl⟩

theorem applySnapshot_keyframe (base : WorldSnapshot α) (data : Bytes) :
    applySnapshot base (SnapshotType.keyframe.code :: data) max =
      applyKeyframe base { data := data } max := by
  rw [applySnapshot, if_pos rfl]

theorem applySnapshot_delta (base : WorldSnapshot α) (data : Bytes) :
    applySnapshot base (SnapshotType.delta.code :: data) max =
      applyDelta base { data := data } max := by
  rw [applySnapshot, if_neg (by decide), if_pos rfl]

theorem readTick_ahead {r : BitReader} {tick : UInt32} {tail : List Bool}
    (h : r.Ahead (bits 32 tick.toNat ++ tail)) :
    (r.readBits 32).1 = tick ∧ (r.readBits 32).2.Ahead tail := by
  obtain ⟨htick, hrest⟩ := ahead_readBits h
  rw [low_eq tick.toNat_lt] at htick
  exact ⟨htick, hrest⟩

theorem readEntities_ahead {es : List (EntityState α)} (hlen : es.length < 2 ^ 16)
    {r : BitReader} {tail : List Bool} (h : r.Ahead (countedBits (entityBits max) es ++ tail)) :
    (readCounted (readEntity max) r).1 = es.map (wired max) ∧
      (readCounted (readEntity max) r).2.Ahead tail :=
  ahead_readCounted (fun e _ => ahead_readEntity e) hlen h

theorem readIds_ahead {ids : List EntityId} (hlen : ids.length < 2 ^ 16) {r : BitReader}
    {tail : List Bool} (h : r.Ahead (countedBits idBits ids ++ tail)) :
    (readCounted (fun r => r.readBits 16) r).1 = ids.map (low 16) ∧
      (readCounted (fun r => r.readBits 16) r).2.Ahead tail :=
  ahead_readCounted (fun _ _ _ _ hr => ahead_readBits hr) hlen h

/-- A delta is rejected or moves the client from its baseline to its tick. -/
theorem applyDelta_cases (base : WorldSnapshot α) {tick baselineTick : UInt32} {r : BitReader}
    {tail : List Bool} (h : r.Ahead (bits 32 tick.toNat ++ (bits 32 baselineTick.toNat ++ tail))) :
    applyDelta base r max = (false, base) ∨
      base.tick = baselineTick ∧ ∃ es, applyDelta base r max = (true, ⟨tick, es⟩) := by
  obtain ⟨htick, hrest⟩ := readTick_ahead h
  obtain ⟨hbase, hrest⟩ := readTick_ahead hrest
  simp only [applyDelta, htick, hbase, hrest.2, Bool.not_true, Bool.false_eq_true, if_false,
    ite_not]
  split_ifs with hheld hok
  · exact Or.inr ⟨hheld, _, rfl⟩
  · exact Or.inl rfl
  · exact Or.inl rfl

theorem applyDelta_ahead (base : WorldSnapshot α) {tick baselineTick : UInt32}
    {changed : List (EntityState α)} {removed : List EntityId} (hchanged : changed.length < 2 ^ 16)
    (hremoved : removed.length < 2 ^ 16) {r : BitReader} {tail : List Bool}
    (h : r.Ahead (bits 32 tick.toNat ++ (bits 32 baselineTick.toNat ++
      (countedBits (entityBits max) changed ++ (countedBits idBits removed ++ tail))))) :
    applyDelta base r max = if base.tick = baselineTick then
      (true, ⟨tick, merge base.entities (removed.map (low 16)) (changed.map (wired max))⟩)
      else (false, base) := by
  obtain ⟨htick, hrest⟩ := readTick_ahead h
  obtain ⟨hbase, hrest⟩ := readTick_ahead hrest
  have hok := hrest.2
  obtain ⟨hentities, hrest⟩ := readEntities_ahead hchanged hrest
  obtain ⟨hids, hend⟩ := readIds_ahead hremoved hrest
  simp only [applyDelta, htick, hbase, hok, hentities, hids, hend.2, Bool.not_true,
    Bool.false_eq_true, if_false, if_true, ite_not]

theorem keyframe_accepted (base snap : WorldSnapshot α) :
    applySnapshot base (encodeKeyframe snap max) max = (true, ⟨snap.tick,
      (snap.entities.take (snap.entities.length % 2 ^ 16)).map (wired max)⟩) := by
  obtain ⟨data, hdata, hbits⟩ := encodeKeyframe_bits snap max
  have hahead := ahead_of_bits hbits
  rw [List.append_assoc] at hahead
  obtain ⟨htick, hrest⟩ := readTick_ahead hahead
  obtain ⟨hentities, hend⟩ := ahead_readCounted_mod (fun e _ => ahead_readEntity e) hrest
  rw [hdata, applySnapshot_keyframe]
  simp only [applyKeyframe, htick, hentities, hend.2, if_true]

theorem apply_encodeKeyframe (base snap : WorldSnapshot α)
    (hlen : snap.entities.length < 2 ^ 16) :
    applySnapshot base (encodeKeyframe snap max) max =
      (true, ⟨snap.tick, snap.entities.map (wired max)⟩) := by
  rw [keyframe_accepted, Nat.mod_eq_of_lt hlen, List.take_length]

end Netcode.Sim
