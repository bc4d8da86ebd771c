import Mathlib.Data.Finmap
import Mathlib.Data.Finset.Sort
import Netcode.Library.Bytes
import Netcode.Transport.Channel
import Netcode.Transport.Connection

/-!
# Fragmentation and reassembly

A packet is cut into fragments of at most `kMaxFragmentSize` bytes that share
its sequence; the fragment count is one byte wide. The reassembler keeps one
group per sequence and evicts the oldest when it would track more than
`kMaxGroups`. Its table is a hash map, so the order in which eviction visits
the keys is not determined by the source: it is an argument here.

`Group.Holds g p` says that the filled slots of `g` are pieces of `p`.
-/

namespace Netcode.Transport

open Netcode.Library

structure FragmentHeader where
  packetSeq : UInt16 := 0
  fragmentId : UInt8 := 0
  fragmentCount : UInt8 := 1
deriving DecidableEq, Repr

def FragmentHeader.encode (h : FragmentHeader) : Bytes :=
  encodeLE 2 h.packetSeq.toNat ++ [h.fragmentId, h.fragmentCount]

def FragmentHeader.decode : Bytes → Option (FragmentHeader × Bytes)
  | a :: b :: id :: count :: chunk => some (⟨UInt16.ofNat (decodeLE [a, b]), id, count⟩, chunk)
  | _ => none

abbrev kMaxFragmentSize : ℕ := 1024

def fragmentCount (len : ℕ) : ℕ :=
  let count := (len + kMaxFragmentSize - 1) / kMaxFragmentSize
  if count = 0 then 1 else count

def fragment (packetSeq : UInt16) (data : Bytes) : List Bytes :=
  (List.range (fragmentCount data.length)).map fun i =>
    let offset := i * kMaxFragmentSize
    let chunk := min kMaxFragmentSize (data.length - offset)
    FragmentHeader.encode
      ⟨packetSeq, UInt8.ofNat i, UInt8.ofNat (fragmentCount data.length)⟩ ++
        (data.drop offset).take chunk

/-- `Partial` of the source. -/
structure Group where
  count : UInt8 := 0
  received : UInt8 := 0
  chunks : List Bytes := []

abbrev kMaxGroups : ℕ := 16

structure Reassembler where
  groups : Finmap fun _ : UInt16 => Group := ∅

/-- An order in which an iteration over the table may visit its keys. -/
structure VisitOrder where
  visit : Finset UInt16 → List UInt16
  mem_visit : ∀ keys s, s ∈ visit keys ↔ s ∈ keys
  nodup : ∀ keys, (visit keys).Nodup

def VisitOrder.ascending : VisitOrder where
  visit keys := keys.sort (· ≤ ·)
  mem_visit _ _ := Finset.mem_sort _
  nodup _ := Finset.sort_nodup _ _

def evictOldest (order : VisitOrder) (groups : Finmap fun _ : UInt16 => Group) :
    Finmap fun _ : UInt16 => Group :=
  match order.visit groups.keys with
  | [] => groups
  | first :: rest => groups.erase
      (rest.foldl (fun oldest s => if sequenceGreaterThan oldest s then s else oldest) first)

namespace Reassembler

/-- The part of `reassemble` after the group of the fragment is found or created. -/
def store (r : Reassembler) (header : FragmentHeader) (chunk : Bytes) (group : Group) :
    Option Bytes × Reassembler :=
  if header.fragmentCount ≠ group.count ∨ group.chunks.getD header.fragmentId.toNat [] ≠ [] then
    (none, r)
  else
    let group := { group with
      chunks := group.chunks.set header.fragmentId.toNat chunk
      received := group.received + 1 }
    if group.received < group.count then (none, ⟨r.groups.insert header.packetSeq group⟩)
    else (some group.chunks.flatten, ⟨r.groups.erase header.packetSeq⟩)

def fresh (count : UInt8) : Group := ⟨count, 0, List.replicate count.toNat []⟩

def reassemble (r : Reassembler) (order : VisitOrder) (data : Bytes) :
    Option Bytes × Reassembler :=
  match FragmentHeader.decode data with
  | none => (none, r)
  | some (header, chunk) =>
    if header.fragmentCount = 0 ∨ header.fragmentCount ≤ header.fragmentId then (none, r)
    else if header.fragmentCount = 1 then (some chunk, r)
    else match r.groups.lookup header.packetSeq with
      | some group => r.store header chunk group
      | none =>
        let groups :=
          if kMaxGroups ≤ r.groups.keys.card then evictOldest order r.groups else r.groups
        let group := fresh header.fragmentCount
        Reassembler.store ⟨groups.insert header.packetSeq group⟩ header chunk group

end Reassembler

section Fragments

variable {s : UInt16} {p : Bytes} {i : ℕ}

@[simp] theorem FragmentHeader.decode_encode (h : FragmentHeader) (chunk : Bytes) :
    FragmentHeader.decode (h.encode ++ chunk) = some (h, chunk) := by
  have hseq : decodeLE (encodeLE 2 h.packetSeq.toNat) = h.packetSeq.toNat := by
    rw [decodeLE_encodeLE]
    exact Nat.mod_eq_of_lt h.packetSeq.toNat_lt
  change some ((⟨UInt16.ofNat (decodeLE (encodeLE 2 h.packetSeq.toNat)), _, _⟩ : FragmentHeader),
    chunk) = _
  rw [hseq, UInt16.ofNat_toNat]

theorem fragmentCount_pos (len : ℕ) : 1 ≤ fragmentCount len := by
  simp only [fragmentCount]
  split_ifs with hzero
  · exact le_rfl
  · exact Nat.one_le_iff_ne_zero.mpr hzero

theorem le_fragmentCount_mul (len : ℕ) : len ≤ fragmentCount len * kMaxFragmentSize := by
  simp only [fragmentCount, kMaxFragmentSize]
  split_ifs <;> omega

theorem fragmentCount_le_iff {len n : ℕ} (hn : 1 ≤ n) :
    fragmentCount len ≤ n ↔ len ≤ n * kMaxFragmentSize := by
  simp only [fragmentCount, kMaxFragmentSize]
  split_ifs <;> omega

def fragmentHeader (s : UInt16) (p : Bytes) (i : ℕ) : FragmentHeader :=
  ⟨s, UInt8.ofNat i, UInt8.ofNat (fragmentCount p.length)⟩

def datagram (s : UInt16) (p : Bytes) (i : ℕ) : Bytes :=
  (fragmentHeader s p i).encode ++ piece kMaxFragmentSize p i

theorem fragment_eq (s : UInt16) (p : Bytes) :
    fragment s p = (List.range (fragmentCount p.length)).map (datagram s p) := by
  apply List.map_congr_left
  intro i _
  have htake : (p.drop (i * kMaxFragmentSize)).take
      (min kMaxFragmentSize (p.length - i * kMaxFragmentSize)) = piece kMaxFragmentSize p i := by
    rw [← List.length_drop, piece]
    exact List.take_eq_take_min.symm
  exact congrArg ((fragmentHeader s p i).encode ++ ·) htake

theorem piece_fragment_ne_nil (hcount : 2 ≤ fragmentCount p.length)
    (hi : i < fragmentCount p.length) : piece kMaxFragmentSize p i ≠ [] := by
  apply piece_ne_nil (by decide)
  simp only [fragmentCount, kMaxFragmentSize] at hcount hi ⊢
  split_ifs at hcount hi <;> omega

theorem piece_whole (h : fragmentCount p.length = 1) : piece kMaxFragmentSize p 0 = p := by
  have hle := le_fragmentCount_mul p.length
  rw [h, Nat.one_mul] at hle
  simp only [piece, Nat.zero_mul, List.drop_zero]
  exact List.take_of_length_le hle

end Fragments

structure Group.Holds (g : Group) (p : Bytes) : Prop where
  count : g.count.toNat = fragmentCount p.length
  multiple : 2 ≤ fragmentCount p.length
  length : g.chunks.length = fragmentCount p.length
  slots : ∀ i, ∀ hi : i < g.chunks.length,
    g.chunks[i] = [] ∨ g.chunks[i] = piece kMaxFragmentSize p i
  received : g.received.toNat = filled g.chunks

section Groups

variable {g : Group} {s : UInt16} {p : Bytes} {i : ℕ}

theorem fragmentCount_le (hp : p.length ≤ 255 * kMaxFragmentSize) :
    fragmentCount p.length ≤ 255 :=
  (fragmentCount_le_iff (by omega)).mpr hp

theorem toNat_fragmentCount (hp : p.length ≤ 255 * kMaxFragmentSize) :
    (UInt8.ofNat (fragmentCount p.length)).toNat = fragmentCount p.length := by
  have hle := fragmentCount_le hp
  rw [UInt8.toNat_ofNat']
  exact Nat.mod_eq_of_lt (by omega)

theorem toNat_fragmentId (hp : p.length ≤ 255 * kMaxFragmentSize)
    (hi : i < fragmentCount p.length) : (UInt8.ofNat i).toNat = i := by
  have hle := fragmentCount_le hp
  rw [UInt8.toNat_ofNat']
  exact Nat.mod_eq_of_lt (by omega)

theorem holds_fresh (hp : p.length ≤ 255 * kMaxFragmentSize)
    (hmultiple : 2 ≤ fragmentCount p.length) :
    (Reassembler.fresh (UInt8.ofNat (fragmentCount p.length))).Holds p := by
  refine ⟨toNat_fragmentCount hp, hmultiple, ?_, fun i hi => Or.inl ?_, ?_⟩
  · simp only [Reassembler.fresh, List.length_replicate, toNat_fragmentCount hp]
  · simp only [Reassembler.fresh, List.getElem_replicate]
  · exact (filled_replicate_nil _).symm

def Group.put (g : Group) (p : Bytes) (i : ℕ) : Group :=
  { g with chunks := g.chunks.set i (piece kMaxFragmentSize p i), received := g.received + 1 }

theorem Group.Holds.put (h : g.Holds p) (hp : p.length ≤ 255 * kMaxFragmentSize)
    (hi : i < g.chunks.length) (hempty : g.chunks[i] = []) : (g.put p i).Holds p := by
  have hlen := h.length
  have hle := fragmentCount_le hp
  have hcount := filled_set hi hempty (piece_fragment_ne_nil (i := i) h.multiple (by omega))
  have hbound := filled_le_length (g.chunks.set i (piece kMaxFragmentSize p i))
  rw [List.length_set] at hbound
  refine ⟨h.count, h.multiple, ?_, fun j hj => ?_, ?_⟩
  · simp only [Group.put, List.length_set, hlen]
  · simp only [Group.put, List.getElem_set]
    split_ifs with hij
    · exact Or.inr (by rw [hij])
    · have hj' : j < g.chunks.length := by simpa only [Group.put, List.length_set] using hj
      exact h.slots j hj'
  · simp only [Group.put, UInt8.toNat_add, h.received, UInt8.toNat_one]
    rw [hcount, Nat.mod_eq_of_lt (by omega)]

theorem Group.Holds.flatten (h : g.Holds p) (hfull : ¬ g.received < g.count) :
    g.chunks.flatten = p := by
  have hle := filled_le_length g.chunks
  rw [UInt8.lt_iff_toNat_lt, h.received, h.count, ← h.length] at hfull
  have hall := eq_map_of_filled h.slots (by omega)
  rw [hall, flatten_pieces, h.length]
  exact List.take_of_length_le (le_fragmentCount_mul _)

theorem lookup_of_erase {groups : Finmap fun _ : UInt16 => Group} {t : UInt16}
    (h : (groups.erase t).lookup s = some g) : groups.lookup s = some g := by
  by_cases hs : s = t
  · rw [hs, Finmap.lookup_erase] at h
    exact absurd h (by simp)
  · rwa [Finmap.lookup_erase_ne hs] at h

theorem lookup_of_insert {groups : Finmap fun _ : UInt16 => Group} {t : UInt16} {g' : Group}
    (h : (groups.insert t g').lookup s = some g) :
    (s = t ∧ g' = g) ∨ groups.lookup s = some g := by
  by_cases hs : s = t
  · rw [hs, Finmap.lookup_insert, Option.some.injEq] at h
    exact Or.inl ⟨hs, h⟩
  · rw [Finmap.lookup_insert_of_ne _ hs] at h
    exact Or.inr h

theorem lookup_evictOldest {order : VisitOrder} {groups : Finmap fun _ : UInt16 => Group}
    (h : (evictOldest order groups).lookup s = some g) : groups.lookup s = some g := by
  rw [evictOldest] at h
  split at h
  · exact h
  · exact lookup_of_erase h

end Groups

namespace Reassembler

variable {r : Reassembler} {order : VisitOrder} {g : Group} {s : UInt16} {p : Bytes} {i : ℕ}

def Rejects (g : Group) (header : FragmentHeader) : Prop :=
  header.fragmentCount ≠ g.count ∨ g.chunks.getD header.fragmentId.toNat [] ≠ []

theorem store_rejects {header : FragmentHeader} {chunk : Bytes} (h : Rejects g header) :
    r.store header chunk g = (none, r) := if_pos h

theorem store_holds (hg : g.Holds p) (hp : p.length ≤ 255 * kMaxFragmentSize)
    (hi : i < fragmentCount p.length) (hr : ¬ Rejects g (fragmentHeader s p i)) :
    (g.put p i).Holds p ∧ r.store (fragmentHeader s p i) (piece kMaxFragmentSize p i) g =
      if (g.put p i).received < g.count then (none, ⟨r.groups.insert s (g.put p i)⟩)
      else (some p, ⟨r.groups.erase s⟩) := by
  have hid : (fragmentHeader s p i).fragmentId.toNat = i := toNat_fragmentId hp hi
  have hlen := hg.length
  rw [Rejects] at hr
  have hempty : g.chunks[i] = [] := by
    have hd := not_not.mp (not_or.mp hr).2
    rwa [hid, List.getD_eq_getElem _ _ (by omega)] at hd
  have hput := hg.put hp (by omega) hempty
  have hstep : r.store (fragmentHeader s p i) (piece kMaxFragmentSize p i) g =
      if (g.put p i).received < g.count then (none, ⟨r.groups.insert s (g.put p i)⟩)
      else (some (g.put p i).chunks.flatten, ⟨r.groups.erase s⟩) := by
    rw [store, if_neg hr, hid]
    rfl
  refine ⟨hput, hstep.trans ?_⟩
  split_ifs with hlt
  · rfl
  · rw [hput.flatten hlt]

theorem reassemble_datagram (hp : p.length ≤ 255 * kMaxFragmentSize)
    (hi : i < fragmentCount p.length) : r.reassemble order (datagram s p i) =
      if (fragmentHeader s p i).fragmentCount = 1 then (some (piece kMaxFragmentSize p i), r)
      else match r.groups.lookup s with
        | some group => r.store (fragmentHeader s p i) (piece kMaxFragmentSize p i) group
        | none =>
          let groups :=
            if kMaxGroups ≤ r.groups.keys.card then evictOldest order r.groups else r.groups
          let group := fresh (fragmentHeader s p i).fragmentCount
          store ⟨groups.insert s group⟩ (fragmentHeader s p i) (piece kMaxFragmentSize p i)
            group := by
  have hcount := toNat_fragmentCount hp
  have hid := toNat_fragmentId hp hi
  have hvalid : ¬ ((fragmentHeader s p i).fragmentCount = 0 ∨
      (fragmentHeader s p i).fragmentCount ≤ (fragmentHeader s p i).fragmentId) := by
    intro h
    rcases h with h | h
    · have hzero := congrArg UInt8.toNat h
      simp only [fragmentHeader, hcount, UInt8.toNat_zero] at hzero
      omega
    · simp only [fragmentHeader, UInt8.le_iff_toNat_le, hcount, hid] at h
      omega
  simp only [reassemble, datagram, FragmentHeader.decode_encode, if_neg hvalid]
  rfl

theorem reassemble_whole (hcount : fragmentCount p.length = 1) :
    r.reassemble order (datagram s p 0) = (some p, r) := by
  have hp : p.length ≤ 255 * kMaxFragmentSize :=
    (fragmentCount_le_iff (by omega)).mp (by omega)
  have hone : (fragmentHeader s p 0).fragmentCount = 1 := by
    simp only [fragmentHeader, hcount]
    rfl
  rw [reassemble_datagram hp (by omega), if_pos hone, piece_whole hcount]

theorem fragmentCount_ne_one (hp : p.length ≤ 255 * kMaxFragmentSize)
    (hmultiple : 2 ≤ fragmentCount p.length) : (fragmentHeader s p i).fragmentCount ≠ 1 := by
  intro h
  have hone := congrArg UInt8.toNat h
  simp only [fragmentHeader, toNat_fragmentCount hp, UInt8.toNat_one] at hone
  omega

theorem reassemble_found (order : VisitOrder) (hp : p.length ≤ 255 * kMaxFragmentSize)
    (hmultiple : 2 ≤ fragmentCount p.length) (hi : i < fragmentCount p.length)
    (hg : r.groups.lookup s = some g) : r.reassemble order (datagram s p i) =
      r.store (fragmentHeader s p i) (piece kMaxFragmentSize p i) g := by
  rw [reassemble_datagram hp hi, if_neg (fragmentCount_ne_one hp hmultiple), hg]

/-- The first fragment to arrive opens a group; making room for it only ever removes one. -/
theorem reassemble_created (order : VisitOrder) (hp : p.length ≤ 255 * kMaxFragmentSize)
    (hmultiple : 2 ≤ fragmentCount p.length) (hi : i < fragmentCount p.length)
    (hnone : r.groups.lookup s = none) :
    ∃ groups : Finmap fun _ : UInt16 => Group,
      (∀ t g, groups.lookup t = some g → r.groups.lookup t = some g) ∧
      (r.groups.keys.card < kMaxGroups → groups = r.groups) ∧
      r.reassemble order (datagram s p i) = (none, ⟨groups.insert s
        ((fresh (fragmentHeader s p i).fragmentCount).put p i)⟩) := by
  set opened := fresh (fragmentHeader s p i).fragmentCount with hopened
  have hholds : opened.Holds p := holds_fresh hp hmultiple
  have haccepts : ¬ Rejects opened (fragmentHeader s p i) := by
    simp [Rejects, hopened, fresh, fragmentHeader]
  have hroom : ∀ t g, (if kMaxGroups ≤ r.groups.keys.card then evictOldest order r.groups
      else r.groups).lookup t = some g → r.groups.lookup t = some g := by
    intro t g ht
    split_ifs at ht
    · exact lookup_evictOldest ht
    · exact ht
  refine ⟨_, hroom, fun hspace => if_neg (Nat.not_le.mpr hspace), ?_⟩
  obtain ⟨hput, hstore⟩ := store_holds (s := s) (r := ⟨(if kMaxGroups ≤ r.groups.keys.card then
    evictOldest order r.groups else r.groups).insert s opened⟩) hholds hp hi haccepts
  have hmore : (opened.put p i).received < opened.count := by
    have hreceived : (opened.put p i).received = 1 := rfl
    rw [UInt8.lt_iff_toNat_lt, hholds.count, hreceived, UInt8.toNat_one]
    omega
  rw [if_pos hmore] at hstore
  rw [reassemble_datagram hp hi, if_neg (fragmentCount_ne_one hp hmultiple), hnone]
  exact hstore.trans (by rw [Finmap.insert_insert])

end Reassembler

end Netcode.Transport
