import Mathlib.Logic.Function.Basic
import Mathlib.Data.List.Basic
import Mathlib.Data.Nat.Bitwise
import Mathlib.Tactic.SplitIfs
import Netcode.Library.Window

/-!
# Sequence numbers and acknowledgements of one connection

Sequence numbers are sixteen bits wide; zero is the null sentinel, so real
sequences run from 1 to 65535 and then from 1 again. `received` and `acked`
are rings of `kBufferSize` flags addressed by sequence modulo their size.

`sequenceAt k` is the sequence of the `k`-th header a connection issues. A
header `Acknowledges` its top sequence and each of the 32 before it whose bit
is set; the two results the links rest on are that `buildAckBits` copies the
ring below the newest sequence, and that `onReceived` sets exactly the slots
of the acknowledged sequences.
-/

namespace Netcode.Transport

open Netcode.Library

structure PacketHeader where
  sequence : UInt16 := 0
  ack : UInt16 := 0
  ackBits : UInt32 := 0
deriving DecidableEq, Repr

def sequenceGreaterThan (a b : UInt16) : Bool :=
  (b < a && a.toNat - b.toNat ≤ 32768) || (a < b && 32768 < b.toNat - a.toNat)

abbrev kBufferSize : ℕ := 1024

abbrev Ring := Fin kBufferSize → Bool

def slot (s : UInt16) : Fin kBufferSize := ⟨s.toNat % kBufferSize, Nat.mod_lt _ (by decide)⟩

structure Connection where
  localSequence : UInt16 := 1
  remoteSequence : UInt16 := 0
  receivedAny : Bool := false
  received : Ring := fun _ => false
  acked : Ring := fun _ => false

/-- The increment of `next_header`, which skips the reserved sequence 0. -/
def advance (s : UInt16) : UInt16 := if s + 1 = 0 then 1 else s + 1

def ackBit (ackBits : UInt32) (i : ℕ) : Bool := ackBits &&& (1 <<< UInt32.ofNat i) != 0

namespace Connection

def isAcked (c : Connection) (sequence : UInt16) : Bool := c.acked (slot sequence)

def buildAckBits (c : Connection) : UInt32 :=
  (List.range 32).foldl (fun bits i =>
    if c.received (slot (c.remoteSequence - UInt16.ofNat (i + 1)))
      then bits ||| (1 <<< UInt32.ofNat i) else bits) 0

def nextHeader (c : Connection) : PacketHeader × Connection :=
  (⟨c.localSequence, c.remoteSequence, c.buildAckBits⟩,
    { c with
      acked := Function.update c.acked (slot c.localSequence) false
      localSequence := advance c.localSequence })

def recordReceived (c : Connection) (sequence : UInt16) : Connection :=
  { c with
    remoteSequence :=
      if !c.receivedAny || sequenceGreaterThan sequence c.remoteSequence
        then sequence else c.remoteSequence
    received := Function.update c.received (slot sequence) true
    receivedAny := true }

def markAcked (c : Connection) (sequence : UInt16) : Connection :=
  { c with acked := Function.update c.acked (slot sequence) true }

def processAcks (c : Connection) (ack : UInt16) (ackBits : UInt32) : Connection :=
  if ack = 0 then c
  else (List.range 32).foldl (fun c i =>
    if ackBit ackBits i then c.markAcked (ack - UInt16.ofNat (i + 1)) else c) (c.markAcked ack)

def onReceived (c : Connection) (header : PacketHeader) : Connection :=
  (c.recordReceived header.sequence).processAcks header.ack header.ackBits

end Connection

def sequenceAt (k : ℕ) : UInt16 := UInt16.ofNat (k % 65535 + 1)

theorem toNat_sequenceAt (k : ℕ) : (sequenceAt k).toNat = k % 65535 + 1 := by
  rw [sequenceAt, UInt16.toNat_ofNat']
  omega

theorem sequenceAt_ne_zero (k : ℕ) : sequenceAt k ≠ 0 := by
  intro h
  have hk := toNat_sequenceAt k
  rw [h, UInt16.toNat_zero] at hk
  omega

theorem advance_sequenceAt (k : ℕ) : advance (sequenceAt k) = sequenceAt (k + 1) := by
  have hk := toNat_sequenceAt k
  have hs : (sequenceAt k + 1).toNat = (k % 65535 + 2) % 65536 := by
    rw [UInt16.toNat_add, hk, UInt16.toNat_one]
  rw [advance]
  split_ifs with h
  · rw [h, UInt16.toNat_zero] at hs
    rw [← UInt16.toNat_inj, toNat_sequenceAt, UInt16.toNat_one]
    omega
  · have hne : (sequenceAt k + 1).toNat ≠ 0 := fun h0 => h (UInt16.toNat_inj.mp h0)
    rw [← UInt16.toNat_inj, toNat_sequenceAt, hs]
    omega

theorem toNat_sub_ofNat (a : UInt16) {i : ℕ} (hi : i ≤ 65536) :
    (a - UInt16.ofNat i).toNat = (a.toNat + 65536 - i) % 65536 := by
  rw [UInt16.toNat_sub, UInt16.toNat_ofNat']
  omega

theorem slot_eq_iff (s t : UInt16) : slot s = slot t ↔ s.toNat % 1024 = t.toNat % 1024 := by
  rw [slot, slot, Fin.mk.injEq]

theorem sequenceGreaterThan_iff (a b : UInt16) : sequenceGreaterThan a b = true ↔
    (b.toNat < a.toNat ∧ a.toNat - b.toNat ≤ 32768) ∨
      (a.toNat < b.toNat ∧ 32768 < b.toNat - a.toNat) := by
  simp only [sequenceGreaterThan, Bool.or_eq_true, Bool.and_eq_true, decide_eq_true_eq,
    UInt16.lt_iff_toNat_lt]

/-- A sequence is greater than every other one issued up to 32766 packets before it. -/
theorem sequenceGreaterThan_ahead {m k : ℕ} (hlt : m < k) (hnear : k ≤ m + 32766) :
    sequenceGreaterThan (sequenceAt k) (sequenceAt m) = true := by
  have hk := toNat_sequenceAt k
  have hm := toNat_sequenceAt m
  rw [sequenceGreaterThan_iff]
  omega

theorem sequenceGreaterThan_behind {k m : ℕ} (hle : k ≤ m) (hnear : m ≤ k + 32766) :
    sequenceGreaterThan (sequenceAt k) (sequenceAt m) = false := by
  have hk := toNat_sequenceAt k
  have hm := toNat_sequenceAt m
  rw [← Bool.not_eq_true, sequenceGreaterThan_iff]
  omega

theorem toNat_one_shiftLeft {i : ℕ} (hi : i < 32) :
    (1 <<< UInt32.ofNat i : UInt32).toNat = 2 ^ i := by
  rw [UInt32.toNat_shiftLeft, UInt32.toNat_ofNat', UInt32.toNat_one, Nat.one_shiftLeft,
    show i % 2 ^ 32 % 32 = i by omega]
  exact Nat.mod_eq_of_lt (Nat.pow_lt_pow_right (by omega) hi)

theorem ackBit_eq_testBit (b : UInt32) {i : ℕ} (hi : i < 32) :
    ackBit b i = b.toNat.testBit i := by
  rw [ackBit, Bool.eq_iff_iff, bne_iff_ne, ne_eq, ← UInt32.toNat_inj, UInt32.toNat_and,
    toNat_one_shiftLeft hi, UInt32.toNat_zero, Nat.and_two_pow]
  cases b.toNat.testBit i <;> simp

theorem foldl_bits_testBit (p : ℕ → Bool) {n i : ℕ} (hn : n ≤ 32) (hi : i < 32) :
    ((List.range n).foldl (fun bits k => if p k then bits ||| (1 <<< UInt32.ofNat k) else bits)
      (0 : UInt32)).toNat.testBit i = (decide (i < n) && p i) := by
  induction n with
  | zero => simp
  | succ n ih =>
    have hlt : (i < n + 1) = (i < n ∨ n = i) := by
      apply propext
      omega
    rw [List.range_succ, List.foldl_append, List.foldl_cons, List.foldl_nil]
    split_ifs with hp
    · rw [UInt32.toNat_or, Nat.testBit_or, ih (by omega), toNat_one_shiftLeft (by omega),
        Nat.testBit_two_pow]
      by_cases h : n = i
      · subst h
        simp [hp]
      · simp [h, hlt]
    · rw [ih (by omega)]
      by_cases h : n = i
      · subst h
        simp [hp]
      · simp [h, hlt]

/-- The sequences a header tells its receiver to retire. -/
def PacketHeader.Acknowledges (h : PacketHeader) (t : UInt16) : Prop :=
  h.ack ≠ 0 ∧ (t = h.ack ∨
    ∃ i < 32, ackBit h.ackBits i = true ∧ t = h.ack - UInt16.ofNat (i + 1))

namespace Connection

theorem nextHeader_localSequence {c : Connection} {k : ℕ}
    (h : c.localSequence = sequenceAt k) : c.nextHeader.2.localSequence = sequenceAt (k + 1) := by
  rw [← advance_sequenceAt, ← h]
  rfl

theorem nextHeader_issued {c : Connection} {headers : List PacketHeader}
    (hlocal : c.localSequence = sequenceAt headers.length)
    (hissued : ∀ (k : ℕ) header, headers[k]? = some header → header.sequence = sequenceAt k)
    {k : ℕ} {header : PacketHeader} (hk : (headers ++ [c.nextHeader.1])[k]? = some header) :
    header.sequence = sequenceAt k := by
  rcases getElem?_concat hk with hold | ⟨hkn, hheader⟩
  · exact hissued k header hold
  · rw [hkn, hheader]
    exact hlocal

theorem buildAckBits_ackBit (c : Connection) {i : ℕ} (hi : i < 32) :
    ackBit c.buildAckBits i = c.received (slot (c.remoteSequence - UInt16.ofNat (i + 1))) := by
  rw [ackBit_eq_testBit _ hi, buildAckBits, foldl_bits_testBit _ le_rfl hi]
  simp [hi]

theorem nextHeader_acknowledges {c : Connection} {t : UInt16}
    (h : c.nextHeader.1.Acknowledges t) : c.remoteSequence ≠ 0 ∧ (t = c.remoteSequence ∨
      ∃ i < 32, c.received (slot t) = true ∧ t = c.remoteSequence - UInt16.ofNat (i + 1)) := by
  obtain ⟨h0, h | ⟨i, hi, hb, ht⟩⟩ := h
  · exact ⟨h0, Or.inl h⟩
  · refine ⟨h0, Or.inr ⟨i, hi, ?_, ht⟩⟩
    rw [ht]
    exact (buildAckBits_ackBit c hi).symm.trans hb

theorem acknowledges_nextHeader {c : Connection} {s : UInt16} (h0 : c.remoteSequence ≠ 0)
    (hreceived : c.received (slot s) = true) (hnear : (c.remoteSequence - s).toNat ≤ 32) :
    c.nextHeader.1.Acknowledges s := by
  have hr := c.remoteSequence.toNat_lt
  have hs := s.toNat_lt
  rw [UInt16.toNat_sub] at hnear
  refine ⟨h0, ?_⟩
  by_cases htop : s = c.remoteSequence
  · exact Or.inl htop
  · have hne : s.toNat ≠ c.remoteSequence.toNat := fun heq => htop (UInt16.toNat_inj.mp heq)
    obtain ⟨i, hi⟩ : ∃ i, (2 ^ 16 - s.toNat + c.remoteSequence.toNat) % 2 ^ 16 = i + 1 :=
      Nat.exists_eq_succ_of_ne_zero (by omega)
    have hsub : s = c.remoteSequence - UInt16.ofNat (i + 1) := by
      rw [← UInt16.toNat_inj, toNat_sub_ofNat _ (by omega)]
      omega
    refine Or.inr ⟨i, by omega, ?_, hsub⟩
    have hcopy := buildAckBits_ackBit c (i := i) (by omega)
    rw [← hsub, hreceived] at hcopy
    exact hcopy

theorem markAcked_acked (c : Connection) (s : UInt16) (x : Fin kBufferSize) :
    (c.markAcked s).acked x = true ↔ c.acked x = true ∨ slot s = x := by
  by_cases hx : x = slot s
  · simp [markAcked, hx]
  · simp [markAcked, hx, Ne.symm hx]

theorem foldl_markAcked (c : Connection) (p : ℕ → Bool) (f : ℕ → UInt16) (is : List ℕ) :
    ∃ ring : Ring,
      is.foldl (fun c i => if p i then c.markAcked (f i) else c) c = { c with acked := ring } ∧
      ∀ x, ring x = true ↔ c.acked x = true ∨ ∃ i ∈ is, p i = true ∧ slot (f i) = x := by
  induction is generalizing c with
  | nil => exact ⟨c.acked, rfl, fun x => by simp⟩
  | cons i is ih =>
    obtain ⟨ring, heq, hring⟩ := ih (if p i then c.markAcked (f i) else c)
    cases hp : p i with
    | false =>
      rw [hp] at heq hring
      refine ⟨ring, by rw [List.foldl_cons, hp]; exact heq, fun x => ?_⟩
      rw [hring x]
      simp [hp]
    | true =>
      rw [hp] at heq hring
      refine ⟨ring, by rw [List.foldl_cons, hp]; exact heq, fun x => ?_⟩
      rw [hring x, if_pos rfl, markAcked_acked]
      simp [hp, or_assoc]

theorem processAcks_spec (c : Connection) (h : PacketHeader) :
    ∃ ring : Ring, c.processAcks h.ack h.ackBits = { c with acked := ring } ∧
      ∀ x, ring x = true ↔ c.acked x = true ∨ ∃ t, h.Acknowledges t ∧ slot t = x := by
  rw [processAcks]
  split_ifs with h0
  · exact ⟨c.acked, rfl, fun x => by simp [PacketHeader.Acknowledges, h0]⟩
  · obtain ⟨ring, heq, hring⟩ := foldl_markAcked (c.markAcked h.ack) (ackBit h.ackBits)
      (fun i => h.ack - UInt16.ofNat (i + 1)) (List.range 32)
    refine ⟨ring, heq, fun x => (hring x).trans ?_⟩
    rw [markAcked_acked]
    constructor
    · intro h
      rcases h with (hx | hx) | ⟨i, hi, hb, hx⟩
      · exact Or.inl hx
      · exact Or.inr ⟨h.ack, ⟨h0, Or.inl rfl⟩, hx⟩
      · exact Or.inr ⟨_, ⟨h0, Or.inr ⟨i, List.mem_range.mp hi, hb, rfl⟩⟩, hx⟩
    · intro h
      rcases h with hx | ⟨t, ⟨-, rfl | ⟨i, hi, hb, rfl⟩⟩, hx⟩
      · exact Or.inl (Or.inl hx)
      · exact Or.inl (Or.inr hx)
      · exact Or.inr ⟨i, List.mem_range.mpr hi, hb, hx⟩

theorem onReceived_spec (c : Connection) (h : PacketHeader) :
    ∃ ring : Ring, c.onReceived h = { c.recordReceived h.sequence with acked := ring } ∧
      ∀ x, ring x = true ↔ c.acked x = true ∨ ∃ t, h.Acknowledges t ∧ slot t = x :=
  (c.recordReceived h.sequence).processAcks_spec h

@[simp] theorem onReceived_remoteSequence (c : Connection) (h : PacketHeader) :
    (c.onReceived h).remoteSequence = (c.recordReceived h.sequence).remoteSequence := by
  obtain ⟨ring, heq, -⟩ := onReceived_spec c h
  rw [heq]

@[simp] theorem onReceived_received (c : Connection) (h : PacketHeader) :
    (c.onReceived h).received = Function.update c.received (slot h.sequence) true := by
  obtain ⟨ring, heq, -⟩ := onReceived_spec c h
  rw [heq]
  rfl

theorem received_onReceived (c : Connection) (h : PacketHeader) (x : Fin kBufferSize) :
    (c.onReceived h).received x = true ↔ c.received x = true ∨ slot h.sequence = x := by
  rw [onReceived_received]
  by_cases hx : x = slot h.sequence
  · simp [hx]
  · simp [hx, Ne.symm hx]

@[simp] theorem onReceived_receivedAny (c : Connection) (h : PacketHeader) :
    (c.onReceived h).receivedAny = true := by
  obtain ⟨ring, heq, -⟩ := onReceived_spec c h
  rw [heq]
  rfl

@[simp] theorem onReceived_localSequence (c : Connection) (h : PacketHeader) :
    (c.onReceived h).localSequence = c.localSequence := by
  obtain ⟨ring, heq, -⟩ := onReceived_spec c h
  rw [heq]
  rfl

theorem onReceived_acked (c : Connection) (h : PacketHeader) (x : Fin kBufferSize) :
    (c.onReceived h).acked x = true ↔
      c.acked x = true ∨ ∃ t, h.Acknowledges t ∧ slot t = x := by
  obtain ⟨ring, heq, hring⟩ := onReceived_spec c h
  rw [heq]
  exact hring x

theorem recordReceived_first {c : Connection} (hany : c.receivedAny = false) (s : UInt16) :
    (c.recordReceived s).remoteSequence = s := by
  simp [recordReceived, hany]

theorem recordReceived_ahead {c : Connection} {s : UInt16}
    (hgt : sequenceGreaterThan s c.remoteSequence = true) :
    (c.recordReceived s).remoteSequence = s := by
  simp [recordReceived, hgt]

theorem recordReceived_behind {c : Connection} {s : UInt16} (hany : c.receivedAny = true)
    (hgt : sequenceGreaterThan s c.remoteSequence = false) :
    (c.recordReceived s).remoteSequence = c.remoteSequence := by
  simp [recordReceived, hany, hgt]

theorem recordReceived_remoteSequence (c : Connection) (s : UInt16) :
    (c.recordReceived s).remoteSequence = s ∨
      (c.receivedAny = true ∧ (c.recordReceived s).remoteSequence = c.remoteSequence) := by
  rw [recordReceived]
  by_cases hnew : (!c.receivedAny || sequenceGreaterThan s c.remoteSequence) = true
  · exact Or.inl (if_pos hnew)
  · rw [Bool.or_eq_true, not_or, Bool.not_eq_true', Bool.not_eq_false] at hnew
    exact Or.inr ⟨hnew.1, by simp [hnew]⟩

end Connection

end Netcode.Transport
