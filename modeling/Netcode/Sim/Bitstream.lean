import Mathlib.Tactic.Ring
import Netcode.Library.Bits

/-!
# The bit-packed stream of a snapshot

The writer keeps the bits that do not fill a byte yet in an accumulator of 64
bits, and the reader walks a buffer bit by bit. `BitWriter.stream` is what has
been written so far and `BitReader.rest` what is still to be read.
-/

namespace Netcode.Sim

open Netcode.Library

structure BitWriter where
  out : Bytes := []
  acc : UInt64 := 0
  nbits : ℕ := 0

namespace BitWriter

def drain (w : BitWriter) : BitWriter :=
  if 8 ≤ w.nbits then
    drain { w with
      out := w.out ++ [((w.acc >>> UInt64.ofNat (w.nbits - 8)) &&& 0xFF).toUInt8]
      nbits := w.nbits - 8 }
  else w
termination_by w.nbits

def writeBits (w : BitWriter) (value : UInt32) (n : ℕ) : BitWriter :=
  drain { w with
    acc := (w.acc <<< UInt64.ofNat n) ||| (((1 <<< UInt64.ofNat n) - 1) &&& value.toUInt64)
    nbits := w.nbits + n }

def take (w : BitWriter) : Bytes :=
  if 0 < w.nbits then w.out ++ [((w.acc <<< UInt64.ofNat (8 - w.nbits)) &&& 0xFF).toUInt8]
  else w.out

def stream (w : BitWriter) : List Bool := bitsOf w.out ++ bits w.nbits w.acc.toNat

theorem toNat_low_byte (x : UInt64) : ((x &&& 0xFF).toUInt8).toNat = x.toNat % 2 ^ 8 := by
  rw [UInt64.toNat_toUInt8, UInt64.toNat_and]
  have hmask : (0xFF : UInt64).toNat = 2 ^ 8 - 1 := rfl
  rw [hmask, Nat.and_two_pow_sub_one_eq_mod, Nat.mod_mod]

theorem drain_spec (w : BitWriter) (hw : w.nbits ≤ 64) :
    w.drain.stream = w.stream ∧ w.drain.nbits < 8 := by
  induction w using drain.induct with
  | case1 w hge ih =>
    obtain ⟨hstream, hnbits⟩ := ih (by simp only; omega)
    rw [drain, if_pos hge]
    refine ⟨hstream.trans ?_, hnbits⟩
    have hbyte : ((w.acc >>> UInt64.ofNat (w.nbits - 8)) &&& 0xFF).toUInt8.toNat =
        (w.acc.toNat >>> (w.nbits - 8)) % 2 ^ 8 := by
      have hshift : (w.nbits - 8) % 2 ^ 64 % 64 = w.nbits - 8 := by omega
      rw [toNat_low_byte, UInt64.toNat_shiftRight, UInt64.toNat_ofNat', hshift]
    have hsplit : w.nbits = 8 + (w.nbits - 8) := by omega
    simp only [stream, bitsOf_append, bitsOf_cons, hbyte, bits_mod, List.append_assoc]
    congr 1
    rw [hsplit, bits_add, Nat.add_sub_cancel_left]
    rfl
  | case2 w hlt =>
    rw [drain, if_neg hlt]
    exact ⟨rfl, Nat.lt_of_not_le hlt⟩

theorem testBit_append (acc : UInt64) (value : UInt32) {n i : ℕ} (hn : n ≤ 32) (hi : i < 64) :
    ((acc <<< UInt64.ofNat n) ||| (((1 <<< UInt64.ofNat n) - 1) &&& value.toUInt64)).toNat.testBit
      i = if i < n then value.toNat.testBit i else acc.toNat.testBit (i - n) := by
  have hshift : n % 2 ^ 64 % 64 = n := by omega
  have hone : ((1 : UInt64) <<< UInt64.ofNat n).toNat = 2 ^ n := by
    rw [UInt64.toNat_shiftLeft, UInt64.toNat_ofNat', hshift, UInt64.toNat_one, Nat.one_shiftLeft]
    exact Nat.mod_eq_of_lt (Nat.pow_lt_pow_right (by decide) (by omega))
  have hmask : (((1 : UInt64) <<< UInt64.ofNat n) - 1).toNat = 2 ^ n - 1 := by
    rw [UInt64.toNat_sub_of_le, hone, UInt64.toNat_one]
    rw [UInt64.le_iff_toNat_le, hone, UInt64.toNat_one]
    exact Nat.one_le_two_pow
  rw [UInt64.toNat_or, Nat.testBit_or, UInt64.toNat_and, hmask, UInt64.toNat_shiftLeft,
    UInt64.toNat_ofNat', hshift, Nat.testBit_mod_two_pow, Nat.testBit_shiftLeft, Nat.testBit_and,
    Nat.testBit_two_pow_sub_one, UInt32.toNat_toUInt64]
  by_cases hlt : i < n
  · simp [hlt]
  · simp [hlt, hi, Nat.le_of_not_lt hlt]

theorem writeBits_spec (w : BitWriter) (value : UInt32) {n : ℕ} (hw : w.nbits < 8) (hn : n ≤ 32) :
    (w.writeBits value n).stream = w.stream ++ bits n value.toNat ∧
      (w.writeBits value n).nbits < 8 := by
  obtain ⟨hstream, hnbits⟩ := drain_spec { w with
    acc := (w.acc <<< UInt64.ofNat n) ||| (((1 <<< UInt64.ofNat n) - 1) &&& value.toUInt64)
    nbits := w.nbits + n } (by simp only; omega)
  refine ⟨hstream.trans ?_, hnbits⟩
  simp only [stream, bits_add, List.append_assoc]
  congr 2
  · apply bits_congr
    intro i hi
    rw [Nat.testBit_shiftRight, testBit_append w.acc value hn (by omega), if_neg (by omega)]
    congr 1
    omega
  · apply bits_congr
    intro i hi
    rw [testBit_append w.acc value hn (by omega), if_pos hi]

def Holds (w : BitWriter) (bs : List Bool) : Prop := w.stream = bs ∧ w.nbits < 8

theorem holds_init : ({} : BitWriter).Holds [] := ⟨rfl, by decide⟩

theorem Holds.writeBits {w : BitWriter} {bs : List Bool} (h : w.Holds bs) (value : UInt32)
    {n : ℕ} (hn : n ≤ 32 := by decide) :
    (w.writeBits value n).Holds (bs ++ bits n value.toNat) := by
  obtain ⟨hstream, hnbits⟩ := writeBits_spec w value h.2 hn
  exact ⟨by rw [hstream, h.1], hnbits⟩

/-- The buffer holds the stream, with zeros up to the end of its last byte. -/
theorem take_spec (w : BitWriter) (hw : w.nbits < 8) :
    ∃ pad < 8, bitsOf w.take = w.stream ++ List.replicate pad false := by
  rw [take]
  split_ifs with hpos
  · refine ⟨8 - w.nbits, by omega, ?_⟩
    have hbyte : ((w.acc <<< UInt64.ofNat (8 - w.nbits)) &&& 0xFF).toUInt8.toNat =
        (w.acc.toNat <<< (8 - w.nbits)) % 2 ^ 8 := by
      have hshift : (8 - w.nbits) % 2 ^ 64 % 64 = 8 - w.nbits := by omega
      rw [toNat_low_byte, UInt64.toNat_shiftLeft, UInt64.toNat_ofNat', hshift]
      exact Nat.mod_mod_of_dvd _ (by decide)
    have hsplit : 8 = w.nbits + (8 - w.nbits) := by omega
    have hbits : bits 8 (w.acc.toNat <<< (8 - w.nbits)) =
        bits w.nbits w.acc.toNat ++ List.replicate (8 - w.nbits) false := by
      rw [← bits_shiftLeft, ← hsplit]
    simp only [bitsOf_append, bitsOf_cons, hbyte, bits_mod, hbits, stream, List.append_assoc]
    simp only [bitsOf, List.flatMap_nil, List.append_nil]
  · have hzero : w.nbits = 0 := by omega
    refine ⟨0, by omega, ?_⟩
    simp only [stream, hzero, bits, List.replicate_zero, List.append_nil]

end BitWriter

theorem start_le (data : Bytes) : 0 ≤ data.length * 8 := Nat.zero_le _

structure BitReader where
  data : Bytes
  bitpos : ℕ := 0
  ok : Bool := true
  bitpos_le : bitpos ≤ data.length * 8 := by exact start_le _

namespace BitReader

def readLoop (data : Bytes) : ℕ → ℕ → UInt32 → UInt32
  | 0, _, result => result
  | n + 1, bitpos, result =>
    readLoop data n (bitpos + 1) ((result <<< 1) |||
      (((data.getD (bitpos / 8) 0).toUInt32 >>> UInt32.ofNat (7 - bitpos % 8)) &&& 1))

/-- A read past the end leaves the position where it is and latches `ok`. -/
def readBits (r : BitReader) (n : ℕ) : UInt32 × BitReader :=
  if h : r.data.length * 8 < r.bitpos + n then (0, { r with ok := false })
  else (readLoop r.data n r.bitpos 0,
    { r with bitpos := r.bitpos + n, bitpos_le := Nat.le_of_not_lt h })

def rest (r : BitReader) : List Bool := (bitsOf r.data).drop r.bitpos

theorem length_rest (r : BitReader) : r.rest.length = r.data.length * 8 - r.bitpos := by
  rw [rest, List.length_drop, length_bitsOf]
  omega

theorem toNat_readStep (data : Bytes) {bitpos : ℕ} (result : UInt32)
    (hlen : bitpos < (bitsOf data).length) (hresult : result.toNat < 2 ^ 31) :
    ((result <<< 1) |||
      (((data.getD (bitpos / 8) 0).toUInt32 >>> UInt32.ofNat (7 - bitpos % 8)) &&& 1)).toNat =
      valueStep result.toNat (bitsOf data)[bitpos] := by
  have hbyte : bitpos / 8 < data.length := by
    rw [length_bitsOf] at hlen
    omega
  have hshift : (7 - bitpos % 8) % 2 ^ 32 % 32 = 7 - bitpos % 8 := by omega
  have hbit : (((data.getD (bitpos / 8) 0).toUInt32 >>> UInt32.ofNat (7 - bitpos % 8)) &&&
      1).toNat = (bitsOf data)[bitpos].toNat := by
    rw [UInt32.toNat_and, UInt32.toNat_shiftRight, UInt32.toNat_ofNat', hshift,
      UInt8.toNat_toUInt32, UInt32.toNat_one, Nat.and_one_is_mod, bitsOf_getElem hlen hbyte,
      List.getD_eq_getElem _ _ hbyte, Nat.toNat_testBit, Nat.shiftRight_eq_div_pow]
  have hdouble : (result <<< 1).toNat = 2 ^ 1 * result.toNat := by
    have hone : (1 : UInt32).toNat % 32 = 1 := rfl
    rw [UInt32.toNat_shiftLeft, hone, Nat.shiftLeft_eq, Nat.mul_comm]
    exact Nat.mod_eq_of_lt (by omega)
  rw [UInt32.toNat_or, hdouble, hbit, ← Nat.two_pow_add_eq_or_of_lt (Bool.toNat_lt _), valueStep,
    pow_one]

theorem toNat_readLoop (data : Bytes) (n bitpos : ℕ) (result : UInt32)
    (hlen : bitpos + n ≤ (bitsOf data).length) (hresult : (result.toNat + 1) * 2 ^ n ≤ 2 ^ 32) :
    (readLoop data n bitpos result).toNat =
      (((bitsOf data).drop bitpos).take n).foldl valueStep result.toNat := by
  induction n generalizing bitpos result with
  | zero => rfl
  | succ n ih =>
    have hpos : bitpos < (bitsOf data).length := by omega
    have hpow := Nat.one_le_two_pow (n := n)
    rw [pow_succ, ← Nat.mul_assoc] at hresult
    have hsmall : result.toNat < 2 ^ 31 := by
      have hle := Nat.le_mul_of_pos_right (result.toNat + 1) hpow
      omega
    have hstep := toNat_readStep data result hpos hsmall
    have hbit := Bool.toNat_lt (bitsOf data)[bitpos]
    have hnext : (valueStep result.toNat (bitsOf data)[bitpos] + 1) * 2 ^ n ≤ 2 ^ 32 := by
      have hle : valueStep result.toNat (bitsOf data)[bitpos] + 1 ≤ 2 * (result.toNat + 1) := by
        rw [valueStep]
        omega
      calc (valueStep result.toNat (bitsOf data)[bitpos] + 1) * 2 ^ n
          ≤ 2 * (result.toNat + 1) * 2 ^ n := Nat.mul_le_mul_right _ hle
        _ = (result.toNat + 1) * 2 ^ n * 2 := by ring
        _ ≤ 2 ^ 32 := hresult
    rw [List.drop_eq_getElem_cons hpos, List.take_succ_cons, List.foldl_cons, readLoop,
      ih _ _ (by omega) (by rw [hstep]; exact hnext), hstep]

theorem toNat_readBits {r : BitReader} {n : ℕ} (hfits : r.bitpos + n ≤ r.data.length * 8)
    (hn : n ≤ 32 := by decide) : (r.readBits n).1.toNat = field r.data r.bitpos n := by
  have hpow : (0 + 1) * 2 ^ n ≤ 2 ^ 32 := by
    rw [Nat.zero_add, Nat.one_mul]
    exact Nat.pow_le_pow_right (by decide) hn
  rw [BitReader.readBits, dif_neg (Nat.not_lt.mpr hfits)]
  exact toNat_readLoop r.data n r.bitpos 0 (by rw [length_bitsOf]; omega) hpow

def Ahead (r : BitReader) (bs : List Bool) : Prop := r.rest = bs ∧ r.ok = true

theorem Ahead.readBits {r : BitReader} {n v : ℕ} {tail : List Bool}
    (h : r.Ahead (bits n v ++ tail)) (hn : n ≤ 32 := by decide) :
    (r.readBits n).1.toNat = v % 2 ^ n ∧ (r.readBits n).2.Ahead tail := by
  obtain ⟨hrest, hok⟩ := h
  have hlen := congrArg List.length hrest
  rw [length_rest, List.length_append, length_bits] at hlen
  have hpos := r.bitpos_le
  have hfits : r.bitpos + n ≤ r.data.length * 8 := by omega
  rw [rest] at hrest
  constructor
  · rw [toNat_readBits hfits hn, field, hrest, List.take_left' (length_bits n v)]
    exact valueOf_bits n v
  · rw [BitReader.readBits, dif_neg (Nat.not_lt.mpr hfits)]
    refine ⟨?_, hok⟩
    rw [rest]
    simp only
    rw [← List.drop_drop, hrest, List.drop_left' (length_bits n v)]

end BitReader

def BitWriter.writeAll (w : BitWriter) (fields : List (UInt32 × ℕ)) : BitWriter :=
  fields.foldl (fun w f => w.writeBits f.1 f.2) w

def BitReader.readAll (r : BitReader) : List ℕ → List UInt32 × BitReader
  | [] => ([], r)
  | n :: ns =>
    let value := r.readBits n
    let values := value.2.readAll ns
    (value.1 :: values.1, values.2)

def fieldBits (fields : List (UInt32 × ℕ)) : List Bool :=
  fields.flatMap fun f => bits f.2 f.1.toNat

variable {fields : List (UInt32 × ℕ)}

theorem length_fieldBits (fields : List (UInt32 × ℕ)) :
    (fieldBits fields).length = (fields.map Prod.snd).sum := by
  simp only [fieldBits, List.length_flatMap, length_bits]

theorem BitWriter.Holds.writeAll {w : BitWriter} {bs : List Bool} (h : w.Holds bs)
    (hwidths : ∀ f ∈ fields, f.2 ≤ 32) : (w.writeAll fields).Holds (bs ++ fieldBits fields) := by
  induction fields generalizing w bs with
  | nil => exact (List.append_nil bs).symm ▸ h
  | cons f fields ih =>
    obtain ⟨hwidth, hrest⟩ := List.forall_mem_cons.mp hwidths
    have hall := ih (h.writeBits f.1 hwidth) hrest
    rw [List.append_assoc] at hall
    exact hall

theorem BitReader.Ahead.readAll {r : BitReader} {tail : List Bool}
    (h : r.Ahead (fieldBits fields ++ tail)) (hwidths : ∀ f ∈ fields, f.2 ≤ 32) :
    (r.readAll (fields.map Prod.snd)).1.map UInt32.toNat =
        fields.map (fun f => f.1.toNat % 2 ^ f.2) ∧
      (r.readAll (fields.map Prod.snd)).2.Ahead tail := by
  induction fields generalizing r with
  | nil => exact ⟨rfl, h⟩
  | cons f fields ih =>
    obtain ⟨hwidth, hrest⟩ := List.forall_mem_cons.mp hwidths
    rw [fieldBits, List.flatMap_cons, List.append_assoc] at h
    obtain ⟨hvalue, hahead⟩ := h.readBits hwidth
    obtain ⟨hvalues, htail⟩ := ih hahead hrest
    refine ⟨?_, htail⟩
    rw [List.map_cons, List.map_cons, BitReader.readAll, List.map_cons, hvalue, hvalues]

theorem BitReader.ok_readAll {r : BitReader} (hfailed : r.ok = false) (ns : List ℕ) :
    (r.readAll ns).2.ok = false := by
  induction ns generalizing r with
  | nil => exact hfailed
  | cons n ns ih =>
    apply ih
    rw [BitReader.readBits]
    split_ifs
    · rfl
    · exact hfailed

/-- The buffer is what was written, filled up with zeros to a whole byte, and is read back
field by field; a read past the end is never forgotten. -/
theorem bitstream_codec :
    (∀ fields : List (UInt32 × ℕ), (∀ f ∈ fields, f.2 ≤ 32) →
      let buffer := (BitWriter.writeAll {} fields).take
      let read := BitReader.readAll { data := buffer } (fields.map Prod.snd)
      buffer.length = ((fields.map Prod.snd).sum + 7) / 8 ∧
      (∃ pad, bitsOf buffer = fieldBits fields ++ List.replicate pad false) ∧
      read.1.map UInt32.toNat = fields.map (fun f => f.1.toNat % 2 ^ f.2) ∧
      read.2.ok = true) ∧
    ∀ (r : BitReader) (n : ℕ) (ns : List ℕ), r.data.length * 8 < r.bitpos + n →
      ((r.readBits n).2.readAll ns).2.ok = false := by
  constructor
  · intro fields hwidths
    obtain ⟨hstream, hnbits⟩ := BitWriter.holds_init.writeAll hwidths
    obtain ⟨pad, hpad, hbits⟩ := BitWriter.take_spec _ hnbits
    rw [hstream, List.nil_append] at hbits
    have hlen := congrArg List.length hbits
    rw [length_bitsOf, List.length_append, length_fieldBits, List.length_replicate] at hlen
    have hahead : BitReader.Ahead { data := (BitWriter.writeAll {} fields).take }
        (fieldBits fields ++ List.replicate pad false) := ⟨hbits, rfl⟩
    obtain ⟨hvalues, -, hok⟩ := hahead.readAll hwidths
    exact ⟨by omega, ⟨pad, hbits⟩, hvalues, hok⟩
  · intro r n ns hpast
    apply BitReader.ok_readAll
    rw [BitReader.readBits, dif_pos hpast]

theorem bitstream_codec_sixFields :
    let buffer := (BitWriter.writeAll {}
      [(1, 1), (5, 3), (0x2A, 6), (0xBEEF, 16), (0, 0), (7, 2)]).take
    buffer.length = 4 ∧
    (BitReader.readAll { data := buffer } [1, 3, 6, 16, 0, 2]).1.map UInt32.toNat =
      [1, 5, 0x2A, 0xBEEF, 0, 3] := by
  have hspec := bitstream_codec.1 [(1, 1), (5, 3), (0x2A, 6), (0xBEEF, 16), (0, 0), (7, 2)]
    (by decide)
  exact ⟨hspec.1, hspec.2.2.1⟩

end Netcode.Sim
