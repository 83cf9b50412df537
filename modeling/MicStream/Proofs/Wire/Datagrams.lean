import Mathlib.Algebra.Order.Ring.Nat
import Mathlib.Data.List.Induction
import MicStream.Wire.Datagram
/-!
# Packets and datagrams correspond

Fields of fixed width, each with the most significant byte first, and behind
them the payload up to the end: a reader that knows the widths alone finds
every packet again, and nothing but the packet decides the bytes.

Results:
* `ofBigEndian_bigEndian`, `bigEndian_ofBigEndian`: numbers that fit a width and byte strings of
  that width correspond.
* `ofDatagram?_datagram`, `datagram_of_fields`: reading what was written, and writing what was
  read.
* `datagrams_correspond`: packets and byte strings that hold a head correspond one to one.
-/
namespace MicStream

/-! ## Numbers -/

theorem ofBigEndian_concat (bs : List UInt8) (b : UInt8) :
    ofBigEndian (bs ++ [b]) = ofBigEndian bs * 256 + b.toNat := by
  simp [ofBigEndian]

theorem ofBigEndian_lt (bs : List UInt8) : ofBigEndian bs < 256 ^ bs.length := by
  induction bs using List.reverseRecOn with
  | nil => simp [ofBigEndian]
  | append_singleton bs b ih =>
    have hb := b.toNat_lt
    rw [ofBigEndian_concat, List.length_append, List.length_singleton, Nat.pow_succ]
    omega

/-- A number that fits the width is read back. -/
theorem ofBigEndian_bigEndian {width n : Nat} (h : n < 256 ^ width) :
    ofBigEndian (bigEndian width n) = n := by
  induction width generalizing n with
  | zero =>
    have : n = 0 := by simpa using h
    rw [this]; rfl
  | succ width ih =>
    have hq : n / 256 < 256 ^ width := by
      rw [Nat.pow_succ] at h
      omega
    rw [bigEndian, ofBigEndian_concat, ih hq, UInt8.toNat_ofNat']
    omega

/-- Bytes are written again as they were read. -/
theorem bigEndian_ofBigEndian (bs : List UInt8) : bigEndian bs.length (ofBigEndian bs) = bs := by
  induction bs using List.reverseRecOn with
  | nil => rfl
  | append_singleton bs b ih =>
    have hb := b.toNat_lt
    have hdiv : (ofBigEndian bs * 256 + b.toNat) / 256 = ofBigEndian bs := by omega
    have hmod : (ofBigEndian bs * 256 + b.toNat) % 256 = b.toNat := by omega
    rw [List.length_append, List.length_singleton, bigEndian, ofBigEndian_concat, hdiv, hmod, ih,
      UInt8.ofNat_toNat]

namespace Packet

/-! ## Fields -/

/-- The fields of `p` stand in `bs` in their places, each as wide as it is. -/
structure Fields (bs : List UInt8) (p : Packet) : Prop where
  headLength_le : headLength ≤ bs.length
  seq : p.seq.toNat = ofBigEndian (bs.take 4)
  ptsMs : p.ptsMs.toNat = ofBigEndian ((bs.drop 4).take 8)
  frameCount : p.frameCount.toNat = ofBigEndian ((bs.drop 12).take 2)
  payload : p.payload = bs.drop headLength

theorem parts_eq {a b c d : List UInt8} (ha : a.length = 4) (hb : b.length = 8)
    (hc : c.length = 2) :
    (a ++ b ++ c ++ d).take 4 = a ∧ ((a ++ b ++ c ++ d).drop 4).take 8 = b ∧
      ((a ++ b ++ c ++ d).drop 12).take 2 = c ∧ (a ++ b ++ c ++ d).drop headLength = d := by
  have h4 : (a ++ b ++ c ++ d).drop 4 = b ++ c ++ d := by
    simp only [List.append_assoc]
    exact List.drop_left' ha
  have h12 : (a ++ b ++ c ++ d).drop 12 = c ++ d := by
    rw [List.append_assoc (a ++ b)]
    exact List.drop_left' (by rw [List.length_append, ha, hb])
  have h14 : (a ++ b ++ c ++ d).drop headLength = d :=
    List.drop_left' (by rw [List.length_append, List.length_append, ha, hb, hc]; rfl)
  refine ⟨?_, ?_, ?_, h14⟩
  · simp only [List.append_assoc]
    exact List.take_left' ha
  · rw [h4, List.append_assoc]
    exact List.take_left' hb
  · rw [h12]
    exact List.take_left' hc

theorem fields_datagram (p : Packet) : Fields p.datagram p := by
  obtain ⟨h1, h2, h3, h4⟩ := parts_eq (d := p.payload) (bigEndian_length 4 p.seq.toNat)
    (bigEndian_length 8 p.ptsMs.toNat) (bigEndian_length 2 p.frameCount.toNat)
  refine ⟨?_, ?_, ?_, ?_, h4.symm⟩
  · rw [datagram_length]; omega
  · rw [datagram, h1]
    exact (ofBigEndian_bigEndian p.seq.toNat_lt).symm
  · rw [datagram, h2]
    exact (ofBigEndian_bigEndian p.ptsMs.toNat_lt).symm
  · rw [datagram, h3]
    exact (ofBigEndian_bigEndian p.frameCount.toNat_lt).symm

theorem datagram_of_fields {bs : List UInt8} {p : Packet} (h : Fields bs p) : p.datagram = bs := by
  have hlen := h.headLength_le
  simp only [headLength] at hlen
  have hseq : bigEndian 4 p.seq.toNat = bs.take 4 := by
    have := bigEndian_ofBigEndian (bs.take 4)
    rwa [← h.seq, List.length_take, Nat.min_eq_left (by omega)] at this
  have hpts : bigEndian 8 p.ptsMs.toNat = (bs.drop 4).take 8 := by
    have := bigEndian_ofBigEndian ((bs.drop 4).take 8)
    rwa [← h.ptsMs, List.length_take, List.length_drop, Nat.min_eq_left (by omega)] at this
  have hcount : bigEndian 2 p.frameCount.toNat = (bs.drop 12).take 2 := by
    have := bigEndian_ofBigEndian ((bs.drop 12).take 2)
    rwa [← h.frameCount, List.length_take, List.length_drop, Nat.min_eq_left (by omega)] at this
  have h12 : bs.drop 12 = (bs.drop 4).drop 8 := by rw [List.drop_drop]
  have h14 : bs.drop headLength = (bs.drop 12).drop 2 := by rw [List.drop_drop, headLength]
  calc p.datagram
      = bs.take 4 ++ (bs.drop 4).take 8 ++ (bs.drop 12).take 2 ++ bs.drop headLength := by
        rw [datagram, hseq, hpts, hcount, h.payload]
    _ = bs.take 4 ++ ((bs.drop 4).take 8 ++ ((bs.drop 12).take 2 ++ (bs.drop 12).drop 2)) := by
        rw [h14, List.append_assoc, List.append_assoc]
    _ = bs.take 4 ++ ((bs.drop 4).take 8 ++ (bs.drop 4).drop 8) := by
        rw [List.take_append_drop, h12]
    _ = bs := by rw [List.take_append_drop, List.take_append_drop]

/-- The fields are read in full: none is wider than its type. -/
theorem fields_of_ofDatagram? {bs : List UInt8} {p : Packet} (h : ofDatagram? bs = some p) :
    Fields bs p := by
  have hlt : ∀ (width : Nat) (cs : List UInt8), cs.length ≤ width →
      ofBigEndian cs < 256 ^ width := fun width cs hc =>
    Nat.lt_of_lt_of_le (ofBigEndian_lt cs) (Nat.pow_le_pow_right (by decide) hc)
  unfold ofDatagram? at h
  split at h
  · cases h
  · rename_i hlen
    cases h
    refine ⟨Nat.le_of_not_lt hlen, ?_, ?_, ?_, rfl⟩
    · rw [UInt32.toNat_ofNat']
      exact Nat.mod_eq_of_lt (hlt 4 _ (List.length_take_le _ _))
    · rw [UInt64.toNat_ofNat']
      exact Nat.mod_eq_of_lt (hlt 8 _ (List.length_take_le _ _))
    · rw [UInt16.toNat_ofNat']
      exact Nat.mod_eq_of_lt (hlt 2 _ (List.length_take_le _ _))

theorem Fields.unique {bs : List UInt8} {p q : Packet} (hp : Fields bs p) (hq : Fields bs q) :
    p = q := by
  cases p
  cases q
  simp only [Packet.mk.injEq, ← UInt32.toNat_inj, ← UInt64.toNat_inj, ← UInt16.toNat_inj]
  exact ⟨hp.seq.trans hq.seq.symm, hp.ptsMs.trans hq.ptsMs.symm,
    hp.frameCount.trans hq.frameCount.symm, hp.payload.trans hq.payload.symm⟩

theorem exists_ofDatagram? {bs : List UInt8} (h : headLength ≤ bs.length) :
    ∃ p, ofDatagram? bs = some p :=
  ⟨_, if_neg (Nat.not_lt_of_le h)⟩

theorem ofDatagram?_datagram (p : Packet) : ofDatagram? p.datagram = some p := by
  obtain ⟨q, hq⟩ := exists_ofDatagram? p.fields_datagram.headLength_le
  rw [hq, (fields_of_ofDatagram? hq).unique p.fields_datagram]

/-! ## The correspondence -/

/-- A datagram with the fact that it holds a head. -/
def headed (p : Packet) : { bs : List UInt8 // headLength ≤ bs.length } :=
  ⟨p.datagram, p.fields_datagram.headLength_le⟩

/-- Packets and byte strings of at least 14 bytes correspond one to one. The reader takes a number
of four bytes, one of eight and one of two, the most significant byte first, and the payload up to
the end; it finds each packet again from its datagram, reads every string that is long enough and
no other, and what it reads is written as the string that it read. -/
theorem datagrams_correspond :
    Function.Bijective headed ∧
    (∀ p : Packet, ofDatagram? p.datagram = some p ∧ p.datagram.length = 14 + p.payload.length) ∧
    (∀ bs : List UInt8, 14 ≤ bs.length → ∃ p, ofDatagram? bs = some p ∧ p.datagram = bs) ∧
    (∀ (bs : List UInt8) (p : Packet), ofDatagram? bs = some p → 14 ≤ bs.length ∧
      p.seq.toNat = ofBigEndian (bs.take 4) ∧ p.ptsMs.toNat = ofBigEndian ((bs.drop 4).take 8) ∧
      p.frameCount.toNat = ofBigEndian ((bs.drop 12).take 2) ∧ p.payload = bs.drop 14) := by
  refine ⟨⟨fun p q h => ?_, fun ⟨bs, hbs⟩ => ?_⟩,
    fun p => ⟨p.ofDatagram?_datagram, p.datagram_length⟩, fun bs hbs => ?_, fun bs p h => ?_⟩
  · have := congrArg ofDatagram? (Subtype.mk.inj h)
    rwa [ofDatagram?_datagram, ofDatagram?_datagram, Option.some.injEq] at this
  · obtain ⟨p, hp⟩ := exists_ofDatagram? hbs
    exact ⟨p, Subtype.ext (datagram_of_fields (fields_of_ofDatagram? hp))⟩
  · obtain ⟨p, hp⟩ := exists_ofDatagram? hbs
    exact ⟨p, hp, datagram_of_fields (fields_of_ofDatagram? hp)⟩
  · obtain ⟨hlen, hseq, hpts, hcount, hpayload⟩ := fields_of_ofDatagram? h
    exact ⟨hlen, hseq, hpts, hcount, hpayload⟩

/-- Each byte in its place: no two of them are alike. -/
theorem datagrams_correspond_sample :
    (⟨0x01020304, 0x05060708090A0B0C, 0x0D0E, [0x0F]⟩ : Packet).datagram =
      [1, 2, 3, 4, 5, 6, 7, 8, 9, 10, 11, 12, 13, 14, 15] ∧
    ofDatagram? [1, 2, 3, 4, 5, 6, 7, 8, 9, 10, 11, 12, 13, 14, 15] =
      some ⟨0x01020304, 0x05060708090A0B0C, 0x0D0E, [0x0F]⟩ := by
  have hwritten : (⟨0x01020304, 0x05060708090A0B0C, 0x0D0E, [0x0F]⟩ : Packet).datagram =
      [1, 2, 3, 4, 5, 6, 7, 8, 9, 10, 11, 12, 13, 14, 15] := by decide
  refine ⟨hwritten, ?_⟩
  rw [← hwritten]
  exact (datagrams_correspond.2.1 _).1

end Packet

end MicStream
