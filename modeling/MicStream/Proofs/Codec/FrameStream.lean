import MicStream.Proofs.Codec.Encoding
import MicStream.Recorder
/-!
# A recorded stream can be cut into its frames

A header spreads the channel count over two bytes and the length over three.
Read back, its fields are what they were written from, as long as the length
fits its thirteen bits; the raw buffer of the encoder sees to that. So a
reader that goes from header to header finds the frames of a recording.

Results:
* `ofBytes_header`: the fields of a header.
* `frames_flatten`: frames in a row are found by their lengths.
* `Recorder.contents_record`: a medium that is not full loses nothing.
* `frames_of_recording`: a recording of the outputs of an encoder is read back
  as these outputs.
-/
namespace MicStream

/-! ## Headers -/

namespace Adts

/-- The fields of a frame of `length` bytes, header included. -/
def fields (length : Nat) (rate channels : UInt32) : Header where
  sync := 0xFFF
  version := 0
  layer := 0
  unprotected := 1
  profile := 1
  rateIndex := ofRate rate
  channels := channels.toNat
  frameLength := length
  fullness := 0x7FF
  extraBlocks := 0

/-- The index of a rate finds the rate in the table, or 48 kHz for a rate that is not there. -/
theorem rates_ofRate (rate : UInt32) :
    rates[ofRate rate]? = some (if rate ∈ rates then rate else 48000) := by
  unfold ofRate
  cases h : rates.findIdx? (· == rate) with
  | none =>
    have hn : rate ∉ rates := fun hm => by
      have := List.findIdx?_eq_none_iff.1 h rate hm
      simp at this
    rw [if_neg hn]
    rfl
  | some i =>
    obtain ⟨hi, heq, -⟩ := List.findIdx?_eq_some_iff_getElem.1 h
    have heq : rates[i] = rate := by simpa using heq
    rw [Option.getD_some, List.getElem?_eq_getElem hi, heq, if_pos (heq ▸ List.getElem_mem hi)]

/-- A header is read back as it was written if its length fits thirteen bits. -/
theorem ofBytes_header {n : Nat} {rate channels : UInt32} (hn : n + headerLength < 8192)
    (hc : channels ≤ 7) (rest : List UInt8) :
    Header.ofBytes? (header n rate channels ++ rest) =
      some (fields (n + headerLength) rate channels) := by
  have hr := ofRate_lt rate
  have hc : channels.toNat ≤ 7 := hc
  simp only [header, headerLength, List.cons_append, List.nil_append, Header.ofBytes?, fields,
    Option.some.injEq, Header.mk.injEq, UInt8.toNat_ofNat'] at hn ⊢
  refine ⟨by decide, by decide, by decide, by decide, ?_, ?_, ?_, ?_, ?_, by decide⟩
  · omega
  · omega
  · omega
  · omega
  · show (_ % 2 ^ 8 % 32) * 64 + (0xFC : UInt8).toNat / 4 = 2047
    have : (0xFC : UInt8).toNat = 252 := rfl
    omega

/-! ## Frames in a row -/

/-- A frame tells its own length. -/
def Framed (f : List UInt8) : Prop :=
  headerLength ≤ f.length ∧
    ∀ rest, (Header.ofBytes? (f ++ rest)).map Header.frameLength = some f.length

theorem splitFrames_flatten : ∀ {fs : List (List UInt8)} {fuel : Nat}, (∀ f ∈ fs, Framed f) →
    fs.length ≤ fuel → splitFrames? fuel fs.flatten = some fs
  | [], fuel, _, _ => by cases fuel <;> rfl
  | f :: fs, 0, _, hfuel => by simp at hfuel
  | f :: fs, fuel + 1, h, hfuel => by
    obtain ⟨hlen, hread⟩ := h f (List.mem_cons_self ..)
    have ih : splitFrames? fuel fs.flatten = some fs :=
      splitFrames_flatten (fun g hg => h g (List.mem_cons_of_mem _ hg)) (by simpa using hfuel)
    obtain ⟨hd, hhd, hl⟩ := Option.map_eq_some_iff.1 (hread fs.flatten)
    have hcons : f ≠ [] := fun e => by rw [e] at hlen; exact absurd hlen (by decide)
    obtain ⟨b, bs, rfl⟩ := List.exists_cons_of_ne_nil hcons
    rw [List.flatten_cons, List.cons_append, splitFrames?, ← List.cons_append, hhd,
      Option.bind_some, hl, if_neg, List.drop_left, List.take_left, ih]
    · rfl
    · simp only [List.length_append]
      omega
    · nofun

/-- Frames in a row are found again, and nothing is left over. -/
theorem frames_flatten {fs : List (List UInt8)} (h : ∀ f ∈ fs, Framed f) :
    frames? fs.flatten = some fs := by
  apply splitFrames_flatten h
  induction fs with
  | nil => exact Nat.le_refl 0
  | cons f fs ih =>
    have hf := (h f (List.mem_cons_self ..)).1
    have := ih fun g hg => h g (List.mem_cons_of_mem _ hg)
    simp only [headerLength, List.flatten_cons, List.length_append, List.length_cons] at hf ⊢
    omega

end Adts

/-! ## Recording -/

namespace Recorder

def bytes (r : Recorder) : List UInt8 := r.stored ++ r.buffer

theorem flush?_of_not_full {r : Recorder} (h : r.full = false) :
    ∃ r', r.flush? = some r' ∧ r'.full = false ∧ r'.frames = r.frames ∧ r'.bytes = r.bytes ∧
      r'.buffer = [] := by
  unfold flush?
  by_cases hb : r.buffer = []
  · exact ⟨r, by simp [hb], h, rfl, rfl, hb⟩
  · exact ⟨{ r with stored := r.stored ++ r.buffer, buffer := [] }, by simp [hb, h], h, rfl,
      by simp [bytes], rfl⟩

/-- A medium that is not full takes everything, in order. -/
theorem append_of_not_full {r : Recorder} (h : r.full = false) (bs : List UInt8) :
    ∃ r', r.append bs = (r', true) ∧ r'.full = false ∧ r'.frames = r.frames ∧
      r'.bytes = r.bytes ++ bs := by
  by_cases hroom : bs.length < r.room
  · exact ⟨_, append_of_room hroom, h, rfl, by simp [bytes]⟩
  -- What is kept back when the bytes go past the buffer: nothing, if there are that many.
  have hkept : ∃ r₁, (if r.room < bs.length then r.flush? else some r) = some r₁ ∧
      r₁.full = false ∧ r₁.frames = r.frames ∧ r₁.bytes = r.bytes ∧
      (bufferSize ≤ bs.length → r₁.buffer = []) := by
    by_cases hlt : r.room < bs.length
    · obtain ⟨r₁, h1, h2, h3, h4, h5⟩ := flush?_of_not_full h
      exact ⟨r₁, by rw [if_pos hlt]; exact h1, h2, h3, h4, fun _ => h5⟩
    · refine ⟨r, by rw [if_neg hlt], h, rfl, rfl, fun hbig => ?_⟩
      simp only [room, bufferSize] at hroom hlt hbig
      exact List.eq_nil_of_length_eq_zero (by omega)
  obtain ⟨r₁, h1, h2, h3, h4, h5⟩ := hkept
  simp only [append, if_neg hroom, h1]
  by_cases hsmall : bs.length < bufferSize
  · refine ⟨{ r₁ with buffer := r₁.buffer ++ bs }, by rw [if_pos hsmall], h2, h3, ?_⟩
    rw [← h4]; simp [bytes]
  · have hnil := h5 (Nat.le_of_not_lt hsmall)
    refine ⟨{ r₁ with stored := r₁.stored ++ bs }, ?_, h2, h3, ?_⟩
    · rw [if_neg hsmall, if_neg (by simp [h2])]
    · rw [← h4]; simp [bytes, hnil]

theorem record_of_not_full {r : Recorder} (h : r.full = false) (p : Packet) :
    (r.record p).full = false ∧ (r.record p).frames = r.frames + 1 ∧
      (r.record p).bytes = r.bytes ++ p.payload := by
  obtain ⟨r', h1, h2, h3, h4⟩ := append_of_not_full h p.payload
  unfold record
  rw [h1]
  exact ⟨h2, by rw [← h3], h4⟩

theorem record_all : ∀ (ps : List Packet) {r : Recorder}, r.full = false →
    (ps.foldl record r).full = false ∧ (ps.foldl record r).frames = r.frames + ps.length ∧
      (ps.foldl record r).bytes = r.bytes ++ (ps.map Packet.payload).flatten
  | [], r, h => ⟨h, rfl, (List.append_nil _).symm⟩
  | p :: ps, r, h => by
    obtain ⟨h1, h2, h3⟩ := record_of_not_full h p
    obtain ⟨i1, i2, i3⟩ := record_all ps h1
    refine ⟨i1, ?_, ?_⟩
    · rw [List.foldl_cons, i2, h2, List.length_cons]; omega
    · rw [List.foldl_cons, i3, h3]; simp

theorem contents_of_not_full {r : Recorder} (h : r.full = false) : r.contents = r.bytes := by
  obtain ⟨r', h1, -, -, h4, h5⟩ := flush?_of_not_full h
  rw [contents, flush, h1, Option.getD_some, ← h4, bytes, h5, List.append_nil]

/-- The packets of a recording, one behind the other, are the contents of the file. -/
theorem contents_record (ps : List Packet) :
    (ps.foldl record (create false)).contents = (ps.map Packet.payload).flatten ∧
      (ps.foldl record (create false)).frames = ps.length := by
  obtain ⟨h1, h2, h3⟩ := record_all ps (r := create false) rfl
  exact ⟨by rw [contents_of_not_full h1, h3]; rfl, by rw [h2, create, Nat.zero_add]⟩

end Recorder

/-! ## From the encoder to the reader -/

namespace Encoder

/-- A frame of the encoder tells its parameters, and its length without loss. -/
theorem fields_of_out {n : Nat} {rate channels : UInt32} {raw out : List UInt8}
    (hn : n ≤ capacity) (hc : channels ≤ 7) (hraw : raw.length = capacity)
    (hout : out = Adts.header n rate channels ++ raw.take n) :
    out.length = n + Adts.headerLength ∧ out.drop Adts.headerLength = raw.take n ∧
      ∀ rest, Adts.Header.ofBytes? (out ++ rest) = some (Adts.fields out.length rate channels) := by
  have hh := Adts.header_length n rate channels
  have hl : out.length = n + Adts.headerLength := by
    rw [hout, List.length_append, hh, List.length_take, hraw, Nat.min_eq_left hn, Nat.add_comm]
  refine ⟨hl, ?_, ?_⟩
  · rw [hout, ← hh, List.drop_left]
  · intro rest
    rw [hl, hout, List.append_assoc]
    refine Adts.ofBytes_header ?_ hc _
    simp only [capacity, Adts.headerLength] at hn ⊢
    omega

/-- The outputs of an encoder that are not empty, recorded as packets to a new file, are what a
reader cuts the file into. Each frame tells the parameters that the encoder was opened with, and
carries the bytes that the codec claimed. -/
theorem frames_of_recording {e₀ e : Encoder} {p : CodecParams} {answer : Except String Nat}
    (hreached : e₀.Reached) (hinit : e₀.init p answer = (e, .ok ())) (hch : p.channels ≤ 7)
    (row : List (CodecReply × List UInt8)) (packets : List Packet)
    (hp : packets.map Packet.payload = ((e.calls row).map Call.out).filter (· ≠ [])) :
    Adts.frames? (packets.foldl Recorder.record (.create false)).contents =
        some (((e.calls row).map Call.out).filter (· ≠ [])) ∧
      (packets.foldl Recorder.record (.create false)).frames =
        (((e.calls row).map Call.out).filter (· ≠ [])).length ∧
      Adts.rates[Adts.ofRate p.sampleRate]? =
        some (if p.sampleRate ∈ Adts.rates then p.sampleRate else 48000) ∧
      ∀ c ∈ e.calls row, c.out ≠ [] → ∃ n, c.reply.claimed = .ok n ∧
        c.out.length = n + Adts.headerLength ∧
        c.out.drop Adts.headerLength = c.encoder.rawBuffer.take n ∧
        Adts.Header.ofBytes? c.out = some
          { sync := 0xFFF, version := 0, layer := 0, unprotected := 1, profile := 1
            rateIndex := Adts.ofRate p.sampleRate, channels := p.channels.toNat
            frameLength := c.out.length, fullness := 0x7FF, extraBlocks := 0 } := by
  have hready := ready_of_init hreached.length_rawBuffer hinit
  obtain ⟨hrate, hchannels⟩ := params_of_init hinit
  have hcall : ∀ c ∈ e.calls row, c.out ≠ [] → ∃ n, c.reply.claimed = .ok n ∧
      c.out.length = n + Adts.headerLength ∧
      c.out.drop Adts.headerLength = c.encoder.rawBuffer.take n ∧
      ∀ rest, Adts.Header.ofBytes? (c.out ++ rest) =
        some (Adts.fields c.out.length p.sampleRate p.channels) := by
    intro c hc hne
    obtain ⟨n, hclaim, -, hn, hraw, hout⟩ := hready.out_of_call hc hne
    rw [hrate, hchannels] at hout
    exact ⟨n, hclaim, fields_of_out hn hch hraw hout⟩
  have hframed : ∀ f ∈ ((e.calls row).map Call.out).filter (· ≠ []), Adts.Framed f := by
    intro f hf
    obtain ⟨hf, hne⟩ := List.mem_filter.1 hf
    obtain ⟨c, hc, rfl⟩ := List.mem_map.1 hf
    obtain ⟨n, -, hl, -, hread⟩ := hcall c hc (by simpa using hne)
    refine ⟨by omega, fun rest => ?_⟩
    rw [hread rest]
    rfl
  obtain ⟨hcontents, hframes⟩ := Recorder.contents_record packets
  refine ⟨?_, ?_, Adts.rates_ofRate _, ?_⟩
  · rw [hcontents, hp, Adts.frames_flatten hframed]
  · rw [hframes, ← hp, List.length_map]
  · intro c hc hne
    obtain ⟨n, hclaim, hl, hdrop, hread⟩ := hcall c hc hne
    have := hread []
    rw [List.append_nil] at this
    exact ⟨n, hclaim, hl, hdrop, this⟩

/-- Two packets of a codec that held one block back, with six channels. -/
def samplePackets : List Packet :=
  [⟨0, 0, 1, [0xFF, 0xF1, 0x61, 0x80, 0x01, 0x3F, 0xFC, 5, 6]⟩,
    ⟨1, 20, 1, [0xFF, 0xF1, 0x61, 0x80, 0x01, 0x5F, 0xFC, 7, 6, 0]⟩]

theorem frames_of_recording_sample : ∃ e,
    Encoder.new.init ⟨16000, 6, 64000, 2⟩ (.ok 1024) = (e, .ok ()) ∧
      Adts.frames? (samplePackets.foldl Recorder.record (.create false)).contents =
        some (((e.calls [(⟨[5, 6], .ok 2⟩, []), (⟨[], .ok 0⟩, [1]), (⟨[7], .ok 3⟩, [])]).map
          Call.out).filter (· ≠ [])) := by
  have hinit : Encoder.new.init ⟨16000, 6, 64000, 2⟩ (.ok 1024) =
      (⟨true, 1024, 16000, 6, List.replicate capacity 0⟩, .ok ()) := rfl
  refine ⟨_, hinit, ?_⟩
  exact (frames_of_recording .new hinit (by decide) _ samplePackets (by decide +kernel)).1

end Encoder

end MicStream
