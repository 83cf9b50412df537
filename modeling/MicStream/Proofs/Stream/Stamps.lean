import Mathlib.Algebra.Order.Field.Rat
import Mathlib.Data.Nat.Cast.Order.Field
import Mathlib.Tactic.NormNum
import MicStream.Proofs.Stream.Cutting
/-!
# Numbers and time stamps of packets

The clock of a stream advances in two ways: a packet moves the sequence
number, a block moves the time. A codec that holds blocks back yields packets
for some blocks only, so the two counts part; each packet still tells how many
packets were before it and how many blocks. The time is divided out once for
each packet, from the count of all blocks, so what is lost in one rounding
does not add up.

Results:
* `getElem?_packets`: packet `k` of a clock, from the block it came of.
* `stamped_packets`: what a clock that begins stamps on its packets.
* `packets_stamped`: all of this for the loop over any frames, and for every
  run of a session.
-/
namespace MicStream

namespace Encoder

/-! ## What the codec answers and what the encoder leaves -/

theorem length_outputs (codec : Codec) : ∀ (bs : List (List Int16)) (e : Encoder)
    (given : List (List Int16)), (e.outputs codec given bs).length = bs.length
  | [], _, _ => rfl
  | b :: bs, e, given => by
    rw [outputs, List.length_cons, length_outputs codec bs, List.length_cons]

theorem getElem?_outputs (codec : Codec) : ∀ (bs : List (List Int16)) (e : Encoder)
    (given : List (List Int16)) {i : Nat}, i < bs.length →
      (e.outputs codec given bs)[i]? = some ((e.after codec given (bs.take i)).encode
        (codec.reply ((bs.take (i + 1)).reverse ++ given)) []).2.1
  | b :: bs, e, given, 0, _ => by simp [outputs, after]
  | b :: bs, e, given, i + 1, hi => by
    have hi : i < bs.length := Nat.lt_of_succ_lt_succ hi
    rw [outputs, List.getElem?_cons_succ, getElem?_outputs codec bs _ _ hi]
    simp only [List.take_succ_cons, after, List.reverse_cons, List.append_assoc, List.cons_append,
      List.nil_append]

/-- A block that does not fail leaves nothing if and only if the codec claims no bytes. -/
theorem Ready.encode_eq_nil_iff {e : Encoder} (h : e.Ready) {r : CodecReply}
    (hr : r.fails = false) : (e.encode r []).2.1 = [] ↔ r.claimed = .ok 0 := by
  have hl : (overwrite r.written e.rawBuffer).length = capacity := by
    rw [length_overwrite, h.length_rawBuffer]
  unfold CodecReply.fails at hr
  unfold Encoder.encode
  rw [if_pos h.isOpen]
  cases hc : r.claimed with
  | error cause => simp [hc] at hr
  | ok n =>
    cases n with
    | zero => simp
    | succ n =>
      simp only [hc, decide_eq_false_iff_not] at hr
      simp only [hl, if_neg hr]
      constructor
      · intro he
        have := congrArg List.length he
        rw [List.length_append, Adts.header_length, Adts.headerLength, List.length_nil] at this
        omega
      · intro he
        cases he

end Encoder

/-! ## The packets of a clock -/

namespace Clock

def stamp (c : Clock) (k b : Nat) (payload : List UInt8) : Packet :=
  ⟨c.seq + UInt32.ofNat k, UInt64.ofNat (c.base + c.elapsed (c.blocks + b)), 1, payload⟩

theorem length_packets : ∀ (outs : List (List UInt8)) (c : Clock),
    (c.packets outs).length = outs.countP (· ≠ [])
  | [], _ => rfl
  | out :: outs, c => by
    rw [packets, List.length_append, length_packets outs, List.countP_cons]
    by_cases h : out = []
    · simp [packet?, h]
    · simp [packet?, h, Nat.add_comm]

/-- What the clock behind one block stamps, seen from before the block. -/
theorem stamp_pass (c : Clock) (out : List UInt8) (k b : Nat) (payload : List UInt8) :
    (c.pass out).stamp k b payload =
      c.stamp (k + if out = [] then 0 else 1) (b + 1) payload := by
  have hblocks : ∀ c : Clock, c.elapsed (c.blocks + 1 + b) = c.elapsed (c.blocks + (b + 1)) := by
    intro c
    rw [Nat.add_assoc, Nat.add_comm 1 b]
  unfold pass stamp
  by_cases h : out = []
  · simp only [h, if_true, tick, Nat.add_zero]
    rw [← hblocks c]
    rfl
  · have hseq : c.seq + 1 + UInt32.ofNat k = c.seq + UInt32.ofNat (k + 1) := by
      rw [UInt32.ofNat_add, UInt32.add_comm (UInt32.ofNat k), UInt32.add_assoc]
      rfl
    simp only [h, if_false, packet, tick, ← hseq]
    rw [← hblocks c]
    rfl

/-- Each packet is that of a block with a payload; the packets before it are those of the blocks
with a payload before that. -/
theorem getElem?_packets : ∀ (outs : List (List UInt8)) (c : Clock) {k : Nat} {p : Packet},
    (c.packets outs)[k]? = some p → ∃ b, outs[b]? = some p.payload ∧ p.payload ≠ [] ∧
      (outs.take b).countP (· ≠ []) = k ∧ p = c.stamp k b p.payload
  | [], _, _, _, h => by simp [packets] at h
  | out :: outs, c, k, p, h => by
    have later : ∀ {k'}, (packets (c.pass out) outs)[k']? = some p →
        k = k' + (if out = [] then 0 else 1) → ∃ b, (out :: outs)[b]? = some p.payload ∧
          p.payload ≠ [] ∧ ((out :: outs).take b).countP (· ≠ []) = k ∧
            p = c.stamp k b p.payload := by
      intro k' h hk
      obtain ⟨b, hb, hne, hcount, hp⟩ := getElem?_packets outs (c.pass out) h
      refine ⟨b + 1, hb, hne, ?_, ?_⟩
      · rw [List.take_succ_cons, List.countP_cons, hcount, hk]
        simp
      · rw [hk, ← stamp_pass]
        exact hp
    rw [packets] at h
    by_cases hout : out = []
    · rw [packet?, if_pos hout, Option.toList_none, List.nil_append] at h
      exact later h (by rw [if_pos hout, Nat.add_zero])
    · rw [packet?, if_neg hout, Option.toList_some, List.singleton_append] at h
      cases k with
      | zero =>
        -- this very block: nothing was told before it
        obtain rfl : (c.packet out).1 = p := Option.some.inj h
        refine ⟨0, rfl, hout, rfl, ?_⟩
        simp [packet, stamp, ptsMs]
      | succ k =>
        rw [List.getElem?_cons_succ] at h
        exact later h (by rw [if_neg hout])

/-! ## A clock that begins -/

/-- The times of `n` blocks are computed within 64 bits. -/
def Fits (base frameLength : Nat) (rate : UInt32) (n : Nat) : Prop :=
  ∀ b < n, b * frameLength * 1000 < 2 ^ 64 ∧
    base + b * frameLength * 1000 / max rate.toNat 1 < 2 ^ 64

/-- `ps` are the packets of blocks with the outputs `outs`, of which some are empty. -/
structure Stamped (base frameLength : Nat) (rate : UInt32) (outs : List (List UInt8))
    (ps : List Packet) : Prop where
  length_eq : ps.length = outs.countP (· ≠ [])
  /-- Packet `k` comes from block `b`; both are counted from zero. -/
  packet : ∀ (k : Nat) (p : Packet), ps[k]? = some p →
    ∃ b : Nat, outs[b]? = some p.payload ∧ p.payload ≠ [] ∧
    (outs.take b).countP (· ≠ []) = k ∧ p.seq.toNat = k % 2 ^ 32 ∧ p.frameCount = 1 ∧
    p.ptsMs.toNat = base + b * frameLength * 1000 / max rate.toNat 1 ∧
    (rate ≠ 0 → (p.ptsMs.toNat - base : ℚ) ≤ b * frameLength * 1000 / rate.toNat ∧
      (b * frameLength * 1000 / rate.toNat : ℚ) < p.ptsMs.toNat - base + 1)
  seq_succ : ∀ (k : Nat) (p q : Packet), ps[k]? = some p → ps[k + 1]? = some q → q.seq = p.seq + 1
  pts_le : ∀ (i j : Nat) (p q : Packet), i ≤ j → ps[i]? = some p → ps[j]? = some q →
    p.ptsMs ≤ q.ptsMs

/-- Dividing once loses less than one. -/
theorem div_exact (n : Nat) {rate : Nat} (h : 0 < rate) :
    ((n / rate : Nat) : ℚ) ≤ n / rate ∧ (n / rate : ℚ) < (n / rate : Nat) + 1 := by
  refine ⟨Nat.cast_div_le, ?_⟩
  have hpos : (0 : ℚ) < rate := Nat.cast_pos.2 h
  rw [div_lt_iff₀ hpos]
  have hlt : n < (n / rate + 1) * rate := by
    have := Nat.lt_div_mul_add (a := n) h
    rw [Nat.succ_mul]
    exact this
  exact_mod_cast hlt

theorem lt_of_countP_lt {outs : List (List UInt8)} {b b' : Nat}
    (h : (outs.take b).countP (· ≠ []) ≤ (outs.take b').countP (· ≠ [])) {out : List UInt8}
    (hb' : outs[b']? = some out) (hne : out ≠ []) : b ≤ b' := by
  apply Nat.le_of_not_lt
  intro hlt
  have hsub : (outs.take (b' + 1)).countP (· ≠ []) ≤ (outs.take b).countP (· ≠ []) :=
    (List.take_sublist_take_left hlt).countP_le
  have hone : [out].countP (· ≠ []) = 1 := by simp [hne]
  rw [List.take_add_one, hb', List.countP_append, Option.toList_some, hone] at hsub
  omega

theorem stamped_packets {base frameLength : Nat} {rate : UInt32} {outs : List (List UInt8)}
    (hfits : Fits base frameLength rate outs.length) :
    Stamped base frameLength rate outs ((Clock.new base frameLength rate).packets outs) := by
  have hpts : ∀ {b payload}, outs[b]? = some payload → ∀ k,
      ((Clock.new base frameLength rate).stamp k b payload).ptsMs.toNat =
        base + b * frameLength * 1000 / max rate.toNat 1 := by
    intro b payload hb k
    obtain ⟨hlt, -⟩ := List.getElem?_eq_some_iff.1 hb
    have := (hfits b hlt).2
    simp only [stamp, Clock.new, elapsed, Nat.zero_add, ← Nat.mul_assoc, UInt64.toNat_ofNat']
    exact Nat.mod_eq_of_lt this
  refine ⟨length_packets outs _, ?_, ?_, ?_⟩
  · intro k p hp
    obtain ⟨b, hb, hne, hcount, hstamp⟩ := getElem?_packets outs _ hp
    have hp := hpts hb k
    rw [← hstamp] at hp
    refine ⟨b, hb, hne, hcount, ?_, ?_, hp, fun hrate => ?_⟩
    · rw [hstamp]
      simp [stamp, Clock.new]
    · rw [hstamp]; rfl
    · have hpos : 0 < rate.toNat := Nat.pos_of_ne_zero fun h => hrate (UInt32.toNat_inj.1 h)
      have := div_exact (b * frameLength * 1000) hpos
      rw [hp, Nat.max_eq_left hpos]
      push_cast at this ⊢
      rw [add_sub_cancel_left]
      exact this
  · intro k p q hp hq
    obtain ⟨b, -, -, -, hstamp⟩ := getElem?_packets outs _ hp
    obtain ⟨b', -, -, -, hstamp'⟩ := getElem?_packets outs _ hq
    rw [hstamp, hstamp']
    simp only [stamp, UInt32.ofNat_add, ← UInt32.add_assoc]
    rfl
  · intro i j p q hij hp hq
    obtain ⟨b, hb, -, hi, hstamp⟩ := getElem?_packets outs _ hp
    obtain ⟨b', hb', hne, hj, hstamp'⟩ := getElem?_packets outs _ hq
    have hle : b ≤ b' := lt_of_countP_lt (by rw [hi, hj]; exact hij) hb' hne
    rw [UInt64.le_iff_toNat_le, hstamp, hstamp', hpts hb, hpts hb']
    gcongr

end Clock

/-! ## The loop, and any run of a session -/

namespace Coding

section Upto
variable {codec : Codec} {base : Nat} {e : Encoder} {old : List (List Int16)}
  {stream mono : List Int16} {n : Nat} {told : List Packet}

/-- What comes of the first `n` blocks of a stream: the codec answers each with no bytes or with a
payload, and the payloads go out stamped. -/
structure Timed (codec : Codec) (base : Nat) (e : Encoder) (old : List (List Int16))
    (stream : List Int16) (n : Nat) (ps : List Packet) : Prop where
  le : n ≤ stream.length / e.frameLength
  length_eq : ((new base e).outputsAt codec old stream n).length = n
  answered : ∀ b < n, (((new base e).replyAt codec old stream b).claimed = .ok 0 ↔
    ((new base e).outputsAt codec old stream n)[b]? = some [])
  stamped : Clock.Fits base e.frameLength e.sampleRate n →
    Clock.Stamped base e.frameLength e.sampleRate ((new base e).outputsAt codec old stream n) ps

theorem Upto.timed (h : Upto codec (new base e) old stream n mono told) (hr : e.Ready) :
    Timed codec base e old stream n told := by
  have hn : ((new base e).firstBlocks stream n).length = n := by
    rw [firstBlocks, List.length_take, length_chunks]
    exact Nat.min_eq_left h.le
  have hlen : ((new base e).outputsAt codec old stream n).length = n := by
    rw [outputsAt, Encoder.length_outputs, hn]
  refine ⟨h.le, hlen, ?_, ?_⟩
  · intro b hb
    have hblocks : ∀ i ≤ n, ((new base e).firstBlocks stream n).take i =
        (new base e).firstBlocks stream i := by
      intro i hi
      rw [firstBlocks, firstBlocks, List.take_take, Nat.min_eq_left hi]
    have hready :
        ((new base e).encoder.after codec old ((new base e).firstBlocks stream b)).Ready :=
      Encoder.after_ready hr
    rw [outputsAt, Encoder.getElem?_outputs codec _ _ _ (by rw [hn]; exact hb),
      hblocks b (Nat.le_of_lt hb), hblocks (b + 1) hb, Option.some.injEq]
    exact (hready.encode_eq_nil_iff (h.fine b hb)).symm
  · intro hfits
    rw [h.told_eq]
    exact Clock.stamped_packets (by rw [hlen]; exact hfits)

end Upto

end Coding

namespace State

/-- The packets that the loop over any frames makes of its blocks are numbered one by one and
stamped with the time at which their blocks began, up to the first block that fails; so are the
packets that are told in any run of a session. -/
theorem packets_stamped :
    (∀ {e : Encoder}, e.Ready → ∀ base codec old (fs : List Frame), ∃ gs n, gs <+: fs ∧
      ((Coding.frames codec (.new base e) old fs).failure = none →
        gs = fs ∧ n = (Coding.firstChannels fs).length / e.frameLength) ∧
      Coding.Timed codec base e old (Coding.firstChannels gs) n
        (Coding.frames codec (.new base e) old fs).packets) ∧
    (∀ {s₀ settings x ls s y}, SessionRun s₀ settings x ls s y → ∃ n told,
      s.packets x.number = s.heard told ∧
      Coding.Timed s₀.rig.codec s₀.rig.now x.encoder.coding.encoder s₀.rig.blocks
        (s₀.stream ls) n told) := by
  refine ⟨?_, ?_⟩
  · intro e hr base codec old fs
    have hready : (Coding.new base e).encoder.Ready := hr
    have hbegin : Coding.At codec (.new base e) old [] _ (.new base e) old [] :=
      .beginning codec old rfl
    rcases hbegin.frames hready fs with
      ⟨-, h⟩ | ⟨hf, gs, n, hgs, h⟩
    · simp only [List.nil_append] at h
      exact ⟨fs, _, List.prefix_refl fs, fun _ => ⟨rfl, rfl⟩, h.toUpto.timed hr⟩
    · simp only [List.nil_append] at h
      refine ⟨gs, n, hgs, fun hnone => ?_, h.toUpto.timed hr⟩
      rw [hnone] at hf; cases hf
  · intro s₀ settings x ls s y h
    obtain ⟨hr, hnew, -⟩ := h.setUp.encoder
    have hat := encoder_of_run h
    rw [hnew] at hat
    rw [← h.number]
    cases hat with
    | going n told ht h => exact ⟨n, told, ht, h.toUpto.timed hr⟩
    | through n told ht h => exact ⟨n, told, ht, h.timed hr⟩
    | failed n told ht h => exact ⟨n, told, ht, h.toUpto.timed hr⟩

/-- A codec that holds the first of its blocks back. -/
def sampleHoldingRig : Rig := { sampleRig with codec := .scripted 2 1 none false }

/-- A rate that does not divide the milliseconds of a block. -/
def sampleSlowSettings : StreamSettings :=
  { sampleSettings with params := { sampleSettings.params with sampleRate := 3 } }

/-- Two thirds of a second for each block: what is lost of the first is not lost of the second. -/
theorem packets_stamped_sample : ∃ s₀ x s y,
    SessionRun s₀ sampleSlowSettings x sampleLabels s y ∧
      (s.packets x.number).map (fun p => (p.seq, p.ptsMs)) = [(0, 673), (1, 1340)] ∧
      ∃ outs, Clock.Stamped 7 2 3 outs (s.packets x.number) := by
  have hrun : ((State.new sampleHoldingRig true).steps [.start sampleSlowSettings, .owner]).any
      (fun s₀ => decide (s₀.owner = .spawning .producer ∧ s₀.rig.now = 7) &&
        s₀.session.any fun x => decide (x.encoder.coding.encoder.frameLength = 2 ∧
            x.encoder.coding.encoder.sampleRate = 3 ∧ (s₀.stream sampleLabels).length = 6) &&
          (s₀.steps sampleLabels).any fun s => s.session.any fun y =>
            decide (y.number = x.number ∧ s.listening = true ∧
              (s.packets x.number).map (fun p => (p.seq, p.ptsMs)) = [(0, 673), (1, 1340)])) =
      true := by
    decide +kernel
  simp only [Option.any_eq_true, Bool.and_eq_true, decide_eq_true_eq] at hrun
  obtain ⟨s₀, h₀, ⟨ho, hnow⟩, x, hx, ⟨hlen, hrate, hstream⟩, s, hs, y, hy, hnum, hlisten, htold⟩ :=
    hrun
  have hkeeps : ∀ l ∈ sampleLabels, l.equips = false := by
    simp [sampleLabels, Label.equips]
  have h : SessionRun s₀ sampleSlowSettings x sampleLabels s y :=
    ⟨.first h₀ ho hx, hs, hkeeps, hy, hnum⟩
  obtain ⟨n, told, ht, htimed⟩ := packets_stamped.2 h
  have hn : n ≤ 3 := by
    have := htimed.le
    rw [hlen, hstream] at this
    exact this
  have hfits : Clock.Fits 7 2 3 n := by
    intro b hb
    have hb : b < 3 := Nat.lt_of_lt_of_le hb hn
    exact (by decide : ∀ b < 3, b * 2 * 1000 < 2 ^ 64 ∧
      7 + b * 2 * 1000 / max (3 : UInt32).toNat 1 < 2 ^ 64) b hb
  have hstamped := htimed.stamped
  rw [hnow, hlen, hrate] at hstamped
  rw [heard_of_listening hlisten] at ht
  rw [← ht] at hstamped
  exact ⟨s₀, x, s, y, h, htold, _, hstamped hfits⟩

end State

end MicStream
