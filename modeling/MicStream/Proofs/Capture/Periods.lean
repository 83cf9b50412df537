import MicStream.Proofs.Binary.Single
import MicStream.Proofs.Capture.Ownership
/-!
# Periods read both ways

An open capture reads a period interleaved or split by channel. Both ways apply
the gain to every sample that the device wrote: the interleaved one leaves the
samples as they are when the gain is one, which is what applying it does. So
both give the same samples, in places that belong to each other, whatever the
vectors held that they are read into.

Results:
* `apply_one`: unity gain changes no sample.
* `getElem?_everyNth`, `length_everyNth`: one channel of interleaved samples.
* `readPeriod_of_filled`, `readSplit_of_filled`: a period that fills the buffer.
* `readSplit_of_failed`: a period that fails.
* `periods_agree`: both, for every capture that is open.
-/
namespace MicStream

namespace Gain
open MicStream.Binary

theorem scale_one {s : Int} (hlow : minSample ≤ s) (hhigh : s ≤ maxSample) :
    scale (.finite false (2 ^ 23) (-23)) s = s := by
  have hwhole : s.natAbs < 2 ^ 24 := by
    rw [minSample] at hlow
    rw [maxSample] at hhigh
    omega
  obtain ⟨i, hi⟩ := round_whole (decide (s < 0)) 23 hwhole
  have hproduct : product s (.finite false (2 ^ 23) (-23)) =
      .finite (decide (s < 0)) (s.natAbs * 2 ^ i) (-(i : Int)) := by
    rw [← hi, product, Bool.false_bne]
    rfl
  have hsigned : signed (decide (s < 0)) s.natAbs = s := by
    simp only [signed, decide_eq_true_eq]
    split <;> omega
  rw [scale, hproduct, Value.roundTo, nearestAway_whole, hsigned, clampInt, if_neg (not_lt.2 hlow),
    if_neg (not_lt.2 hhigh)]

theorem value32_of_beq_one {gain : Float32} (h : (gain == 1) = true) :
    value32 gain = .finite false (2 ^ 23) (-23) := by
  have hone : (1 : Float32).toModel.unpack = .finite .positive (2 ^ 23) (-23) (by decide) := rfl
  have hbeq : (gain == 1) =
      (gain.toModel.unpack.compare (1 : Float32).toModel.unpack == some .eq) := rfl
  rw [hbeq, hone, beq_iff_eq] at h
  rw [value32_eq]
  cases hgain : gain.toModel.unpack with
  | notANumber => rw [hgain] at h; cases h
  | infinity s => rw [hgain] at h; cases s <;> cases h
  | zero s => rw [hgain] at h; cases h
  | finite s m e hm =>
    rw [hgain] at h
    cases s with
    | negative => cases h
    | positive =>
      have hparts : (compare e (-23)).then (compare m (2 ^ 23)) = .eq := Option.some.inj h
      rw [Ordering.then_eq_eq, compare_eq_iff_eq, compare_eq_iff_eq] at hparts
      obtain ⟨rfl, rfl⟩ := hparts
      rfl

theorem apply_one {gain : Float32} (h : (gain == 1) = true) (s : Int16) : apply gain s = s := by
  rw [apply, value32_of_beq_one h, scale_one s.minValue_le_toInt s.toInt_le, Int16.ofInt_toInt]

end Gain

namespace Capture

/-! ## One channel of many -/

section Channels
variable {α : Type} {channels frames c : Nat} {xs : List α}

theorem getElem?_everyNth {stride : Nat} (h : 0 < stride) : ∀ (n : Nat) (xs : List α) (i : Nat),
    (everyNth stride n xs)[i]? = xs[n + i * stride]?
  | _, [], i => by simp [everyNth]
  | 0, x :: rest, 0 => by simp [everyNth]
  | 0, x :: rest, i + 1 => by
    have hplace : 0 + (i + 1) * stride = stride - 1 + i * stride + 1 := by
      rw [Nat.add_mul]
      omega
    rw [everyNth, List.getElem?_cons_succ, getElem?_everyNth h, hplace, List.getElem?_cons_succ]
  | n + 1, x :: rest, i => by
    have hplace : n + 1 + i * stride = n + i * stride + 1 := by omega
    rw [everyNth, getElem?_everyNth h, hplace, List.getElem?_cons_succ]

theorem place_lt (hc : c < channels) {i : Nat} : c + i * channels < frames * channels ↔ i < frames := by
  constructor
  · intro h
    by_contra hi
    have := Nat.mul_le_mul_right channels (not_lt.1 hi)
    omega
  · intro hi
    have := Nat.mul_le_mul_right channels (Nat.succ_le_of_lt hi)
    rw [Nat.succ_mul] at this
    omega

theorem length_everyNth (hc : c < channels) (h : xs.length = frames * channels) :
    (everyNth channels c xs).length = frames := by
  have hiff : ∀ i, i < (everyNth channels c xs).length ↔ i < frames := by
    intro i
    have hnone : (everyNth channels c xs)[i]? = none ↔ xs[c + i * channels]? = none := by
      rw [getElem?_everyNth (Nat.zero_lt_of_lt hc)]
    rw [List.getElem?_eq_none_iff, List.getElem?_eq_none_iff, h] at hnone
    have hplace : c + i * channels < frames * channels ↔ i < frames := place_lt hc
    rw [← hplace, ← not_le, hnone, not_le]
  exact le_antisymm (le_of_not_gt fun hlt => lt_irrefl _ ((hiff frames).1 hlt))
    (le_of_not_gt fun hlt => lt_irrefl _ ((hiff _).2 hlt))

theorem split_eq {channels frames : Nat} {xs : List Int16} (h : xs.length = frames * channels) :
    split channels xs = (List.range channels).map fun c => everyNth channels c xs := by
  have hwhole : xs.length / channels * channels = xs.length := by
    rw [h]
    exact Nat.div_mul_cancel (Nat.dvd_mul_left _ _)
  rw [split, hwhole, List.take_length]

end Channels

/-! ## Reads -/

section Reads
variable {c : Capture} {reply : PeriodReply}

theorem length_resize (length : Nat) (xs : List Int16) : (resize length xs).length = length := by
  simp only [resize, List.length_append, List.length_take, List.length_replicate]
  omega

theorem readPeriod_of_filled (hopen : c.isOpen = true) (hfull : reply.written.length = c.periodLength)
    (hok : reply.failure = none) (out : List Int16) :
    c.readPeriod reply out = (reply.written.map (Gain.apply c.gain), .ok ()) := by
  have hwritten : overwrite reply.written (resize c.periodLength out) = reply.written :=
    overwrite_of_length_eq _ _ (hfull.trans (length_resize _ _).symm)
  have hgain : (if c.gain == 1 then reply.written else reply.written.map (Gain.apply c.gain)) =
      reply.written.map (Gain.apply c.gain) := by
    split
    · next hone =>
      rw [funext (Gain.apply_one hone)]
      exact (List.map_id' _).symm
    · rfl
  simp only [readPeriod, hopen, if_true, hok, hwritten, hgain]

theorem readSplit_of_filled (hopen : c.isOpen = true)
    (hbuffer : c.buffer.length = c.periodLength)
    (hfull : reply.written.length = c.periodLength) (hok : reply.failure = none)
    (out : List (List Int16)) :
    c.readSplit reply out = ({ c with buffer := reply.written },
      (List.range c.channels.toNat).map fun k =>
        (everyNth c.channels.toNat k reply.written).map (Gain.apply c.gain), .ok ()) := by
  have hwritten : overwrite reply.written c.buffer = reply.written :=
    overwrite_of_length_eq _ _ (hfull.trans hbuffer.symm)
  simp only [readSplit, hopen, if_true, hok, hwritten]
  rw [split_eq hfull, List.map_map]
  rfl

theorem readSplit_of_failed (hopen : c.isOpen = true) {cause : String}
    (hfailed : reply.failure = some cause) (out : List (List Int16)) :
    (c.readSplit reply out).2 = (out, .error (.readFailed cause)) := by
  simp only [readSplit, hopen, if_true, hfailed]

end Reads

theorem length_buffer (ks : List Call) (h : (new.calls ks).1.isOpen = true) :
    (new.calls ks).1.buffer.length = (new.calls ks).1.periodLength := by
  obtain ⟨a, ha⟩ := (kept_calls ks).isOpen.1 h
  exact ((kept_calls ks).holds a ha).buffer

/-- Every capture that is open, after any calls, and every period that the device delivers for both
reads, whatever they are read into. If it fills the buffer both succeed. Split by channel it comes
as one vector for each channel with one sample of each frame, and interleaved as those vectors in
turn: sample `i` of channel `k` is sample `i * channels + k`, and is in both what the device wrote
there with the gain applied. A gain of one leaves every sample as it is. If the device fails, the
vectors of the split read are left as they were. -/
theorem periods_agree (ks : List Call) (hopen : (new.calls ks).1.isOpen = true) (reply : PeriodReply)
    (out : List Int16) (outs : List (List Int16)) :
    let c := (new.calls ks).1
    let channels := c.channels.toNat
    (reply.failure = none → reply.written.length = c.periodSize * channels →
      ∃ interleaved vectors, c.readPeriod reply out = (interleaved, .ok ()) ∧
        (c.readSplit reply outs).2 = (vectors, .ok ()) ∧
        interleaved.length = c.periodSize * channels ∧ vectors.length = channels ∧
        (∀ v ∈ vectors, v.length = c.periodSize) ∧
        ∀ k i, k < channels → i < c.periodSize →
          ∃ s v, reply.written[i * channels + k]? = some s ∧ vectors[k]? = some v ∧
            v[i]? = some (Gain.apply c.gain s) ∧
            interleaved[i * channels + k]? = some (Gain.apply c.gain s)) ∧
    ((c.gain == 1) = true → ∀ s, Gain.apply c.gain s = s) ∧
    (∀ cause, reply.failure = some cause →
      (c.readSplit reply outs).2 = (outs, .error (.readFailed cause))) := by
  intro c channels
  refine ⟨fun hok hfull => ?_, Gain.apply_one, fun cause hfailed =>
    readSplit_of_failed hopen hfailed outs⟩
  refine ⟨reply.written.map (Gain.apply c.gain),
    (List.range channels).map fun k =>
      (everyNth channels k reply.written).map (Gain.apply c.gain),
    readPeriod_of_filled hopen hfull hok out,
    congrArg Prod.snd (readSplit_of_filled hopen (length_buffer ks hopen) hfull hok outs), ?_, ?_,
    fun v hv => ?_, fun k i hk hi => ?_⟩
  · rw [List.length_map, hfull]
  · rw [List.length_map, List.length_range]
  · obtain ⟨k, hk, rfl⟩ := List.mem_map.1 hv
    rw [List.length_map, length_everyNth (List.mem_range.1 hk) hfull]
  · have hplace : i * channels + k < reply.written.length := by
      rw [hfull, Nat.add_comm]
      exact (place_lt hk).2 hi
    have hsample := List.getElem?_eq_getElem hplace
    refine ⟨_, (everyNth channels k reply.written).map (Gain.apply c.gain), hsample, ?_, ?_, ?_⟩
    · rw [List.getElem?_map, List.getElem?_range hk]
      rfl
    · rw [List.getElem?_map, getElem?_everyNth (Nat.zero_lt_of_lt hk), Nat.add_comm k, hsample]
      rfl
    · rw [List.getElem?_map, hsample]
      rfl

/-- Two frames of three channels, read with a gain of two. -/
def doubled : Call := .openStream 0 0 ⟨16000, 2, 3, 2, 4⟩ none

theorem periods_agree_sample : (new.calls [doubled]).1.isOpen = true ∧
    ∃ (interleaved : List Int16) (vectors : List (List Int16)),
      (new.calls [doubled]).1.readPeriod ⟨[1, -1, 30000, 2, -2, -30000], none⟩ [7] =
        (interleaved, .ok ()) ∧
      ((new.calls [doubled]).1.readSplit ⟨[1, -1, 30000, 2, -2, -30000], none⟩ [[], [7]]).2 =
        (vectors, .ok ()) ∧
      vectors.length = 3 ∧
      ∃ v, vectors[2]? = some v ∧ v[1]? = some (-32768 : Int16) ∧
        interleaved[5]? = some (-32768 : Int16) := by
  have hopen : (new.calls [doubled]).1.isOpen = true := by decide +kernel
  obtain ⟨hfilled, -⟩ :=
    periods_agree [doubled] hopen ⟨[1, -1, 30000, 2, -2, -30000], none⟩ [7] [[], [7]]
  obtain ⟨interleaved, vectors, hperiod, hsplit, -, hlength, -, hplaces⟩ := hfilled rfl rfl
  obtain ⟨s, v, hs, hv, hsplit', hperiod'⟩ := hplaces 2 1 (by decide) (by decide)
  obtain rfl : (-30000 : Int16) = s := Option.some.inj hs
  have hgain : Gain.apply (new.calls [doubled]).1.gain (-30000) = (-32768 : Int16) := by decide +kernel
  rw [hgain] at hsplit' hperiod'
  exact ⟨hopen, interleaved, vectors, hperiod, hsplit, hlength, v, hv, hsplit', hperiod'⟩

end Capture

end MicStream
