import Mathlib.Data.List.Induction
import MicStream.Proofs.Codec.Encoding
/-!
# Sessions of the encoder

An encoder is opened, given blocks and closed in any order (`Use`), and the
codec may refuse a session, report a frame length of zero, fail on a block or
claim any number of bytes. The session that is open is the one of the last
opening, if it succeeded and only blocks came after it (`Standing`).

Results:
* `Opening.succeeds_iff`: an opening succeeds on the answers that report a frame length.
* `encode_cases`: the five ways in which coding a block goes.
* `Standing.holds`, `exists_standing`: an encoder is open exactly while an opening stands, and then
  has its parameters.
* `sessions_hold`: what holds after any uses, and what a block leaves in the output then.
-/
namespace MicStream.Encoder

/-! ## Uses -/

/-- A request for a session, with the answer of the codec to it. -/
structure Opening where
  sampleRate : UInt32
  channels : UInt32
  bitRate : UInt32
  aot : UInt8
  answer : Except String Nat

namespace Opening

def make (o : Opening) (e : Encoder) : Encoder × Except EncoderError Unit :=
  e.init (params o.sampleRate o.channels o.bitRate o.aot) o.answer

def Succeeds (o : Opening) (e : Encoder) : Prop := (o.make e).2 = .ok ()

end Opening

/-- What is done with an encoder; a block comes with the reply of the codec and with what the
output held before. -/
inductive Use where
  | init (o : Opening)
  | encode (reply : CodecReply) (out : List UInt8)
  | close

def Use.isEncode : Use → Bool
  | .encode _ _ => true
  | _ => false

def use (e : Encoder) : Use → Encoder
  | .init o => (o.make e).1
  | .encode reply out => (e.encode reply out).1
  | .close => e.close

def uses (e : Encoder) (us : List Use) : Encoder := us.foldl use e

/-- The last opening among some uses of a new encoder, if it succeeded and only blocks came after
it. -/
def Standing (us : List Use) (o : Opening) : Prop :=
  ∃ before later, us = before ++ .init o :: later ∧ o.Succeeds (new.uses before) ∧
    ∀ u ∈ later, u.isEncode = true

theorem uses_concat (e : Encoder) (us : List Use) (u : Use) :
    e.uses (us ++ [u]) = (e.uses us).use u := by
  rw [uses, List.foldl_append]; rfl

theorem reached_uses (us : List Use) : Reached (new.uses us) := by
  induction us using List.reverseRecOn with
  | nil => exact .new
  | append_singleton us u ih =>
    rw [uses_concat]
    cases u with
    | init o => exact .init _ o.answer ih
    | encode reply out => exact .encode reply out ih
    | close => exact .close ih

/-! ## Openings -/

theorem Opening.succeeds_iff {o : Opening} {e : Encoder} :
    o.Succeeds e ↔ ∃ n, o.answer = .ok n ∧ 0 < n := by
  unfold Succeeds make init
  cases o.answer with
  | error cause => simp
  | ok n =>
    by_cases hn : n = 0
    · simp [hn]
    · simp [hn, Nat.pos_of_ne_zero hn]

/-- The encoder has the session that an opening was granted. -/
structure Holds (e : Encoder) (o : Opening) : Prop where
  isOpen : e.isOpen = true
  frameLength : o.answer = .ok e.frameLength
  frameLength_pos : 0 < e.frameLength
  sampleRate : e.sampleRate = o.sampleRate
  channels : e.channels = o.channels

theorem Opening.Succeeds.holds {o : Opening} {e : Encoder} (h : o.Succeeds e) :
    (o.make e).1.Holds o := by
  obtain ⟨n, ha, hn⟩ := succeeds_iff.1 h
  have hmake : o.make e = (⟨true, n, o.sampleRate, o.channels, e.rawBuffer⟩, .ok ()) := by
    simp only [make, init, ha, if_neg (Nat.ne_of_gt hn)]
    rfl
  rw [hmake]
  exact ⟨rfl, ha, hn, rfl, rfl⟩

theorem Opening.closed_of_failed {o : Opening} {e : Encoder} (h : ¬ o.Succeeds e) :
    (o.make e).1.isOpen = false := by
  have hn : ∀ n, o.answer = .ok n → n = 0 := fun n ha =>
    Nat.eq_zero_of_not_pos fun hn => h (succeeds_iff.2 ⟨n, ha, hn⟩)
  unfold make init
  cases ha : o.answer with
  | error cause => rfl
  | ok n =>
    obtain rfl := hn n ha
    rfl

theorem Holds.encode {e : Encoder} {o : Opening} (h : e.Holds o) (reply : CodecReply)
    (out : List UInt8) : (e.encode reply out).1.Holds o := by
  obtain ⟨h1, h2, h3, h4⟩ := encode_frame e reply out
  exact ⟨h1.trans h.isOpen, h2 ▸ h.frameLength, h2 ▸ h.frameLength_pos, h3.trans h.sampleRate,
    h4.trans h.channels⟩

/-- Blocks change nothing of a session. -/
theorem Holds.uses {o : Opening} : ∀ {us : List Use} {e : Encoder}, e.Holds o →
    (∀ u ∈ us, u.isEncode = true) → (e.uses us).Holds o
  | [], _, h, _ => h
  | .encode reply out :: _, _, h, hus =>
    (h.encode reply out).uses fun u hu => hus u (List.mem_cons_of_mem _ hu)
  | .init _ :: _, _, _, hus => nomatch hus _ List.mem_cons_self
  | .close :: _, _, _, hus => nomatch hus _ List.mem_cons_self

theorem Standing.holds {us : List Use} {o : Opening} (h : Standing us o) :
    (new.uses us).Holds o := by
  obtain ⟨before, later, rfl, hs, hl⟩ := h
  have huses : new.uses (before ++ .init o :: later) = (o.make (new.uses before)).1.uses later := by
    rw [Encoder.uses, List.foldl_append]; rfl
  rw [huses]
  exact hs.holds.uses hl

theorem exists_standing (us : List Use) (h : (new.uses us).isOpen = true) :
    ∃ o, Standing us o := by
  induction us using List.reverseRecOn with
  | nil => cases h
  | append_singleton us u ih =>
    rw [uses_concat] at h
    cases u with
    | init o =>
      refine ⟨o, us, [], rfl, ?_, nofun⟩
      by_contra hs
      rw [use, Opening.closed_of_failed hs] at h
      cases h
    | encode reply out =>
      rw [use, (encode_frame _ reply out).1] at h
      obtain ⟨o, before, later, rfl, hs, hl⟩ := ih h
      refine ⟨o, before, later ++ [.encode reply out], by simp, hs, fun u hu => ?_⟩
      rcases List.mem_append.1 hu with hu | hu
      · exact hl u hu
      · rw [List.mem_singleton.1 hu]; rfl
    | close => cases h

/-! ## Blocks -/

inductive Coded (e : Encoder) (reply : CodecReply) (out : List UInt8) :
    Encoder × List UInt8 × Except EncoderError Unit → Prop where
  | closed (ho : e.isOpen = false) : Coded e reply out (e, out, .error .notInitialized)
  | failed (e' : Encoder) (cause : String) (ho : e.isOpen = true)
      (hr : reply.claimed = .error cause) :
      Coded e reply out (e', [], .error (.codecFailed cause))
  | nothing (e' : Encoder) (ho : e.isOpen = true) (hr : reply.claimed = .ok 0) :
      Coded e reply out (e', [], .ok ())
  | tooLong (e' : Encoder) (n : Nat) (ho : e.isOpen = true) (hr : reply.claimed = .ok n)
      (hn : e.rawBuffer.length < n) :
      Coded e reply out (e', [], .error (.tooLong n e.rawBuffer.length))
  | frame (e' : Encoder) (n : Nat) (ho : e.isOpen = true) (hr : reply.claimed = .ok n)
      (hpos : 1 ≤ n) (hn : n ≤ e.rawBuffer.length) :
      Coded e reply out
        (e', Adts.header n e.sampleRate e.channels ++ e'.rawBuffer.take n, .ok ())

theorem encode_cases (e : Encoder) (reply : CodecReply) (out : List UInt8) :
    Coded e reply out (e.encode reply out) := by
  have hlen : (overwrite reply.written e.rawBuffer).length = e.rawBuffer.length :=
    length_overwrite _ _
  unfold encode
  by_cases ho : e.isOpen = true
  · rw [if_pos ho]
    cases hr : reply.claimed with
    | error cause => exact .failed _ cause ho hr
    | ok n =>
      cases n with
      | zero => exact .nothing _ ho hr
      | succ n =>
        dsimp only
        rw [hlen]
        by_cases hn : e.rawBuffer.length < n + 1
        · rw [if_pos hn]
          exact .tooLong _ (n + 1) ho hr hn
        · rw [if_neg hn]
          exact .frame { e with rawBuffer := overwrite reply.written e.rawBuffer } (n + 1) ho hr
            (Nat.succ_pos n) (Nat.le_of_not_lt hn)
  · rw [if_neg ho]
    exact .closed (Bool.eq_false_iff.2 ho)

section Coded
variable {e e' : Encoder} {reply : CodecReply} {out left : List UInt8}
  {result : Except EncoderError Unit}

/-- A block that is coded leaves what the codec claims of the raw bytes, behind a header. -/
theorem Coded.left_of_ok (h : Coded e reply out (e', left, .ok ())) :
    (reply.claimed = .ok 0 ∧ left = []) ∨ ∃ n, reply.claimed = .ok n ∧ 1 ≤ n ∧
      n ≤ e.rawBuffer.length ∧
        left = Adts.header n e.sampleRate e.channels ++ e'.rawBuffer.take n := by
  cases h with
  | nothing _ _ hr => exact .inl ⟨hr, rfl⟩
  | frame _ n _ hr hpos hn => exact .inr ⟨n, hr, hpos, hn, rfl⟩

theorem Coded.of_codec_error (h : Coded e reply out (e', left, result)) (ho : e.isOpen = true)
    {cause : String} (hr : reply.claimed = .error cause) :
    result = .error (.codecFailed cause) ∧ left = [] := by
  cases h with
  | closed hc => rw [ho] at hc; cases hc
  | failed _ _ _ hr' => rw [hr] at hr'; cases hr'; exact ⟨rfl, rfl⟩
  | nothing _ _ hr' | tooLong _ _ _ hr' | frame _ _ _ hr' => rw [hr] at hr'; cases hr'

theorem Coded.of_claim (h : Coded e reply out (e', left, result)) (ho : e.isOpen = true)
    {n : Nat} (hr : reply.claimed = .ok n) (hn : e.rawBuffer.length < n) :
    result = .error (.tooLong n e.rawBuffer.length) ∧ left = [] := by
  cases h with
  | closed hc => rw [ho] at hc; cases hc
  | failed _ _ _ hr' => rw [hr] at hr'; cases hr'
  | nothing _ _ hr' => rw [hr] at hr'; cases hr'; exact absurd hn (Nat.not_lt_zero _)
  | tooLong _ _ _ hr' => rw [hr] at hr'; cases hr'; exact ⟨rfl, rfl⟩
  | frame _ _ _ hr' _ hle => rw [hr] at hr'; cases hr'; exact absurd hn (Nat.not_lt_of_le hle)

theorem Coded.of_closed (h : Coded e reply out (e', left, result)) (ho : e.isOpen = false) :
    result = .error .notInitialized ∧ left = out := by
  cases h with
  | closed => exact ⟨rfl, rfl⟩
  | failed _ _ hc | nothing _ hc | tooLong _ _ hc | frame _ _ hc => rw [ho] at hc; cases hc

end Coded

/-! ## Any uses -/

/-- Whatever is done with a new encoder and whatever the codec answers: it is open if the last
opening succeeded and was not closed since, and then has the rate and channels of that opening and
the frame length, not zero, that the codec reported; its raw buffer has 6144 bytes. A block never
changes whether it is open, its frame length or its rate. A block that is coded leaves nothing, if
the codec claims no bytes, or a header and the first of the raw bytes, as many as are claimed; one
that fails on an open encoder leaves nothing; without a session the output is not touched. -/
theorem sessions_hold (us : List Use) :
    let e := new.uses us
    (e.isOpen = true ↔ ∃ o, Standing us o) ∧
    (∀ o, Standing us o → o.answer = .ok e.frameLength ∧ 0 < e.frameLength ∧
      e.sampleRate = o.sampleRate ∧ e.channels = o.channels) ∧
    e.rawBuffer.length = 6144 ∧
    ∀ reply out,
      let after := (e.encode reply out).1
      let left := (e.encode reply out).2.1
      let result := (e.encode reply out).2.2
      (after.isOpen = e.isOpen ∧ after.frameLength = e.frameLength ∧
        after.sampleRate = e.sampleRate ∧ after.channels = e.channels ∧
        after.rawBuffer.length = 6144) ∧
      (e.isOpen = true → (result = .ok () ↔ reply.fails = false)) ∧
      (result = .ok () → (reply.claimed = .ok 0 ∧ left = []) ∨
        ∃ n, reply.claimed = .ok n ∧ 1 ≤ n ∧ n ≤ 6144 ∧
          left = Adts.header n e.sampleRate e.channels ++ after.rawBuffer.take n) ∧
      (∀ cause, e.isOpen = true → reply.claimed = .error cause →
        result = .error (.codecFailed cause) ∧ left = []) ∧
      (∀ n, e.isOpen = true → reply.claimed = .ok n → 6144 < n →
        result = .error (.tooLong n 6144) ∧ left = []) ∧
      (e.isOpen = false → result = .error .notInitialized ∧ left = out) := by
  intro e
  have hraw : e.rawBuffer.length = 6144 := (reached_uses us).length_rawBuffer
  refine ⟨⟨exists_standing us, fun ⟨o, h⟩ => h.holds.isOpen⟩, fun o h => ?_, hraw,
    fun reply out => ?_⟩
  · obtain ⟨-, hlen, hpos, hrate, hch⟩ := h.holds
    exact ⟨hlen, hpos, hrate, hch⟩
  · intro after left result
    have hcoded : Coded e reply out (after, left, result) := encode_cases e reply out
    obtain ⟨h1, h2, h3, h4⟩ := encode_frame e reply out
    refine ⟨⟨h1, h2, h3, h4, (rawBuffer_length_encode e reply out).trans hraw⟩, fun ho => ?_,
      fun hok => ?_, fun cause ho hr => hcoded.of_codec_error ho hr, fun n ho hr hn => ?_,
      hcoded.of_closed⟩
    · obtain ⟨o, h⟩ := exists_standing us ho
      exact encode_ok_iff ⟨ho, h.holds.frameLength_pos, hraw⟩ reply out
    · rw [hok] at hcoded
      have := hcoded.left_of_ok
      rwa [hraw] at this
    · have := hcoded.of_claim ho hr (by rw [hraw]; exact hn)
      rwa [hraw] at this

/-- A session that is refused leaves the encoder closed; the next one stands through blocks that
fail. -/
def sampleUses : List Use :=
  [.init ⟨16000, 1, 64000, 0, .error "busy"⟩, .encode ⟨[9], .ok 1⟩ [7],
    .init ⟨48000, 2, 96000, 2, .ok 1024⟩, .encode ⟨[1, 2, 3], .ok 3⟩ [7],
    .encode ⟨[4], .ok 6145⟩ [7], .encode ⟨[], .error "lost"⟩ [7]]

/-- The raw buffer keeps what blocks before wrote to it. -/
theorem sessions_hold_sample :
    (new.uses sampleUses).isOpen = true ∧ (new.uses sampleUses).frameLength = 1024 ∧
      (new.uses sampleUses).sampleRate = 48000 ∧
      ((new.uses sampleUses).encode ⟨[5], .ok 3⟩ [7]).2 =
        (Adts.header 3 48000 2 ++ [5, 2, 3], .ok ()) := by
  have hstand : Standing sampleUses ⟨48000, 2, 96000, 2, .ok 1024⟩ :=
    ⟨sampleUses.take 2, sampleUses.drop 3, rfl, Opening.succeeds_iff.2 ⟨1024, rfl, by decide⟩,
      by decide⟩
  obtain ⟨hopen, hholds, -, hencode⟩ := sessions_hold sampleUses
  obtain ⟨hlen, -, hrate, hch⟩ := hholds _ hstand
  have ho : (new.uses sampleUses).isOpen = true := hopen.2 ⟨_, hstand⟩
  obtain ⟨-, hok, hleft, -⟩ := hencode ⟨[5], .ok 3⟩ [7]
  have hresult : ((new.uses sampleUses).encode ⟨[5], .ok 3⟩ [7]).2.2 = .ok () :=
    (hok ho).2 rfl
  have hraw : ((new.uses sampleUses).encode ⟨[5], .ok 3⟩ [7]).1.rawBuffer.take 3 = [5, 2, 3] := by
    decide +kernel
  refine ⟨ho, (Except.ok.inj hlen).symm, hrate, Prod.ext ?_ hresult⟩
  rcases hleft hresult with ⟨h0, -⟩ | ⟨n, hn, -, -, h⟩
  · cases h0
  · cases hn
    rw [h, hrate, hch, hraw]

end MicStream.Encoder
