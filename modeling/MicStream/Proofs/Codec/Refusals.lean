import Mathlib.Data.List.Induction
import MicStream.Proofs.Codec.Sessions
/-!
# Openings that fail

What an encoder is opened with is stored piece by piece. Rate and channels are
stored behind both ways in which an opening fails, so they are those of the
last opening that succeeded. The frame length is stored between the two. A
session that is refused leaves it alone, but one whose blocks have no length is
given up only when its length has been noted. So the frame length is that of the
last session that the codec granted, whether it was kept or given up, and it is
zero until the codec grants another.

Results:
* `make_cases`: the three ways in which an opening goes.
* `frameLength_use`, `rate_channels_use`: what one use does to the parameters.
* `field_uses`: where they come from after any uses.
* `make_of_failed`: the encoder after an opening that fails.
* `failed_opening`: what such an opening leaves, and when there is no frame length.
-/
namespace MicStream.Encoder

/-! ## One opening -/

inductive Made (e : Encoder) (o : Opening) : Encoder × Except EncoderError Unit → Prop where
  | refused (cause : String) (ha : o.answer = .error cause) :
      Made e o (e.close,
        .error (.openFailed (params o.sampleRate o.channels o.bitRate o.aot) cause))
  | lengthless (ha : o.answer = .ok 0) :
      Made e o ({ e.close with frameLength := 0 }, .error .zeroFrameLength)
  | kept (n : Nat) (ha : o.answer = .ok n) (hn : 0 < n) :
      Made e o (⟨true, n, o.sampleRate, o.channels, e.rawBuffer⟩, .ok ())

theorem make_cases (e : Encoder) (o : Opening) : Made e o (o.make e) := by
  unfold Opening.make init
  cases ha : o.answer with
  | error cause => exact .refused cause ha
  | ok n =>
    by_cases hn : n = 0
    · subst hn
      exact .lengthless ha
    · simp only [if_neg hn]
      exact .kept n ha (Nat.pos_of_ne_zero hn)

/-! ## Any uses -/

/-- The frame length that the codec reports, if it grants a session. -/
def Use.reported : Use → Option Nat
  | .init o => o.answer.toOption
  | _ => none

/-- The opening, if its session is granted and has a frame length. -/
def Use.kept : Use → Option Opening
  | .init o => if o.answer.toOption.any (0 < ·) then some o else none
  | _ => none

theorem frameLength_use (e : Encoder) (u : Use) :
    (e.use u).frameLength = u.reported.getD e.frameLength := by
  cases u with
  | init o =>
    have hmade := make_cases e o
    simp only [use, Use.reported]
    generalize o.make e = r at hmade
    cases hmade with
    | refused cause ha | lengthless ha | kept n ha => rw [ha]; rfl
  | encode reply out => exact (encode_frame e reply out).2.1
  | close => rfl

theorem rate_channels_use (e : Encoder) (u : Use) :
    (e.use u).sampleRate = (u.kept.map (·.sampleRate)).getD e.sampleRate ∧
      (e.use u).channels = (u.kept.map (·.channels)).getD e.channels := by
  cases u with
  | init o =>
    have hmade := make_cases e o
    simp only [use, Use.kept]
    generalize o.make e = r at hmade
    cases hmade with
    | refused cause ha | lengthless ha => rw [ha]; exact ⟨rfl, rfl⟩
    | kept n ha hn =>
      have hany : o.answer.toOption.any (0 < ·) = true := by
        rw [ha]
        exact decide_eq_true hn
      rw [if_pos hany]
      exact ⟨rfl, rfl⟩
  | encode reply out => exact (encode_frame e reply out).2.2
  | close => exact ⟨rfl, rfl⟩

/-- A field that some uses set and all others leave alone has the value of the last that set it. -/
theorem field_uses {β : Type} (field : Encoder → β) (value : Use → Option β)
    (huse : ∀ e u, field (e.use u) = (value u).getD (field e)) (e : Encoder) (us : List Use) :
    field (e.uses us) = (us.filterMap value).getLast?.getD (field e) := by
  induction us using List.reverseRecOn with
  | nil => rfl
  | append_singleton us u ih =>
    rw [uses_concat, huse, ih, List.filterMap_append]
    cases hvalue : value u with
    | none => simp [hvalue]
    | some b => simp [hvalue]

section Uses
variable (us : List Use)

theorem frameLength_uses :
    (new.uses us).frameLength = (us.filterMap Use.reported).getLast?.getD 1024 :=
  field_uses (·.frameLength) Use.reported frameLength_use new us

theorem sampleRate_uses :
    (new.uses us).sampleRate =
      (us.filterMap fun u => u.kept.map (·.sampleRate)).getLast?.getD 16000 :=
  field_uses (·.sampleRate) _ (fun e u => (rate_channels_use e u).1) new us

theorem channels_uses :
    (new.uses us).channels =
      (us.filterMap fun u => u.kept.map (·.channels)).getLast?.getD 1 :=
  field_uses (·.channels) _ (fun e u => (rate_channels_use e u).2) new us

/-- There is no frame length exactly if the last session granted had none. -/
theorem frameLength_uses_eq_zero_iff :
    (new.uses us).frameLength = 0 ↔ (us.filterMap Use.reported).getLast? = some 0 := by
  rw [frameLength_uses]
  cases (us.filterMap Use.reported).getLast? with
  | none => simp
  | some n => simp

end Uses

/-! ## Openings that fail -/

/-- An opening that fails closes the encoder and stores what frame length the codec reports. -/
theorem make_of_failed {e : Encoder} {o : Opening} (h : ¬ o.Succeeds e) :
    (o.make e).1 = { e.close with frameLength := o.answer.toOption.getD e.frameLength } := by
  have hmade := make_cases e o
  rw [Opening.Succeeds] at h
  generalize o.make e = r at hmade h
  cases hmade with
  | refused cause ha | lengthless ha => rw [ha]; rfl
  | kept => exact absurd rfl h

/-- Every encoder and every opening that fails, which are those that the codec refuses and those
whose session has blocks of no length. The encoder is closed, with its rate, its channels and its
raw buffer as they were. Its frame length is as it was after a refusal, and zero after the others.
Whatever is done with a new encoder, rate and channels are those of the last opening that succeeded,
and the frame length is that of the last session that was granted: there is none exactly if this had
none, and an open encoder always has one. -/
theorem failed_opening (us : List Use) :
    (∀ (e : Encoder) (o : Opening),
      (¬ o.Succeeds e ↔ (∃ cause, o.answer = .error cause) ∨ o.answer = .ok 0) ∧
      (¬ o.Succeeds e → (o.make e).1.isOpen = false ∧
        (o.make e).1.sampleRate = e.sampleRate ∧ (o.make e).1.channels = e.channels ∧
        (o.make e).1.rawBuffer = e.rawBuffer) ∧
      (∀ cause, o.answer = .error cause → (o.make e).1.frameLength = e.frameLength) ∧
      (o.answer = .ok 0 → (o.make e).1.frameLength = 0)) ∧
    (new.uses us).sampleRate =
      (us.filterMap fun u => u.kept.map (·.sampleRate)).getLast?.getD 16000 ∧
    (new.uses us).channels = (us.filterMap fun u => u.kept.map (·.channels)).getLast?.getD 1 ∧
    (new.uses us).frameLength = (us.filterMap Use.reported).getLast?.getD 1024 ∧
    ((new.uses us).frameLength = 0 ↔ (us.filterMap Use.reported).getLast? = some 0) ∧
    ((new.uses us).isOpen = true → 0 < (new.uses us).frameLength) := by
  refine ⟨fun e o => ?_, sampleRate_uses us, channels_uses us, frameLength_uses us,
    frameLength_uses_eq_zero_iff us, fun hopen => ?_⟩
  · have hlength : (o.make e).1.frameLength = o.answer.toOption.getD e.frameLength :=
      frameLength_use e (.init o)
    refine ⟨?_, fun h => ?_, fun cause ha => ?_, fun ha => ?_⟩
    · rw [Opening.succeeds_iff]
      cases o.answer with
      | error cause => simp
      | ok n => simp
    · rw [make_of_failed h]
      exact ⟨rfl, rfl, rfl, rfl⟩
    · rw [hlength, ha]
      rfl
    · rw [hlength, ha]
      rfl
  · obtain ⟨o, h⟩ := exists_standing us hopen
    exact h.holds.frameLength_pos

/-- A session is kept, the next is given up for want of a frame length, and another is refused. -/
def sampleRefusals : List Use :=
  [.init ⟨48000, 2, 96000, 2, .ok 512⟩, .init ⟨8000, 1, 64000, 0, .ok 0⟩,
    .init ⟨44100, 1, 64000, 0, .error "busy"⟩]

/-- The rate is that of the first, and the frame length that of the second. -/
theorem failed_opening_sample :
    ¬ (⟨8000, 1, 64000, 0, .ok 0⟩ : Opening).Succeeds (new.uses (sampleRefusals.take 1)) ∧
    (new.uses sampleRefusals).isOpen = false ∧ (new.uses sampleRefusals).sampleRate = 48000 ∧
    (new.uses sampleRefusals).channels = 2 ∧ (new.uses sampleRefusals).frameLength = 0 := by
  obtain ⟨hopening, hrate, hchannels, -, hzero, hpos⟩ := failed_opening sampleRefusals
  obtain ⟨hfails, -⟩ :=
    hopening (new.uses (sampleRefusals.take 1)) ⟨8000, 1, 64000, 0, .ok 0⟩
  have hlength : (new.uses sampleRefusals).frameLength = 0 := hzero.2 rfl
  have hclosed : (new.uses sampleRefusals).isOpen = false := by
    rw [← Bool.not_eq_true]
    intro hopen
    exact Nat.ne_of_gt (hpos hopen) hlength
  exact ⟨hfails.2 (.inr rfl), hclosed, hrate, hchannels, hlength⟩

/-- A new encoder is given a session whose blocks have no length: it had a frame length, and has
none now. -/
theorem failed_opening_not_atomic :
    (¬ ∀ (e : Encoder) (o : Opening), ¬ o.Succeeds e → (o.make e).1.isOpen = false ∧
      (o.make e).1.frameLength = e.frameLength ∧ (o.make e).1.sampleRate = e.sampleRate ∧
      (o.make e).1.channels = e.channels) ∧
    ¬ ∀ us : List Use, 0 < (new.uses us).frameLength := by
  have hfails : ¬ (⟨48000, 2, 64000, 2, .ok 0⟩ : Opening).Succeeds new := by
    rw [Opening.succeeds_iff]
    rintro ⟨n, hn, hpos⟩
    cases hn
    exact absurd hpos (Nat.lt_irrefl 0)
  constructor
  · intro hclaim
    obtain ⟨-, hlength, -⟩ := hclaim new ⟨48000, 2, 64000, 2, .ok 0⟩ hfails
    exact absurd hlength (by decide)
  · intro hclaim
    have hpos := hclaim [.init ⟨48000, 2, 64000, 2, .ok 0⟩]
    exact absurd hpos (by decide)

end MicStream.Encoder
