import MicStream.Proofs.Stream.EncoderThread
/-!
# A stream may be cut anywhere

Periods and blocks need not agree in length. The codec is given the whole
blocks of the stream that the frames make up, and what is delivered is what
these blocks come to (`InBlocks`), up to the first that fails. So two
sessions that bring the same samples in other frames deliver the same.

Results:
* `InBlocks.payloads_unique`: what is delivered in the end is a matter of the
  stream alone.
* `coding_ends`: an encoder that codes comes to the end of its whole blocks.
* `coded_in_blocks`: all of this for every run of a session.
-/
namespace MicStream

theorem Encoder.outputs_congr {codec codec' : Codec} : ∀ (bs : List (List Int16)) (e : Encoder)
    {given given' : List (List Int16)},
    (∀ new, codec'.reply (new ++ given') = codec.reply (new ++ given)) →
      e.outputs codec' given' bs = e.outputs codec given bs
  | [], _, _, _, _ => rfl
  | b :: bs, e, given, given', h => by
    have hb := h [b]
    simp only [List.cons_append, List.nil_append] at hb
    rw [outputs, outputs, hb, outputs_congr bs _ fun new => ?_]
    have := h (new ++ [b])
    simpa using this

namespace Coding

/-- Of a stream, `k` blocks went through the codec, and with `failed` the one behind them failed:
`blocks` were given to the codec (`old` before the stream, newest first), `payloads` delivered. -/
structure InBlocks (codec : Codec) (c₀ : Coding) (old : List (List Int16)) (stream : List Int16)
    (k : Nat) (failed : Bool) (blocks : List (List Int16)) (payloads : List (List UInt8)) :
    Prop where
  le : k ≤ stream.length / c₀.blockLength
  fine : ∀ i < k, (c₀.replyAt codec old stream i).fails = false
  failure : failed = true →
    k < stream.length / c₀.blockLength ∧ (c₀.replyAt codec old stream k).fails = true
  blocks_eq : blocks = (c₀.firstBlocks stream (if failed then k + 1 else k)).reverse ++ old
  payloads_eq : payloads = (c₀.outputsAt codec old stream k).filter (· ≠ [])

section InBlocks
variable {codec codec' : Codec} {c₀ c₀' c : Coding} {old old' given : List (List Int16)}
  {stream mono : List Int16} {k k' : Nat} {failed failed' : Bool}
  {blocks blocks' : List (List Int16)} {payloads payloads' : List (List UInt8)} {told : List Packet}

theorem Upto.map_payload (h : Upto codec c₀ old stream k mono told) :
    told.map Packet.payload = (c₀.outputsAt codec old stream k).filter (· ≠ []) := by
  rw [h.told_eq, Clock.map_payload_packets]

theorem Upto.inBlocks (h : Upto codec c₀ old stream k mono told)
    (hg : given = (c₀.firstBlocks stream k).reverse ++ old) :
    InBlocks codec c₀ old stream k false given (told.map Packet.payload) :=
  ⟨h.le, h.fine, nofun, hg, h.map_payload⟩

theorem FailedAt.inBlocks (h : FailedAt codec c₀ old stream k mono given told) :
    InBlocks codec c₀ old stream k true given (told.map Packet.payload) :=
  ⟨h.le, h.fine, fun _ => ⟨h.lt, h.fails⟩, h.given_eq, h.map_payload⟩

/-- Nothing of the stream is lost between the blocks and what waits for its block to fill. -/
theorem Upto.flatten (h : Upto codec c₀ old stream k mono told) :
    (c₀.firstBlocks stream k).flatten ++ mono = stream := by
  rw [h.mono_eq]; exact flatten_take_chunks stream h.le

/-- Behind all blocks less than a block waits. -/
theorem Upto.length_mono_lt (h : Upto codec c₀ old stream k mono told) (hn : 0 < c₀.blockLength)
    (hk : k = stream.length / c₀.blockLength) : mono.length < c₀.blockLength := by
  rw [h.mono_eq, hk]; exact length_drop_chunks_lt hn stream

theorem InBlocks.append (h : InBlocks codec c₀ old stream k failed blocks payloads)
    (ys : List Int16) : InBlocks codec c₀ old (stream ++ ys) k failed blocks payloads := by
  have hle : stream.length / c₀.blockLength ≤ (stream ++ ys).length / c₀.blockLength :=
    Nat.div_le_div_right (by simp)
  have hrep : ∀ i < stream.length / c₀.blockLength,
      c₀.replyAt codec old (stream ++ ys) i = c₀.replyAt codec old stream i := fun i hi => by
    rw [replyAt, firstBlocks_append _ hi, replyAt]
  refine ⟨Nat.le_trans h.le hle, ?_, ?_, ?_, ?_⟩
  · intro i hi
    rw [hrep i (Nat.lt_of_lt_of_le hi h.le)]; exact h.fine i hi
  · intro hf
    obtain ⟨hk, hk'⟩ := h.failure hf
    exact ⟨Nat.lt_of_lt_of_le hk hle, by rw [hrep k hk]; exact hk'⟩
  · rw [firstBlocks_append]
    · exact h.blocks_eq
    · split
      · rename_i hf; exact (h.failure hf).1
      · exact h.le
  · rw [outputsAt, firstBlocks_append _ h.le]; exact h.payloads_eq

/-- Two codings of a stream whose codecs answer alike come to the same block. -/
theorem InBlocks.le_of_same (h : InBlocks codec c₀ old stream k failed blocks payloads)
    (h' : InBlocks codec' c₀' old' stream k' failed' blocks' payloads')
    (hn : c₀'.blockLength = c₀.blockLength)
    (hr : ∀ new, codec'.reply (new ++ old') = codec.reply (new ++ old))
    (hend : failed = true ∨ k = stream.length / c₀.blockLength) : k' ≤ k := by
  have hrep : ∀ i, c₀'.replyAt codec' old' stream i = c₀.replyAt codec old stream i := fun i => by
    rw [replyAt, replyAt, firstBlocks, hn, hr]; rfl
  have hle := h'.le
  rw [hn] at hle
  rcases hend with hf | hk
  · apply Nat.le_of_not_lt
    intro hlt
    have hfine := h'.fine k hlt
    rw [hrep, (h.failure hf).2] at hfine
    cases hfine
  · omega

/-- What is delivered of a stream in the end is a matter of the stream, the encoder and the
answers of the codec alone. -/
theorem InBlocks.payloads_unique (h : InBlocks codec c₀ old stream k failed blocks payloads)
    (h' : InBlocks codec' c₀' old' stream k' failed' blocks' payloads')
    (he : c₀'.encoder = c₀.encoder)
    (hr : ∀ new, codec'.reply (new ++ old') = codec.reply (new ++ old))
    (hend : failed = true ∨ k = stream.length / c₀.blockLength)
    (hend' : failed' = true ∨ k' = stream.length / c₀'.blockLength) : payloads' = payloads := by
  have hn : c₀'.blockLength = c₀.blockLength := by rw [blockLength, he]; rfl
  have hk : k' = k :=
    Nat.le_antisymm (h.le_of_same h' hn hr hend)
      (h'.le_of_same h hn.symm (fun new => (hr new).symm) hend')
  rw [h.payloads_eq, h'.payloads_eq, hk, outputsAt, outputsAt, firstBlocks, hn, he]
  rw [Encoder.outputs_congr _ _ hr]
  rfl

end InBlocks

/-! ## Any sequence of frames -/

section Frames
variable {codec : Codec} {c₀ : Coding} {old : List (List Int16)}

/-- Coding any frames gives the codec the blocks of their stream, up to the first that fails. -/
theorem frames_in_blocks (hr : c₀.encoder.Ready) (hm : c₀.mono = []) (fs : List Frame) :
    ∃ gs k, gs <+: fs ∧
      InBlocks codec c₀ old (firstChannels gs) k (frames codec c₀ old fs).failure.isSome
        (frames codec c₀ old fs).blocks ((frames codec c₀ old fs).packets.map Packet.payload) ∧
      (c₀.firstBlocks (firstChannels gs) k).flatten ++ (frames codec c₀ old fs).coding.mono =
        firstChannels gs ∧
      ((frames codec c₀ old fs).failure = none → gs = fs ∧
        k = (firstChannels fs).length / c₀.blockLength ∧
        (frames codec c₀ old fs).coding.mono.length < c₀.blockLength) := by
  rcases (At.beginning codec old hm).frames hr fs with ⟨hf, h⟩ | ⟨hf, gs, i, hgs, h⟩
  · simp only [List.nil_append] at h
    refine ⟨fs, _, List.prefix_refl fs, ?_, h.flatten, fun _ => ⟨rfl, rfl, ?_⟩⟩
    · rw [hf]; exact h.inBlocks h.given_eq
    · exact h.length_mono_lt hr.frameLength_pos rfl
  · simp only [List.nil_append] at h
    refine ⟨gs, i, hgs, ?_, h.flatten, ?_⟩
    · rw [hf]; exact h.inBlocks
    · intro he
      rw [he] at hf; cases hf

/-- Frames that bring the same samples are coded alike. -/
theorem frames_cut_alike (hr : c₀.encoder.Ready) (hm : c₀.mono = []) {fs fs' : List Frame}
    (h : firstChannels fs = firstChannels fs') :
    (frames codec c₀ old fs').packets.map Packet.payload =
      (frames codec c₀ old fs).packets.map Packet.payload := by
  have key : ∀ gs : List Frame, firstChannels gs = firstChannels fs → ∃ k failed,
      InBlocks codec c₀ old (firstChannels fs) k failed (frames codec c₀ old gs).blocks
        ((frames codec c₀ old gs).packets.map Packet.payload) ∧
      (failed = true ∨ k = (firstChannels fs).length / c₀.blockLength) := by
    intro gs hgs
    have hcoded := @frames_in_blocks codec c₀ old hr hm gs
    obtain ⟨hs, k, ⟨rest, rfl⟩, hin, -, hend⟩ := hcoded
    refine ⟨k, (frames codec c₀ old (hs ++ rest)).failure.isSome, ?_, ?_⟩
    · rw [← hgs, firstChannels_append]; exact hin.append _
    · cases hf : (frames codec c₀ old (hs ++ rest)).failure with
      | none => exact .inr (hgs ▸ (hend hf).2.1)
      | some e => exact .inl rfl
  obtain ⟨k, failed, hin, hend⟩ := key fs rfl
  obtain ⟨k', failed', hin', hend'⟩ := key fs' h.symm
  exact hin.payloads_unique hin' rfl (fun _ => rfl) hend hend'

end Frames

end Coding

/-! ## Any run of a session -/

namespace State

/-- What the loop over some frames comes to in session `x`, which was set up in state `s`. -/
def coded (s : State) (x : Session) (fs : List Frame) : Coding.Coded :=
  Coding.frames s.rig.codec x.encoder.coding s.rig.blocks fs

def stream (s : State) (ls : List Label) : List Int16 :=
  Coding.firstChannels (s.taken .encoder ls)

theorem step_of_coding {s : State} {y : Session} (hy : s.session = some y)
    (hs : y.encoder.stage = .coding) : ∃ s' z, s.step .encoder = some s' ∧ s'.session = some z ∧
      (z.encoder.stage = .finished ∨ ∃ r p c, y.encoder.coding.block r = (c, .ok p) ∧
        z.encoder = ⟨if c.hasBlock then .coding else .waiting, c⟩) := by
  have hstep : s.step .encoder = some (s.codeBlock y) := by simp [step, hy, encoderStep, hs]
  have hc := encoderStep_cases (show s.encoderStep y = some (s.codeBlock y) by
    simp [encoderStep, hs])
  generalize s.codeBlock y = s' at hstep hc
  refine ⟨s', ?_⟩
  cases hc with
  | took _ _ he | ended he => rw [hs] at he; cases he
  | failed e c k _ hb => exact ⟨_, hstep, rfl, .inl rfl⟩
  | coded p c k _ hb =>
    refine ⟨{ y with encoder := ⟨if c.hasBlock then .coding else .waiting, c⟩ }, hstep, ?_,
      .inr ⟨_, p, c, hb, rfl⟩⟩
    exact tellAny_session _ _ _

/-- An encoder that codes comes to the end of its whole blocks. -/
theorem coding_ends {n : Nat} (hn : 0 < n) : ∀ (m : Nat) {s : State} {y : Session},
    s.session = some y → y.encoder.coding.blockLength = n →
    (y.encoder.stage = .coding → y.encoder.coding.hasBlock = true) →
    y.encoder.coding.mono.length / n ≤ m →
      ∃ j ≤ m, ∃ t z, s.steps (List.replicate j .encoder) = some t ∧ t.session = some z ∧
        z.encoder.stage ≠ .coding
  | m, s, y, hy, hl, hb, hm => by
    by_cases hs : y.encoder.stage = .coding
    · have hlen : n ≤ y.encoder.coding.mono.length := hl ▸ of_decide_eq_true (hb hs)
      have hdiv : 1 ≤ y.encoder.coding.mono.length / n := (Nat.one_le_div_iff hn).2 hlen
      obtain ⟨m, rfl⟩ : ∃ m', m = m' + 1 := ⟨m - 1, by omega⟩
      obtain ⟨s', z, hstep, hz, hf | ⟨r, p, c, hblock, he⟩⟩ := step_of_coding hy hs
      · exact ⟨1, by omega, s', z, steps_cons.2 ⟨s', hstep, rfl⟩, hz, by rw [hf]; nofun⟩
      · have hlt : c.mono.length / n ≤ m := by
          have := Nat.sub_mul_div y.encoder.coding.mono.length n 1
          rw [Coding.mono_block hblock, List.length_drop, hl]
          rw [Nat.mul_one] at this
          omega
        have hgo : z.encoder.stage = .coding → z.encoder.coding.hasBlock = true := by
          rw [he]; dsimp only
          cases c.hasBlock with
          | true => exact fun _ => rfl
          | false => nofun
        obtain ⟨j, hj, t, w, ht, hw, hend⟩ := coding_ends hn m hz
          (by rw [he]; exact (Coding.blockLength_block hblock).trans hl) hgo (by rw [he]; exact hlt)
        exact ⟨j + 1, by omega, t, w, steps_cons.2 ⟨s', hstep, ht⟩, hw, hend⟩
    · exact ⟨0, Nat.zero_le m, s, y, rfl, hy, hs⟩

section Run
variable {s₀ s : State} {settings : StreamSettings} {x y : Session} {ls : List Label}

/-- How far the encoder of a session is after a run. -/
theorem EncoderAt.in_blocks {codec : Codec} {c₀ : Coding} {old : List (List Int16)}
    {stream : List Int16} (h : EncoderAt codec c₀ old stream s y) (hn : 0 < c₀.blockLength) :
    ∃ k failed payloads, Coding.InBlocks codec c₀ old stream k failed s.rig.blocks payloads ∧
      (c₀.firstBlocks stream k).flatten ++ y.encoder.coding.mono = stream ∧
      (s.packets y.number).map Packet.payload = s.heard payloads ∧
      (failed = true → y.encoder.stage = .finished ∧ s.running = false) ∧
      (y.encoder.stage ≠ .coding → failed = true ∨
        k = stream.length / c₀.blockLength ∧ y.encoder.coding.mono.length < c₀.blockLength) := by
  cases h with
  | going k told ht h hs hk =>
    refine ⟨k, false, _, h.inBlocks h.given_eq, h.flatten, by rw [ht, map_heard], nofun, ?_⟩
    intro hne
    have hk : k = stream.length / c₀.blockLength :=
      Nat.le_antisymm h.le (Nat.le_of_not_lt fun e => hne (hk.2 e))
    exact .inr ⟨hk, h.length_mono_lt hn hk⟩
  | through k told ht h hs hk hg =>
    refine ⟨k, false, _, h.inBlocks hg, h.flatten, by rw [ht, map_heard], nofun, fun _ => ?_⟩
    exact .inr ⟨hk, h.length_mono_lt hn hk⟩
  | failed k told ht h hs hr =>
    exact ⟨k, true, _, h.inBlocks, h.flatten, by rw [ht, map_heard], fun _ => ⟨hs, hr⟩,
      fun _ => .inl rfl⟩

/-- In every run of a session whose codec was opened, the encoder gives the codec the whole blocks
of the stream that its frames make up, in order, and delivers what they come to, up to the first
that fails; it comes to the end of its whole blocks by itself. The same holds of the loop over any
frames at all, and what is delivered is a matter of the stream, not of the frames. -/
theorem coded_in_blocks (h : SessionRun s₀ settings x ls s y) :
    (0 < x.encoder.coding.blockLength ∧ ∀ stream k, ∀ b ∈ x.encoder.coding.firstBlocks stream k,
      b.length = x.encoder.coding.blockLength) ∧
    (∃ k failed payloads,
      Coding.InBlocks s₀.rig.codec x.encoder.coding s₀.rig.blocks (s₀.stream ls) k failed
        s.rig.blocks payloads ∧
      (x.encoder.coding.firstBlocks (s₀.stream ls) k).flatten ++ y.encoder.coding.mono =
        s₀.stream ls ∧
      (s.packets x.number).map Packet.payload = s.heard payloads ∧
      (failed = true → y.encoder.stage = .finished ∧ s.running = false) ∧
      (y.encoder.stage ≠ .coding → failed = true ∨
        k = (s₀.stream ls).length / x.encoder.coding.blockLength ∧
        y.encoder.coding.mono.length < x.encoder.coding.blockLength)) ∧
    (∃ j ≤ y.encoder.coding.mono.length / x.encoder.coding.blockLength, ∃ t z,
      s.steps (List.replicate j .encoder) = some t ∧ t.session = some z ∧
      z.encoder.stage ≠ .coding) ∧
    (∀ fs : List Frame, ∃ gs k, gs <+: fs ∧
      Coding.InBlocks s₀.rig.codec x.encoder.coding s₀.rig.blocks (Coding.firstChannels gs) k
        (s₀.coded x fs).failure.isSome (s₀.coded x fs).blocks
        ((s₀.coded x fs).packets.map Packet.payload) ∧
      (x.encoder.coding.firstBlocks (Coding.firstChannels gs) k).flatten ++
        (s₀.coded x fs).coding.mono = Coding.firstChannels gs ∧
      ((s₀.coded x fs).failure = none → gs = fs ∧
        k = (Coding.firstChannels fs).length / x.encoder.coding.blockLength ∧
        (s₀.coded x fs).coding.mono.length <
          x.encoder.coding.blockLength)) ∧
    (∀ fs fs' : List Frame, Coding.firstChannels fs = Coding.firstChannels fs' →
      (s₀.coded x fs').packets.map Packet.payload =
        (s₀.coded x fs).packets.map Packet.payload) ∧
    (∀ {s₀' settings' x' ls' s' y'}, SessionRun s₀' settings' x' ls' s' y' →
      x'.encoder.coding.encoder = x.encoder.coding.encoder →
      (∀ new, s₀'.rig.codec.reply (new ++ s₀'.rig.blocks) =
        s₀.rig.codec.reply (new ++ s₀.rig.blocks)) →
      s₀'.stream ls' = s₀.stream ls → y.encoder.stage ≠ .coding → y'.encoder.stage ≠ .coding →
      s'.listening = s.listening →
        (s'.packets x'.number).map Packet.payload = (s.packets x.number).map Packet.payload) := by
  obtain ⟨hr, hnew, -⟩ := h.setUp.encoder
  have hm : x.encoder.coding.mono = [] := by rw [hnew]; rfl
  have hn := hr.frameLength_pos
  have hat := encoder_of_run h
  obtain ⟨k, failed, payloads, hin, hflat, htold, hfail, hend⟩ := hat.in_blocks hn
  rw [h.number] at htold
  refine ⟨⟨hn, fun stream k b hb => ?_⟩, ⟨k, failed, payloads, hin, hflat, htold, hfail, hend⟩,
    ?_, Coding.frames_in_blocks hr hm, fun _ _ => Coding.frames_cut_alike hr hm, ?_⟩
  · exact length_of_mem_chunks (List.mem_of_mem_take hb)
  · by_cases hs : y.encoder.stage = .coding
    · obtain ⟨k, told, hat, hk⟩ := hat.coding hs
      exact coding_ends hn _ h.session hat.blockLength_eq (fun _ => (hat.hasBlock_iff hn).2 hk)
        (Nat.le_refl _)
    · exact ⟨0, Nat.zero_le _, s, y, rfl, h.session, hs⟩
  · intro s₀' settings' x' ls' s' y' h' he hrep hst hs hs' hl
    have hn' := h'.setUp.encoder.1.frameLength_pos
    obtain ⟨k', failed', payloads', hin', -, htold', -, hend'⟩ := (encoder_of_run h').in_blocks hn'
    rw [h'.number] at htold'
    rw [htold', htold, heard_congr hl]
    congr 1
    have hin' : Coding.InBlocks _ _ _ (s₀'.stream ls') _ _ _ _ := hin'
    have hend' : y'.encoder.stage ≠ .coding → _ ∨ k' = (s₀'.stream ls').length / _ ∧ _ := hend'
    rw [hst] at hin' hend'
    exact hin.payloads_unique hin' he hrep ((hend hs).imp_right And.left)
      ((hend' hs').imp_right And.left)

end Run

/-- The threads are spawned; then two periods of three samples go through the codec in three
blocks of two. -/
def sampleLabels : List Label :=
  [.owner, .owner, .owner, .producer, .producer, .producer, .producer, .encoder, .encoder,
    .producer, .producer, .producer, .encoder, .encoder, .encoder]

theorem coded_in_blocks_sample : ∃ s₀ x s y,
    SessionRun s₀ sampleSettings x sampleLabels s y ∧ s.listening = true ∧
      s.rig.blocks = [[5, 6], [3, 4], [1, 2]] ∧ y.encoder.stage = .waiting ∧
      0 < x.encoder.coding.blockLength ∧
      ∃ k failed, Coding.InBlocks s₀.rig.codec x.encoder.coding s₀.rig.blocks
        (s₀.stream sampleLabels) k failed s.rig.blocks
        ((s.packets x.number).map Packet.payload) := by
  have hrun : ((State.new sampleRig true).steps [.start sampleSettings, .owner]).any (fun s₀ =>
      decide (s₀.owner = .spawning .producer) && s₀.session.any fun x =>
        (s₀.steps sampleLabels).any fun s => s.session.any fun y =>
          decide (y.number = x.number ∧ s.listening = true ∧
            s.rig.blocks = [[5, 6], [3, 4], [1, 2]] ∧ y.encoder.stage = .waiting)) = true := by
    decide +kernel
  simp only [Option.any_eq_true, Bool.and_eq_true, decide_eq_true_eq] at hrun
  obtain ⟨s₀, h₀, ho, x, hx, s, hs, y, hy, hnum, hlisten, hblocks, hwait⟩ := hrun
  have hkeeps : ∀ l ∈ sampleLabels, l.equips = false := by
    simp [sampleLabels, Label.equips]
  have h : SessionRun s₀ sampleSettings x sampleLabels s y :=
    ⟨.first h₀ ho hx, hs, hkeeps, hy, hnum⟩
  obtain ⟨⟨hn, -⟩, ⟨k, failed, payloads, hin, -, htold, -⟩, -⟩ := coded_in_blocks h
  refine ⟨s₀, x, s, y, h, hlisten, hblocks, hwait, hn, k, failed, ?_⟩
  rw [htold, heard_of_listening hlisten]
  exact hin

end State

end MicStream
