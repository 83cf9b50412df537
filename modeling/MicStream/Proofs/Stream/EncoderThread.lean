import MicStream.Proofs.Stream.Blocks
import MicStream.Proofs.Stream.Run
/-!
# The encoder of a session

Whatever the other threads do, the encoder of a session works through one
stream of samples, the first channels of the frames that it took, one behind
the other. `EncoderAt` says how far it is: it goes on, it is over with all
samples coded, or a block has failed.

Results:
* `encoder_aside`: what the other threads can do to the encoder.
* `EncoderAt.step`: a step takes the encoder from one place of its stream to
  another.
* `encoder_of_run`: where the encoder is after any run.
-/
namespace MicStream

namespace State

/-! ## Steps of the other threads -/

/-- What a step of another thread does to an encoder. -/
inductive EncoderAside (e e' : EncoderThread) : Prop where
  | same (h : e' = e)
  | spawned (hs : e.stage = .ready) (h : e' = { e with stage := .waiting })
  | abandoned (hs : e.stage = .ready)
      (h : e' = ⟨.finished, { e.coding with encoder := e.coding.encoder.close }⟩)
  | quit (hs : e.stage = .waiting) (h : e' = { e with stage := .finished })

section Aside
variable {s s' : State} {x y : Session}

theorem encoder_spawn (h : Launching s x) (w : Worker) (ho : s.owner = .spawning w)
    (hy : (s.spawn x w).session = some y) : EncoderAside x.encoder y.encoder := by
  cases w with
  | encoder => cases hy; exact .spawned (h.encoder (.inr ho)) rfl
  | _ => cases hy; exact .same rfl

theorem encoder_abandon (hy : (s.abandon x).session = some y) :
    EncoderAside x.encoder y.encoder := by
  unfold abandon at hy
  by_cases hs : x.encoder.stage = .ready
  · refine .abandoned hs ?_
    cases hy; simp [hs]
  · refine .same ?_
    cases hy; simp [hs]

theorem abandon_frame (n : Nat) :
    (s.abandon x).packets n = s.packets n ∧ (s.abandon x).rig = s.rig := by
  unfold abandon
  split <;> split <;> exact ⟨rfl, rfl⟩

theorem signal_frame (hx : s.session = some x) (a : Afterwards)
    (hy : (s.signal a).session = some y) : y.encoder = x.encoder ∧
      (∀ n, (s.signal a).packets n = s.packets n) ∧ (s.signal a).rig.blocks = s.rig.blocks := by
  simp only [signal, hx] at hy ⊢
  cases hy
  exact ⟨rfl, fun _ => rfl, trivial⟩

/-- The other threads tell no packets, give the codec no blocks and take nothing from the queue
of the encoder. -/
theorem encoder_aside {l : Label} (hl : l ≠ .encoder) (hh : Launching s x)
    (hx : s.session = some x) (hc : SessionStep s x l s') (hy : s'.session = some y) :
    EncoderAside x.encoder y.encoder ∧ (∀ n, s'.packets n = s.packets n) ∧
      s'.rig.blocks = s.rig.blocks ∧ s.taking .encoder l = [] := by
  cases hc with
  | letGo =>
    obtain rfl : x = y := by simpa [hx] using hy
    exact ⟨.same rfl, fun _ => rfl, rfl, rfl⟩
  | refused =>
    obtain rfl : x = y := by simpa [hx, answer] using hy
    exact ⟨.same rfl, fun _ => rfl, rfl, rfl⟩
  | restarted settings =>
    obtain ⟨h1, h2, h3⟩ := signal_frame hx (.start settings) hy
    exact ⟨.same h1, h2, h3, rfl⟩
  | stopped =>
    obtain ⟨h1, h2, h3⟩ := signal_frame hx .rest hy
    exact ⟨.same h1, h2, h3, rfl⟩
  | reclaimed a => rw [(reclaim_gone (s := s) x a).session] at hy; cases hy
  | spawned w ho =>
    refine ⟨encoder_spawn hh w ho hy, ?_, ?_, rfl⟩
    · intro _
      cases w <;> rfl
    · cases w <;> rfl
  | announced =>
    simp only [announce, answer, tell_session] at hy
    cases hy
    refine ⟨.same rfl, ?_, ?_, rfl⟩
    · intro n
      exact packets_tell_control _ _
    · exact congrArg Rig.blocks (tell_rig _ _)
  | spawnFailed w cause =>
    obtain ⟨z, hz⟩ : ∃ z, (s.abandon x).session = some z := ⟨_, rfl⟩
    obtain ⟨h1, h2, h3⟩ := signal_frame hz (.fail (.notSpawned cause)) hy
    refine ⟨h1 ▸ encoder_abandon hz, fun n => (h2 n).trans (abandon_frame n).1, ?_, rfl⟩
    rw [h3, (abandon_frame 0).2]
  | producer _ hc =>
    obtain ⟨r, d, q, p, -, rfl⟩ := hc.shape
    cases hy; exact ⟨.same rfl, fun _ => rfl, rfl, rfl⟩
  | encoder => exact absurd rfl hl
  | encoderQuit hs =>
    cases hy; exact ⟨.quit hs rfl, fun _ => rfl, rfl, rfl⟩
  | localizer _ hc =>
    cases hc with
    | located l f v t =>
      rw [tellAny_session] at hy
      cases hy
      refine ⟨.same rfl, fun n => ?_, congrArg Rig.blocks (tellAny_rig _ _ _), rfl⟩
      cases v with
      | none => rfl
      | some v => exact packets_tell_sighting _ _
    | _ => cases hy; exact ⟨.same rfl, fun _ => rfl, rfl, rfl⟩
  | localizerQuit => cases hy; exact ⟨.same rfl, fun _ => rfl, rfl, rfl⟩

end Aside

/-! ## Where the encoder is in its stream -/

/-- Where the encoder of session `y` is in a stream of samples. It began as `c₀`, when the codec
had been given the blocks `old`. -/
inductive EncoderAt (codec : Codec) (c₀ : Coding) (old : List (List Int16)) (stream : List Int16)
    (s : State) (y : Session) : Prop where
  | going (k : Nat) (told : List Packet) (ht : s.packets y.number = s.heard told)
      (h : Coding.At codec c₀ old stream k y.encoder.coding s.rig.blocks told)
      (hs : y.encoder.stage ≠ .finished)
      (hk : y.encoder.stage = .coding ↔ k < stream.length / c₀.blockLength)
  | through (k : Nat) (told : List Packet) (ht : s.packets y.number = s.heard told)
      (h : Coding.Upto codec c₀ old stream k y.encoder.coding.mono told)
      (hs : y.encoder.stage = .finished) (hk : k = stream.length / c₀.blockLength)
      (hg : s.rig.blocks = (c₀.firstBlocks stream k).reverse ++ old)
  | failed (k : Nat) (told : List Packet) (ht : s.packets y.number = s.heard told)
      (h : Coding.FailedAt codec c₀ old stream k y.encoder.coding.mono s.rig.blocks told)
      (hs : y.encoder.stage = .finished) (hr : s.running = false)

section EncoderAt
variable {codec : Codec} {c₀ : Coding} {old : List (List Int16)} {stream : List Int16}
  {s s' : State} {x y : Session}

/-- An encoder that has not ended goes on. -/
theorem EncoderAt.atWork (h : EncoderAt codec c₀ old stream s y)
    (hs : y.encoder.stage ≠ .finished) : ∃ k told,
      s.packets y.number = s.heard told ∧
      Coding.At codec c₀ old stream k y.encoder.coding s.rig.blocks told ∧
      (y.encoder.stage = .coding ↔ k < stream.length / c₀.blockLength) := by
  cases h with
  | going k told ht h _ hk => exact ⟨k, told, ht, h, hk⟩
  | through _ _ _ _ he => exact absurd he hs
  | failed _ _ _ _ he => exact absurd he hs

/-- An encoder that is not coding and comes to its end has coded all samples. -/
theorem EncoderAt.finish (h : EncoderAt codec c₀ old stream s x)
    (hs : x.encoder.stage ≠ .finished) (hn : x.encoder.stage ≠ .coding)
    (hf : y.encoder.stage = .finished) (hm : y.encoder.coding.mono = x.encoder.coding.mono)
    (ht : s'.packets y.number = s.packets x.number)
    (hl : s'.listening = s.listening) (hb : s'.rig.blocks = s.rig.blocks) :
    EncoderAt codec c₀ old stream s' y := by
  obtain ⟨k, told, ht', h, hk⟩ := h.atWork hs
  have hk : k = stream.length / c₀.blockLength :=
    Nat.le_antisymm h.le (Nat.le_of_not_lt fun e => hn (hk.2 e))
  refine .through k told ?_ ?_ hf hk (hb.trans h.given_eq)
  · rw [ht, ht', heard_congr hl]
  · rw [hm]
    exact h.toUpto

/-- What the other threads do leaves the encoder at its place, or brings it to its end. -/
theorem EncoderAt.aside (h : EncoderAt codec c₀ old stream s x)
    (ha : EncoderAside x.encoder y.encoder) (hw : Within s x s' y)
    (hp : ∀ n, s'.packets n = s.packets n) (hb : s'.rig.blocks = s.rig.blocks) :
    EncoderAt codec c₀ old stream s' y := by
  have ht : s'.packets y.number = s.packets x.number := by rw [hp, hw.number]
  have hheard : ∀ told : List Packet, s'.heard told = s.heard told := heard_congr hw.listening
  cases ha with
  | same e =>
    cases h with
    | going k told ht' h hs hk =>
      refine .going k told ?_ ?_ (e ▸ hs) (e ▸ hk)
      · rw [ht, ht', hheard]
      · rw [e, hb]; exact h
    | through k told ht' h hs hk hg =>
      refine .through k told ?_ (e ▸ h) (e ▸ hs) hk (hb.trans hg)
      rw [ht, ht', hheard]
    | failed k told ht' h hs hr =>
      refine .failed k told ?_ ?_ (e ▸ hs) (hw.running hr)
      · rw [ht, ht', hheard]
      · rw [e, hb]; exact h
  | spawned hs e =>
    obtain ⟨k, told, ht', h, hk⟩ := h.atWork (by simp [hs])
    refine .going k told ?_ ?_ ?_ ?_
    · rw [ht, ht', hheard]
    · rw [e, hb]; exact h
    · simp [e]
    · rw [hs] at hk
      rw [e, ← hk]
      simp
  | abandoned hs e =>
    exact h.finish (by simp [hs]) (by simp [hs]) (by rw [e]) (by rw [e]) ht hw.listening hb
  | quit hs e =>
    exact h.finish (by simp [hs]) (by simp [hs]) (by rw [e]) (by rw [e]) ht hw.listening hb

theorem taking_encoder (hx : s.session = some x) : s.taking .encoder .encoder =
    if x.encoder.stage = .waiting then
      (x.queues.encode.receive.1.toOption.map SharedFrame.frame).toList
    else [] := by
  simp [taking, hx]

/-- Behind a frame or a block the encoder codes on as long as it holds a block. -/
theorem EncoderAt.goOn {k : Nat} {told : List Packet} {c : Coding}
    (h : Coding.At codec c₀ old stream k c s.rig.blocks told) (hn : 0 < c₀.blockLength)
    (ht : s.packets y.number = s.heard told)
    (hy : y.encoder = ⟨if c.hasBlock then .coding else .waiting, c⟩) :
    EncoderAt codec c₀ old stream s y := by
  have hb := h.hasBlock_iff hn
  refine .going k told ht ?_ ?_ ?_
  · rw [hy]; exact h
  · rw [hy]; dsimp only; split <;> nofun
  · rw [hy, ← hb]; dsimp only
    cases c.hasBlock with
    | true => exact ⟨fun _ => rfl, fun _ => rfl⟩
    | false => exact ⟨nofun, nofun⟩

theorem EncoderAt.step (h : EncoderAt codec c₀ old stream s x) (hr : c₀.encoder.Ready)
    (hcodec : s.rig.codec = codec) (hx : s.session = some x) (hc : EncoderStep s x s')
    (hw : Within s x s' y) : EncoderAt codec c₀ old
      (stream ++ Coding.firstChannels (s.taking .encoder .encoder)) s' y := by
  have hy := hw.session
  have hn : 0 < c₀.blockLength := hr.frameLength_pos
  subst hcodec
  rw [taking_encoder hx]
  cases hc with
  | took a q hs hq =>
    cases hy
    obtain ⟨k, told, ht, h, -⟩ := h.atWork (by simp [hs])
    have := h.take a.frame hn
    simp only [hs, hq, if_true, Received.toOption, Option.map_some, Option.toList_some,
      Coding.firstChannels, List.flatMap_cons, List.flatMap_nil, List.append_nil]
    exact .goOn this hn ht rfl
  | ended hs hq =>
    cases hy
    simp only [hs, hq, if_true, Received.toOption, Option.map_none, Option.toList_none,
      Coding.firstChannels, List.flatMap_nil, List.append_nil]
    exact h.finish (by simp [hs]) (by simp [hs]) rfl rfl rfl rfl rfl
  | coded p c n hs hb =>
    rw [tellAny_session] at hy
    cases hy
    rw [if_neg (by simp [hs]), Coding.firstChannels, List.flatMap_nil, List.append_nil]
    obtain ⟨k, told, ht, h, hk⟩ := h.atWork (by simp [hs])
    have := h.block hr (hk.1 hs) hb
    refine @goOn _ _ _ _ _ _ (k + 1) (told ++ p.toList) c ?_ hn ?_ rfl
    · rw [tellAny_rig]
      exact this
    · rw [heard_congr (tellAny_listening _ _ _), heard_append]
      refine (packets_tellAny_packet p).trans ?_
      exact congrArg (· ++ _) ht
  | failed e c n hs hb =>
    cases hy
    rw [if_neg (by simp [hs]), Coding.firstChannels, List.flatMap_nil, List.append_nil]
    obtain ⟨k, told, ht, h, hk⟩ := h.atWork (by simp [hs])
    exact .failed k told ht (h.failed hr (hk.1 hs) hb) rfl rfl

/-- An encoder that codes has come to a block of its stream. -/
theorem EncoderAt.coding (h : EncoderAt codec c₀ old stream s y)
    (hs : y.encoder.stage = .coding) : ∃ k told,
      Coding.At codec c₀ old stream k y.encoder.coding s.rig.blocks told ∧
      k < stream.length / c₀.blockLength := by
  obtain ⟨k, told, -, h, hk⟩ := h.atWork (by simp [hs])
  exact ⟨k, told, h, hk.1 hs⟩

end EncoderAt

/-! ## Any run of a session -/

section Run
variable {s₀ s : State} {settings : StreamSettings} {x y : Session} {ls : List Label}

theorem SetUp.encoder (h : SetUp s₀ settings x) : x.encoder.coding.encoder.Ready ∧
    x.encoder.coding = Coding.new s₀.rig.now x.encoder.coding.encoder ∧
      x.encoder.stage = .ready := by
  obtain ⟨s, audio, localizer, capture, encoder, hp⟩ := h.prepared
  obtain ⟨p, answer, hinit⟩ := hp.opened
  obtain rfl := hp.session
  refine ⟨Encoder.ready_of_init (by simp [Encoder.new]) hinit, ?_, rfl⟩
  rw [hp.now]
  rfl

/-- Where the encoder is after any run of its session. -/
theorem encoder_of_run (h : SessionRun s₀ settings x ls s y) :
    EncoderAt s₀.rig.codec x.encoder.coding s₀.rig.blocks
      (Coding.firstChannels (s₀.taken .encoder ls)) s y := by
  obtain ⟨hr, hnew, hs⟩ := h.setUp.encoder
  have ht := h.setUp.untold.1
  have hm : x.encoder.coding.mono = [] := by rw [hnew]; rfl
  refine h.induction (Q := fun ls s y => EncoderAt s₀.rig.codec x.encoder.coding s₀.rig.blocks
    (Coding.firstChannels (s₀.taken .encoder ls)) s y) ?_ ?_
  · refine .going 0 [] (by rw [ht, heard_nil]) ?_ (by simp [hs]) ?_
    · have := Coding.At.start s₀.rig.codec x.encoder.coding s₀.rig.blocks
      rw [hm] at this; exact this
    · rw [hs]; simp [taken, Coding.firstChannels]
  · intro ls l s y s' y' hrun hat hc hw
    rw [taken_concat _ _ hrun.steps, Coding.firstChannels_append]
    by_cases he : l = .encoder
    · subst he
      cases hc with
      | encoder _ hc => exact hat.step hr hrun.codec hrun.session hc hw
    · obtain ⟨ha, hp, hb, htk⟩ := encoder_aside he hrun.launching hrun.session hc hw.session
      rw [htk]
      simpa [Coding.firstChannels] using hat.aside ha hw hp hb

end Run

end State

end MicStream
