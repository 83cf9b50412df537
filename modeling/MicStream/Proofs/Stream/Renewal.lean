import MicStream.Proofs.Stream.Announcements
/-!
# A streamer that is used again

The number of sessions that a streamer has begun and the trace of what it told
are its memory of the past, and no step depends on them but for the numbers
that it gives. So a streamer whose session is over goes on as a new one.

Results:
* `step_behind`: a step of a streamer with a past.
* `Vacant.preparing`: a start finds a streamer as good as new.
-/
namespace MicStream

def Notice.behind (begun : Nat) : Notice → Notice
  | .told n e => .told (begun + n) e
  | .answered a => .answered a

def Session.behind (begun : Nat) (x : Session) : Session := { x with number := begun + x.number }

namespace State

/-- A streamer that has already begun so many sessions, and told what is in a trace. -/
def behind (begun : Nat) (past : List Notice) (s : State) : State :=
  { s with
    begun := begun + s.begun
    session := s.session.map (Session.behind begun)
    trace := s.trace.map (Notice.behind begun) ++ past }

section Behind
variable (begun : Nat) (past : List Notice) (s : State) (x : Session)

theorem behind_rig : (s.behind begun past).rig = s.rig := rfl

theorem behind_owner : (s.behind begun past).owner = s.owner := rfl

theorem behind_session :
    (s.behind begun past).session = s.session.map (Session.behind begun) := rfl

theorem signal_behind (a : Afterwards) :
    (s.behind begun past).signal a = (s.signal a).behind begun past := by
  obtain ⟨rig, listening, running, _ | x, owner, k, trace, streams, codecs⟩ := s
  · cases a <;> rfl
  · rfl

theorem reclaim_behind (a : Afterwards) :
    (s.behind begun past).reclaim (x.behind begun) a = (s.reclaim x a).behind begun past := by
  obtain ⟨rig, _ | _, running, session, owner, k, trace, streams, codecs⟩ := s <;>
  obtain ⟨n, p, _ | _, signalled, queues, producer, encoder, localizer⟩ := x <;>
  cases a <;> rfl

theorem openCodec_behind (settings : StreamSettings) (audio : AudioConfig)
    (localizer : Option (Localizer Float32)) (capture : Capture) :
    (s.behind begun past).openCodec settings audio localizer capture =
      (s.openCodec settings audio localizer capture).behind begun past := by
  unfold openCodec
  simp only [behind_rig]
  rcases Encoder.new.init _ (s.rig.codec.answer _) with ⟨encoder, e | u⟩ <;> rfl

theorem prepare_behind (settings : StreamSettings) :
    (s.behind begun past).prepare settings = (s.prepare settings).behind begun past := by
  unfold prepare
  simp only [behind_rig]
  rcases settings.resolve? s.rig.geometry with _ | ⟨audio, localizer⟩
  · rfl
  · dsimp only
    rcases Capture.new.openStream settings.card settings.device audio s.rig.device.refusal with
      ⟨capture, effects, e | u⟩
    · rfl
    · exact openCodec_behind begun past { s with
        streams := Capture.live s.streams effects
        rig := { s.rig with
          captured := some ⟨settings.card, settings.device, Capture.request audio⟩ } }
        settings audio localizer capture

theorem spawn_behind (w : Worker) :
    (s.behind begun past).spawn (x.behind begun) w = (s.spawn x w).behind begun past := by
  cases w <;> rfl

theorem announce_behind :
    (s.behind begun past).announce (x.behind begun) = (s.announce x).behind begun past := by
  obtain ⟨rig, _ | _, running, session, owner, k, trace, streams, codecs⟩ := s <;> rfl

theorem abandon_behind :
    (s.behind begun past).abandon (x.behind begun) = (s.abandon x).behind begun past := by
  unfold abandon
  obtain ⟨n, p, announced, signalled, queues, ⟨pstage, capture⟩, ⟨estage, coding⟩, localizer⟩ := x
  by_cases hp : pstage = .ready <;>
  by_cases he : estage = .ready ∧ coding.encoder.isOpen = true <;>
  simp [Session.behind, hp, he] <;> rfl

theorem read_behind :
    (s.behind begun past).read (x.behind begun) = (s.read x).map (behind begun past) := by
  obtain ⟨⟨device, codec, geometry, now, captured, coded, blocks, encoded⟩, listening, running,
    session, owner, k, trace, streams, codecs⟩ := s
  obtain ⟨refusal, _ | ⟨p, ps⟩, _ | _⟩ := device <;> rfl

theorem producerStep_behind :
    (s.behind begun past).producerStep (x.behind begun) =
      (s.producerStep x).map (behind begun past) := by
  have hr := read_behind begun past s x
  obtain ⟨n, p, announced, signalled, queues, ⟨pstage, capture⟩, encoder, localizer⟩ := x
  cases pstage with
  | reading => exact hr
  | pushingEncode push =>
    unfold producerStep
    dsimp only [Session.behind]
    rcases push.step queues.encode.queue with ⟨_ | _, q⟩ <;> rfl
  | pushingLocalize push =>
    unfold producerStep
    dsimp only [Session.behind]
    rcases push.step queues.localize.queue with ⟨_ | _, q⟩ <;> rfl
  | _ => rfl

theorem codeBlock_behind :
    (s.behind begun past).codeBlock (x.behind begun) = (s.codeBlock x).behind begun past := by
  unfold codeBlock
  simp only [behind_rig]
  obtain ⟨n, p, announced, signalled, queues, producer, encoder, localizer⟩ := x
  dsimp only [Session.behind]
  rcases encoder.coding.block (s.rig.codec.reply (encoder.coding.nextBlock :: s.rig.blocks))
    with ⟨c, e | _ | p⟩
  · rfl
  · rfl
  · obtain ⟨rig, _ | _, running, session, owner, k, trace, streams, codecs⟩ := s <;> rfl

theorem encoderStep_behind :
    (s.behind begun past).encoderStep (x.behind begun) =
      (s.encoderStep x).map (behind begun past) := by
  have hc := codeBlock_behind begun past s x
  obtain ⟨n, p, announced, signalled, queues, producer, ⟨stage, coding⟩, localizer⟩ := x
  cases stage with
  | waiting =>
    unfold encoderStep
    dsimp only [Session.behind]
    rcases queues.encode.receive with ⟨_ | _ | _, q⟩ <;> rfl
  | coding => exact congrArg some hc
  | _ => rfl

theorem localizerStep_behind :
    (s.behind begun past).localizerStep (x.behind begun) =
      (s.localizerStep x).map (behind begun past) := by
  obtain ⟨n, p, announced, signalled, queues, producer, encoder, _ | ⟨stage, tracker⟩⟩ := x
  · rfl
  cases stage with
  | waiting =>
    unfold localizerStep
    dsimp only [Session.behind]
    rcases queues.localize.receive with ⟨_ | _ | _, q⟩ <;> rfl
  | holding f =>
    unfold localizerStep locate
    obtain ⟨rig, _ | _, running, session, owner, k, trace, streams, codecs⟩ := s
    · rfl
    · dsimp only [Session.behind]
      rcases tracker.track f with ⟨_ | v, t⟩ <;> rfl
  | _ => rfl

theorem encoderQuits_behind :
    (s.behind begun past).encoderQuits (x.behind begun) =
      (s.encoderQuits x).map (behind begun past) := by
  unfold encoderQuits
  show (if x.encoder.stage = .waiting ∧ x.signalled then _ else _) = _
  split <;> rfl

theorem localizerQuits_behind :
    (s.behind begun past).localizerQuits (x.behind begun) =
      (s.localizerQuits x).map (behind begun past) := by
  obtain ⟨n, p, announced, signalled, queues, producer, encoder, _ | l⟩ := x
  · rfl
  unfold localizerQuits
  show (if l.stage = .waiting ∧ signalled then _ else _) = _
  dsimp only
  split <;> rfl

theorem ownerStep_behind :
    (s.behind begun past).ownerStep = s.ownerStep.map (behind begun past) := by
  have he : ∀ x : Session, (x.behind begun).ended = x.ended := fun _ => rfl
  simp only [ownerStep, behind_owner, behind_session]
  cases s.owner with
  | preparing settings => simp only [prepare_behind, Option.map_some]
  | joining a =>
    cases s.session with
    | none => rfl
    | some x =>
      simp only [Option.map_some, he, reclaim_behind]
      split <;> rfl
  | spawning w =>
    cases s.session with
    | none => rfl
    | some x => simp only [Option.map_some, spawn_behind]
  | announcing =>
    cases s.session with
    | none => rfl
    | some x => simp only [Option.map_some, announce_behind]
  | _ => rfl

theorem spawnFails_behind (cause : String) :
    (s.behind begun past).spawnFails cause = (s.spawnFails cause).map (behind begun past) := by
  simp only [spawnFails, behind_owner, behind_session]
  cases s.owner with
  | spawning w =>
    cases s.session with
    | none => rfl
    | some x => simp only [Option.map_some, abandon_behind, signal_behind]
  | _ => rfl

theorem bind_behind {f g : Session → Option State}
    (h : ∀ x, g (x.behind begun) = (f x).map (behind begun past)) :
    (s.behind begun past).session.bind g = (s.session.bind f).map (behind begun past) := by
  rw [behind_session]
  cases s.session with
  | none => rfl
  | some x => exact h x

/-- What a streamer does does not depend on what it did before. -/
theorem step_behind (l : Label) :
    (s.behind begun past).step l = (s.step l).map (behind begun past) := by
  cases l with
  | equip rig =>
    have hall : (s.behind begun past).session.all Session.ended = s.session.all Session.ended := by
      unfold behind
      cases s.session <;> rfl
    simp only [step, behind_owner, hall]
    split <;> rfl
  | letGo => rfl
  | start settings =>
    have hr : (s.behind begun past).running = s.running := rfl
    simp only [step, beginStart, behind_owner, hr, signal_behind]
    split
    · split <;> rfl
    · rfl
  | stop =>
    simp only [step, behind_owner, signal_behind]
    split <;> rfl
  | owner => exact ownerStep_behind begun past s
  | spawnFails cause => exact spawnFails_behind begun past s cause
  | producer => exact bind_behind begun past s (producerStep_behind begun past s)
  | encoder => exact bind_behind begun past s (encoderStep_behind begun past s)
  | encoderQuits => exact bind_behind begun past s (encoderQuits_behind begun past s)
  | localizer => exact bind_behind begun past s (localizerStep_behind begun past s)
  | localizerQuits => exact bind_behind begun past s (localizerQuits_behind begun past s)

theorem steps_behind (ls : List Label) :
    (s.behind begun past).steps ls = (s.steps ls).map (behind begun past) := by
  induction ls generalizing s with
  | nil => rfl
  | cons l ls ih =>
    simp only [steps, step_behind]
    cases s.step l with
    | none => rfl
    | some t => exact ih t

end Behind

/-- A session is set up as by a streamer that was never started. -/
theorem Vacant.preparing {s : State} {settings : StreamSettings} (h : Vacant s)
    (ho : s.owner = .preparing settings) (ls : List Label) :
    s.steps ls = (((State.new s.rig s.listening).beginStart settings).steps ls).map
      (behind s.begun s.trace) := by
  rw [← steps_behind]
  congr 1
  obtain ⟨rig, listening, running, session, owner, begun, trace, streams, codecs⟩ := s
  obtain ⟨rfl, rfl, rfl, rfl⟩ := h
  obtain rfl : owner = .preparing settings := ho
  rfl

end State

end MicStream
