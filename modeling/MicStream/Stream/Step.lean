import MicStream.Stream.State
/-!
# Steps of a streamer

`State.step` is one atomic step of one thread. Operations on a queue, on the
running flag and on the device are single steps, so that the steps of the
threads may be interleaved in every order; a label that is not enabled gives
nothing. A consumer that waits may take a frame, end because the producer is
gone, or end because it was asked to; where several are possible, each is a
step of its own.
-/
namespace MicStream

/-- Who makes a step, or what is asked of the owner. -/
inductive Label where
  /-- Other hardware takes the place of the old, between sessions. -/
  | equip (rig : Rig)
  /-- A held device is let go. -/
  | letGo
  | start (settings : StreamSettings)
  | stop
  | owner
  /-- The next thread cannot be spawned. -/
  | spawnFails (cause : String)
  | producer
  | encoder
  | encoderQuits
  | localizer
  | localizerQuits

namespace State

/-! ## The owner -/

def goOn (s : State) : Afterwards → State
  | .rest => { s with owner := .idle }
  | .start settings => { s with owner := .preparing settings }
  | .fail e => { s with owner := .idle }.answer (.error e)

/-- The owner clears the running flag and asks the threads of the session to end, if there is one.
mirrors `MicrophoneAdtsStreamer.stop`, up to the joins -/
def signal (s : State) (afterwards : Afterwards) : State :=
  let s := { s with running := false }
  match s.session with
  | none => s.goOn afterwards
  | some x => { s with session := some { x with signalled := true }, owner := .joining afterwards }

/-- The owner is asked to start a session.
mirrors `MicrophoneAdtsStreamer.start`, up to its stop of a dead session -/
def beginStart (s : State) (settings : StreamSettings) : State :=
  if s.running then s.answer (.error .alreadyRunning) else s.signal (.start settings)

/-- The owner releases the device and the codec of a session whose threads have ended, and tells
its stop if its start was told.
mirrors `MicrophoneAdtsStreamer.stop`, behind the joins -/
def reclaim (s : State) (x : Session) (afterwards : Afterwards) : State :=
  let s := { s with
    session := none
    streams := Capture.live s.streams x.producer.capture.close.2
    codecs := if x.encoder.coding.encoder.isOpen then s.codecs - 1 else s.codecs }
  let s := if x.announced then s.tell x.number (.control ⟨false, x.params⟩) else s
  s.goOn afterwards

/-- A session that is set up but has no thread yet.
mirrors `MicrophoneAdtsStreamer.start`, its session -/
def setUp (s : State) (settings : StreamSettings) (audio : AudioConfig)
    (localizer : Option (Localizer Float32)) (capture : Capture) (encoder : Encoder) : Session where
  number := s.begun
  params := ⟨audio.sampleRate, 1, settings.params.bitRate, effectiveAot settings.params.aot⟩
  announced := false
  signalled := false
  queues := .new settings.queueSize
  producer := ⟨.ready, capture⟩
  encoder := ⟨.ready, .new s.rig.now encoder⟩
  localizer := localizer.map fun l => ⟨.ready, .new l settings.gateLowConfidence⟩

/-- The owner opens the codec for a capture that is open.
mirrors `MicrophoneAdtsStreamer.start`, from the codec to the session -/
def openCodec (s : State) (settings : StreamSettings) (audio : AudioConfig)
    (localizer : Option (Localizer Float32)) (capture : Capture) : State :=
  let params := Encoder.params audio.sampleRate 1 settings.params.bitRate settings.params.aot
  let reply := s.rig.codec.answer params
  let s := { s with rig := { s.rig with
    coded := match reply with
      | .ok _ => some params
      | .error _ => s.rig.coded } }
  match Encoder.new.init params reply with
  | (_, .error e) =>
    { s with owner := .idle, streams := Capture.live s.streams capture.close.2 }.answer
      (.error (.encoder e))
  | (encoder, .ok ()) =>
    { s with
      running := true
      session := some (s.setUp settings audio localizer capture encoder)
      begun := s.begun + 1
      codecs := s.codecs + 1
      owner := .spawning .producer }

/-- The owner opens the device and the codec.
mirrors `MicrophoneAdtsStreamer.start`, up to the session -/
def prepare (s : State) (settings : StreamSettings) : State :=
  match settings.resolve? s.rig.geometry with
  | none => { s with owner := .crashed }
  | some (audio, localizer) =>
    match Capture.new.openStream settings.card settings.device audio s.rig.device.refusal with
    | (_, effects, .error e) =>
      { s with owner := .idle, streams := Capture.live s.streams effects }.answer
        (.error (.capture e))
    | (capture, effects, .ok ()) =>
      { s with
        streams := Capture.live s.streams effects
        rig := { s.rig with
          captured := some ⟨settings.card, settings.device, Capture.request audio⟩ } }.openCodec
        settings audio localizer capture

/-- The owner spawns a thread.
mirrors one thread of `MicrophoneAdtsStreamer.spawn_workers` -/
def spawn (s : State) (x : Session) : Worker → State
  | .producer =>
    { s with
      session := some { x with producer := { x.producer with stage := .checking } }
      owner := .spawning .encoder }
  | .encoder =>
    { s with
      session := some { x with encoder := { x.encoder with stage := .waiting } }
      owner := if x.localizer.isSome then .spawning .localizer else .announcing }
  | .localizer =>
    { s with
      session := some { x with localizer := x.localizer.map fun l => { l with stage := .waiting } }
      owner := .announcing }

/-- The threads that were not spawned are given up with what they own.
mirrors `MicrophoneAdtsStreamer.spawn_workers`, where it fails -/
def abandon (s : State) (x : Session) : State :=
  let s :=
    if x.producer.stage = .ready then
      { s with streams := Capture.live s.streams x.producer.capture.close.2 }
    else s
  let s :=
    if x.encoder.stage = .ready ∧ x.encoder.coding.encoder.isOpen then
      { s with codecs := s.codecs - 1 }
    else s
  let producer : Producer :=
    if x.producer.stage = .ready then ⟨.finished, x.producer.capture.close.1⟩ else x.producer
  let encoder : EncoderThread :=
    if x.encoder.stage = .ready then
      ⟨.finished, { x.encoder.coding with encoder := x.encoder.coding.encoder.close }⟩
    else x.encoder
  let localizer := x.localizer.map fun l =>
    if l.stage = .ready then { l with stage := .finished } else l
  let queues := if x.producer.stage = .ready then x.queues.close else x.queues
  { s with session := some { x with queues, producer, encoder, localizer } }

/-- The owner tells the start of the session.
mirrors `MicrophoneAdtsStreamer.start`, its end -/
def announce (s : State) (x : Session) : State :=
  ({ s with session := some { x with announced := true }, owner := .idle }.tell x.number
    (.control ⟨true, x.params⟩)).answer (.ok ())

/-- The next step of the owner. -/
def ownerStep (s : State) : Option State :=
  match s.owner, s.session with
  | .preparing settings, _ => some (s.prepare settings)
  | .joining afterwards, some x => if x.ended then some (s.reclaim x afterwards) else none
  | .spawning w, some x => some (s.spawn x w)
  | .announcing, some x => some (s.announce x)
  | _, _ => none

/-- A thread cannot be spawned: the session ends before it was told. -/
def spawnFails (s : State) (cause : String) : Option State :=
  match s.owner, s.session with
  | .spawning _, some x => some ((s.abandon x).signal (.fail (.notSpawned cause)))
  | _, _ => none

/-! ## The threads of a session -/

/-- The producer reads a period; when the device fails the session does.
mirrors `produce`, its read -/
def read (s : State) (x : Session) : Option State :=
  match s.rig.device.periods with
  | [] =>
    if s.rig.device.held then none
    else
      let (capture, _, _) := x.producer.capture.readSplit ⟨[], some Device.exhausted⟩ []
      some { s with
        running := false
        session := some { x with producer := ⟨.leaving, capture⟩ } }
  | p :: rest =>
    let written := Capture.resize x.producer.capture.periodLength p
    let (capture, f, _) := x.producer.capture.readSplit ⟨written, none⟩ []
    let stage :=
      if f.isEmpty then .checking else .pushingEncode (.start ⟨x.queues.pushed, f⟩)
    some { s with
      rig := { s.rig with device := { s.rig.device with periods := rest } }
      session := some { x with
        queues := { x.queues with pushed := x.queues.pushed + 1 }
        producer := ⟨stage, capture⟩ } }

/-- The next step of the producer.
mirrors `produce` -/
def producerStep (s : State) (x : Session) : Option State :=
  let go (stage : ProducerStage) (queues : FrameQueues) : Option State :=
    some { s with session := some { x with queues, producer := { x.producer with stage } } }
  match x.producer.stage with
  | .ready => none
  | .checking => go (if s.running then .reading else .leaving) x.queues
  | .reading => s.read x
  | .pushingEncode push =>
    let (progress, queue) := push.step x.queues.encode.queue
    let queues := { x.queues with encode := { x.queues.encode with queue } }
    match progress with
    | .going push => go (.pushingEncode push) queues
    | .done _ => go (.pushingLocalize (.start push.entry)) queues
  | .pushingLocalize push =>
    let (progress, queue) := push.step x.queues.localize.queue
    let queues := { x.queues with localize := { x.queues.localize with queue } }
    match progress with
    | .going push => go (.pushingLocalize push) queues
    | .done _ => go .checking queues
  | .leaving => go .leavingLocalize { x.queues with encode := x.queues.encode.close }
  | .leavingLocalize => go .finished { x.queues with localize := x.queues.localize.close }
  | .finished => none

/-- The encoder codes a block and tells the packet; when it fails the session does.
mirrors `encode_loop`, one pass of its inner loop -/
def codeBlock (s : State) (x : Session) : State :=
  let given := x.encoder.coding.nextBlock :: s.rig.blocks
  let reply := s.rig.codec.reply given
  let s := { s with rig := { s.rig with
    blocks := given
    encoded := match reply.claimed with
      | .ok _ => s.rig.encoded + 1
      | .error _ => s.rig.encoded } }
  match x.encoder.coding.block reply with
  | (coding, .error _) =>
    { s with running := false, session := some { x with encoder := ⟨.finished, coding⟩ } }
  | (coding, .ok p) =>
    let stage := if coding.hasBlock then .coding else .waiting
    let s := { s with session := some { x with encoder := ⟨stage, coding⟩ } }
    match p with
    | none => s
    | some p => s.tell x.number (.packet p)

/-- The next step of the encoder.
mirrors `encode_loop` -/
def encoderStep (s : State) (x : Session) : Option State :=
  match x.encoder.stage with
  | .waiting =>
    match x.queues.encode.receive with
    | (.entry a, encode) =>
      let coding := x.encoder.coding.take a.frame
      let stage := if coding.hasBlock then .coding else .waiting
      some { s with session := some { x with
        queues := { x.queues with encode }
        encoder := ⟨stage, coding⟩ } }
    | (.empty, _) => none
    | (.ended, _) =>
      some { s with session := some { x with encoder := { x.encoder with stage := .finished } } }
  | .coding => some (s.codeBlock x)
  | _ => none

/-- The encoder ends because it was asked to.
mirrors `encode_loop`, its branch on shutdown -/
def encoderQuits (s : State) (x : Session) : Option State :=
  if x.encoder.stage = .waiting ∧ x.signalled then
    some { s with session := some { x with encoder := { x.encoder with stage := .finished } } }
  else none

/-- The localizer works on a frame and tells the sighting; without a listener it does nothing.
mirrors `localize_loop`, behind the receipt of a frame -/
def locate (s : State) (x : Session) (l : LocalizerThread) (f : Frame) : State :=
  if s.listening then
    let (sighting, tracker) := l.tracker.track f
    let s := { s with session := some { x with localizer := some ⟨.waiting, tracker⟩ } }
    match sighting with
    | none => s
    | some v => s.tell x.number (.sighting v)
  else { s with session := some { x with localizer := some { l with stage := .waiting } } }

/-- The next step of the localizer.
mirrors `localize_loop` -/
def localizerStep (s : State) (x : Session) : Option State :=
  match x.localizer with
  | none => none
  | some l =>
    match l.stage with
    | .waiting =>
      match x.queues.localize.receive with
      | (.entry a, localize) =>
        some { s with session := some { x with
          queues := { x.queues with localize }
          localizer := some { l with stage := .holding a.frame } } }
      | (.empty, _) => none
      | (.ended, _) =>
        some { s with session := some { x with localizer := some { l with stage := .finished } } }
    | .holding f => some (s.locate x l f)
    | _ => none

/-- The localizer ends because it was asked to.
mirrors `localize_loop`, its branch on shutdown -/
def localizerQuits (s : State) (x : Session) : Option State :=
  match x.localizer with
  | none => none
  | some l =>
    if l.stage = .waiting ∧ x.signalled then
      some { s with session := some { x with localizer := some { l with stage := .finished } } }
    else none

/-! ## All steps -/

/-- One step, if it is enabled. -/
def step (s : State) : Label → Option State
  | .equip rig =>
    if s.owner = .idle ∧ s.session.all Session.ended then some { s with rig } else none
  | .letGo =>
    some { s with rig := { s.rig with device := { s.rig.device with held := false } } }
  | .start settings => if s.owner = .idle then some (s.beginStart settings) else none
  | .stop => if s.owner = .idle then some (s.signal .rest) else none
  | .owner => s.ownerStep
  | .spawnFails cause => s.spawnFails cause
  | .producer => s.session.bind s.producerStep
  | .encoder => s.session.bind s.encoderStep
  | .encoderQuits => s.session.bind s.encoderQuits
  | .localizer => s.session.bind s.localizerStep
  | .localizerQuits => s.session.bind s.localizerQuits

/-- Steps in turn, if each is enabled. -/
def steps (s : State) : List Label → Option State
  | [] => some s
  | l :: ls => (s.step l).bind fun s => s.steps ls

end State

end MicStream
