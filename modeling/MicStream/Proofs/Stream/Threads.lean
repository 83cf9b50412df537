import MicStream.Stream.Step
/-!
# What the threads of a session do

The steps of `MicStream.Stream.Step` are functions with many branches. Here
each branch of a thread is a named case that says what was the case before
the step and what the state is after it (`ProducerStep`, `EncoderStep`,
`LocalizerStep`); everything about runs is proved from these cases.

Results:
* `prepare_cases`, `producerStep_cases`, `encoderStep_cases`,
  `localizerStep_cases`: a step is one of its cases.
* `step_cases`: so is every step in a session.
* `ProducerStep.shape`: the producer touches the device, the queues, its own
  stage and the running flag, which it only clears.
-/
namespace MicStream

def Label.equips : Label → Bool
  | .equip _ => true
  | _ => false

namespace State

/-- All that is told between two states is told of sessions with `P`. -/
def Tells (P : Nat → Prop) (s s' : State) : Prop :=
  ∃ new, s'.trace = new ++ s.trace ∧ ∀ m e, .told m e ∈ new → P m

theorem Tells.of_eq {P : Nat → Prop} {s s' : State} (h : s'.trace = s.trace) : Tells P s s' :=
  ⟨[], h, nofun⟩

theorem Tells.answer {P : Nat → Prop} {s s' : State} (h : Tells P s s')
    (a : Except StartError Unit) : Tells P s (s'.answer a) := by
  obtain ⟨new, ht, hn⟩ := h
  refine ⟨.answered a :: new, congrArg _ ht, fun m e hm => hn m e ?_⟩
  simpa using hm

def tellAny {α : Type} (s : State) (n : Nat) (event : α → Event) : Option α → State
  | none => s
  | some a => s.tell n (event a)

/-! ## The owner sets a session up -/

/-- The state after the owner has prepared a session with some settings, or has failed to. -/
inductive PrepareStep (s : State) (settings : StreamSettings) : State → Prop where
  | setUp (audio : AudioConfig) (localizer : Option (Localizer Float32)) (capture : Capture)
      (effects : List DeviceEffect) (encoder : Encoder) (rig : Rig)
      (ha : settings.resolve? s.rig.geometry = some (audio, localizer))
      (hc : Capture.new.openStream settings.card settings.device audio s.rig.device.refusal =
        (capture, effects, .ok ()))
      (he : Encoder.new.init
        (Encoder.params audio.sampleRate 1 settings.params.bitRate settings.params.aot)
        (s.rig.codec.answer
          (Encoder.params audio.sampleRate 1 settings.params.bitRate settings.params.aot)) =
        (encoder, .ok ()))
      (hr : rig.device = s.rig.device ∧ rig.codec = s.rig.codec ∧ rig.blocks = s.rig.blocks ∧
        rig.now = s.rig.now)
      (hg : rig.geometry = s.rig.geometry)
      (ho : rig.captured = some ⟨settings.card, settings.device, Capture.request audio⟩ ∧
        rig.coded = some
          (Encoder.params audio.sampleRate 1 settings.params.bitRate settings.params.aot)) :
      PrepareStep s settings { s with
        rig := rig
        streams := Capture.live s.streams effects
        running := true
        session := some (s.setUp settings audio localizer capture encoder)
        begun := s.begun + 1
        codecs := s.codecs + 1
        owner := .spawning .producer }
  | refused (e : StartError) (rig : Rig) (he : e ≠ .alreadyRunning)
      (hr : rig.device = s.rig.device) (hg : rig.geometry = s.rig.geometry) :
      PrepareStep s settings ({ s with rig := rig, owner := .idle }.answer (.error e))
  | overflowed : PrepareStep s settings { s with owner := .crashed }

theorem openStream_ok {card device : UInt32} {audio : AudioConfig} {refusal : Option String}
    {capture : Capture} {effects : List DeviceEffect}
    (h : Capture.new.openStream card device audio refusal = (capture, effects, .ok ())) (n : Int) :
    capture.isOpen = true ∧ Capture.live n effects = n + 1 := by
  unfold Capture.openStream at h
  dsimp only at h
  split at h
  · cases h
  · split at h
    · cases h
    · cases h
      exact ⟨rfl, rfl⟩

theorem openStream_error {card device : UInt32} {audio : AudioConfig} {refusal : Option String}
    {capture : Capture} {effects : List DeviceEffect} {e : CaptureError}
    (h : Capture.new.openStream card device audio refusal = (capture, effects, .error e))
    (n : Int) : Capture.live n effects = n := by
  unfold Capture.openStream at h
  dsimp only at h
  split at h
  · cases h; rfl
  · split at h
    · cases h; rfl
    · cases h

theorem live_close {capture : Capture} (h : capture.isOpen = true) (n : Int) :
    Capture.live n capture.close.2 = n - 1 := by
  unfold Capture.close
  rw [h]
  rfl

theorem granted_of_init {p : CodecParams} {answer : Except String Nat} {encoder : Encoder}
    (h : Encoder.new.init p answer = (encoder, .ok ())) : ∃ n, answer = .ok n := by
  cases answer with
  | ok n => exact ⟨n, rfl⟩
  | error cause => cases h

theorem prepare_cases (s : State) (settings : StreamSettings) :
    PrepareStep s settings (s.prepare settings) := by
  unfold prepare
  split
  · exact .overflowed
  · rename_i audio localizer ha
    split
    · rename_i effects e hc
      rw [openStream_error hc]
      exact .refused (.capture e) s.rig nofun rfl rfl
    · rename_i capture effects hc
      unfold openCodec
      dsimp only
      split
      · rename_i e he
        obtain ⟨hopen, hlive⟩ := openStream_ok hc s.streams
        rw [live_close hopen, hlive, Int.add_sub_cancel]
        exact .refused (.encoder e) _ nofun rfl rfl
      · rename_i encoder he
        obtain ⟨n, hn⟩ := granted_of_init he
        exact .setUp audio localizer capture effects encoder _ ha hc he ⟨rfl, rfl, rfl, rfl⟩ rfl
          ⟨rfl, by dsimp only at hn ⊢; rw [hn]⟩

/-! ## The producer -/

inductive ProducerStep (s : State) (x : Session) : State → Prop where
  | checked (hs : x.producer.stage = .checking) : ProducerStep s x
      { s with session := some { x with
        producer := { x.producer with stage := if s.running then .reading else .leaving } } }
  | failed (hs : x.producer.stage = .reading) (hp : s.rig.device.periods = [])
      (hh : s.rig.device.held = false) : ProducerStep s x
      { s with
        running := false
        session := some { x with producer := ⟨.leaving,
          (x.producer.capture.readSplit ⟨[], some Device.exhausted⟩ []).1⟩ } }
  | read (p : List Int16) (rest : List (List Int16)) (c : Capture) (f : Frame)
      (r : Except CaptureError Unit) (hs : x.producer.stage = .reading)
      (hp : s.rig.device.periods = p :: rest)
      (hc : x.producer.capture.readSplit
        ⟨Capture.resize x.producer.capture.periodLength p, none⟩ [] = (c, f, r)) : ProducerStep s x
      { s with
        rig := { s.rig with device := { s.rig.device with periods := rest } }
        session := some { x with
          queues := { x.queues with pushed := x.queues.pushed + 1 }
          producer :=
            ⟨if f.isEmpty then .checking else .pushingEncode (.start ⟨x.queues.pushed, f⟩), c⟩ } }
  | goingEncode (p p' : Push SharedFrame) (q : Fifo SharedFrame)
      (hs : x.producer.stage = .pushingEncode p)
      (hq : p.step x.queues.encode.queue = (.going p', q)) : ProducerStep s x
      { s with session := some { x with
        queues := { x.queues with encode := { x.queues.encode with queue := q } }
        producer := { x.producer with stage := .pushingEncode p' } } }
  | doneEncode (p : Push SharedFrame) (n : Nat) (q : Fifo SharedFrame)
      (hs : x.producer.stage = .pushingEncode p)
      (hq : p.step x.queues.encode.queue = (.done n, q)) : ProducerStep s x
      { s with session := some { x with
        queues := { x.queues with encode := { x.queues.encode with queue := q } }
        producer := { x.producer with stage := .pushingLocalize (.start p.entry) } } }
  | goingLocalize (p p' : Push SharedFrame) (q : Fifo SharedFrame)
      (hs : x.producer.stage = .pushingLocalize p)
      (hq : p.step x.queues.localize.queue = (.going p', q)) : ProducerStep s x
      { s with session := some { x with
        queues := { x.queues with localize := { x.queues.localize with queue := q } }
        producer := { x.producer with stage := .pushingLocalize p' } } }
  | doneLocalize (p : Push SharedFrame) (n : Nat) (q : Fifo SharedFrame)
      (hs : x.producer.stage = .pushingLocalize p)
      (hq : p.step x.queues.localize.queue = (.done n, q)) : ProducerStep s x
      { s with session := some { x with
        queues := { x.queues with localize := { x.queues.localize with queue := q } }
        producer := { x.producer with stage := .checking } } }
  | left (hs : x.producer.stage = .leaving) : ProducerStep s x
      { s with session := some { x with
        queues := { x.queues with encode := x.queues.encode.close }
        producer := { x.producer with stage := .leavingLocalize } } }
  | finished (hs : x.producer.stage = .leavingLocalize) : ProducerStep s x
      { s with session := some { x with
        queues := { x.queues with localize := x.queues.localize.close }
        producer := { x.producer with stage := .finished } } }

theorem producerStep_cases {s s' : State} {x : Session} (h : s.producerStep x = some s') :
    ProducerStep s x s' := by
  unfold producerStep at h
  dsimp only at h
  split at h
  · cases h
  · rename_i hs; cases h; exact .checked hs
  · rename_i hs
    unfold State.read at h
    split at h
    · rename_i hp
      split at h
      · cases h
      · rename_i hh; cases h; exact .failed hs hp (by simpa using hh)
    · rename_i p rest hp
      cases h
      exact .read p rest _ _ _ hs hp rfl
  · rename_i p hs
    rcases hq : p.step x.queues.encode.queue with ⟨p' | n, q⟩
    · rw [hq] at h; cases h; exact .goingEncode p p' q hs hq
    · rw [hq] at h; cases h; exact .doneEncode p n q hs hq
  · rename_i p hs
    rcases hq : p.step x.queues.localize.queue with ⟨p' | n, q⟩
    · rw [hq] at h; cases h; exact .goingLocalize p p' q hs hq
    · rw [hq] at h; cases h; exact .doneLocalize p n q hs hq
  · rename_i hs; cases h; exact .left hs
  · rename_i hs; cases h; exact .finished hs
  · cases h

/-- What a step of the producer can touch. -/
theorem ProducerStep.shape {s s' : State} {x : Session} (h : ProducerStep s x s') :
    ∃ (r : Bool) (d : Device) (q : FrameQueues) (p : Producer), (s.running = false → r = false) ∧
      s' = { s with
        running := r
        rig := { s.rig with device := d }
        session := some { x with queues := q, producer := p } } := by
  cases h
  all_goals first
    | exact ⟨s.running, _, _, _, id, rfl⟩
    | exact ⟨false, _, _, _, fun _ => rfl, rfl⟩

theorem ProducerStep.not_ready {s s' : State} {x : Session} (h : ProducerStep s x s') :
    x.producer.stage ≠ .ready := by
  intro hr
  cases h <;> simp_all

/-! ## The encoder -/

inductive EncoderStep (s : State) (x : Session) : State → Prop where
  | took (a : SharedFrame) (q : Channel SharedFrame) (hs : x.encoder.stage = .waiting)
      (hq : x.queues.encode.receive = (.entry a, q)) : EncoderStep s x
      { s with session := some { x with
        queues := { x.queues with encode := q }
        encoder := ⟨if (x.encoder.coding.take a.frame).hasBlock then .coding else .waiting,
          x.encoder.coding.take a.frame⟩ } }
  | ended (hs : x.encoder.stage = .waiting) (hq : x.queues.encode.receive.1 = .ended) :
      EncoderStep s x
      { s with session := some { x with encoder := { x.encoder with stage := .finished } } }
  | coded (p : Option Packet) (c : Coding) (n : Nat) (hs : x.encoder.stage = .coding)
      (hb : x.encoder.coding.block
        (s.rig.codec.reply (x.encoder.coding.nextBlock :: s.rig.blocks)) = (c, .ok p)) :
      EncoderStep s x (tellAny { s with
        rig := { s.rig with blocks := x.encoder.coding.nextBlock :: s.rig.blocks, encoded := n }
        session := some { x with
          encoder := ⟨if c.hasBlock then .coding else .waiting, c⟩ } } x.number .packet p)
  | failed (e : EncoderError) (c : Coding) (n : Nat) (hs : x.encoder.stage = .coding)
      (hb : x.encoder.coding.block
        (s.rig.codec.reply (x.encoder.coding.nextBlock :: s.rig.blocks)) = (c, .error e)) :
      EncoderStep s x { s with
        rig := { s.rig with blocks := x.encoder.coding.nextBlock :: s.rig.blocks, encoded := n }
        running := false
        session := some { x with encoder := ⟨.finished, c⟩ } }

theorem encoderStep_cases {s s' : State} {x : Session} (h : s.encoderStep x = some s') :
    EncoderStep s x s' := by
  unfold encoderStep at h
  split at h
  · rename_i hs
    split at h
    · rename_i a q hq; cases h; exact .took a q hs hq
    · cases h
    · rename_i q hq; cases h; exact .ended hs (by rw [hq])
  · rename_i hs
    obtain rfl := Option.some.inj h
    unfold codeBlock
    dsimp only
    split
    · rename_i c e hb; exact .failed e c _ hs hb
    · rename_i c p hb
      cases p with
      | none => exact .coded none c _ hs hb
      | some p => exact .coded (some p) c _ hs hb
  · cases h

theorem EncoderStep.not_ready {s s' : State} {x : Session} (h : EncoderStep s x s') :
    x.encoder.stage ≠ .ready := by
  intro hr
  cases h <;> simp_all

/-! ## The localizer -/

inductive LocalizerStep (s : State) (x : Session) : State → Prop where
  | took (l : LocalizerThread) (a : SharedFrame) (q : Channel SharedFrame)
      (hl : x.localizer = some l) (hs : l.stage = .waiting)
      (hq : x.queues.localize.receive = (.entry a, q)) : LocalizerStep s x
      { s with session := some { x with
        queues := { x.queues with localize := q }
        localizer := some { l with stage := .holding a.frame } } }
  | ended (l : LocalizerThread) (hl : x.localizer = some l) (hs : l.stage = .waiting)
      (hq : x.queues.localize.receive.1 = .ended) : LocalizerStep s x
      { s with session := some { x with localizer := some { l with stage := .finished } } }
  | located (l : LocalizerThread) (f : Frame) (v : Option Sighting) (t : Tracker)
      (hl : x.localizer = some l) (hs : l.stage = .holding f) (hn : s.listening = true)
      (ht : l.tracker.track f = (v, t)) : LocalizerStep s x
      (tellAny { s with session := some { x with localizer := some ⟨.waiting, t⟩ } }
        x.number .sighting v)
  | ignored (l : LocalizerThread) (f : Frame) (hl : x.localizer = some l)
      (hs : l.stage = .holding f) (hn : s.listening = false) : LocalizerStep s x
      { s with session := some { x with localizer := some { l with stage := .waiting } } }

theorem localizerStep_cases {s s' : State} {x : Session} (h : s.localizerStep x = some s') :
    LocalizerStep s x s' := by
  unfold localizerStep at h
  split at h
  · cases h
  · rename_i l hl
    split at h
    · rename_i hs
      split at h
      · rename_i a q hq; cases h; exact .took l a q hl hs hq
      · cases h
      · rename_i q hq; cases h; exact .ended l hl hs (by rw [hq])
    · rename_i f hs
      obtain rfl := Option.some.inj h
      unfold locate
      split
      · rename_i hn
        rcases ht : l.tracker.track f with ⟨v, t⟩
        cases v with
        | none => exact .located l f none t hl hs hn ht
        | some v => exact .located l f (some v) t hl hs hn ht
      · rename_i hn
        exact .ignored l f hl hs (by simpa using hn)
    · cases h

theorem LocalizerStep.not_ready {s s' : State} {x : Session} (h : LocalizerStep s x s') :
    ∃ l, x.localizer = some l ∧ l.stage ≠ .ready := by
  cases h with
  | took l _ _ hl hs | ended l hl hs | located l _ _ _ hl hs | ignored l _ hl hs =>
    exact ⟨l, hl, by simp [hs]⟩

/-! ## All steps in a session -/

/-- The state after a step while session `x` is there and none is being prepared. -/
inductive SessionStep (s : State) (x : Session) : Label → State → Prop where
  | letGo : SessionStep s x .letGo
      { s with rig := { s.rig with device := { s.rig.device with held := false } } }
  | refused (settings : StreamSettings) (ho : s.owner = .idle) (hr : s.running = true) :
      SessionStep s x (.start settings) (s.answer (.error .alreadyRunning))
  | restarted (settings : StreamSettings) (ho : s.owner = .idle) (hr : s.running = false) :
      SessionStep s x (.start settings) (s.signal (.start settings))
  | stopped (ho : s.owner = .idle) : SessionStep s x .stop (s.signal .rest)
  | reclaimed (a : Afterwards) (ho : s.owner = .joining a) (he : x.ended = true) :
      SessionStep s x .owner (s.reclaim x a)
  | spawned (w : Worker) (ho : s.owner = .spawning w) : SessionStep s x .owner (s.spawn x w)
  | announced (ho : s.owner = .announcing) : SessionStep s x .owner (s.announce x)
  | spawnFailed (w : Worker) (cause : String) (ho : s.owner = .spawning w) :
      SessionStep s x (.spawnFails cause) ((s.abandon x).signal (.fail (.notSpawned cause)))
  | producer (s' : State) (h : ProducerStep s x s') : SessionStep s x .producer s'
  | encoder (s' : State) (h : EncoderStep s x s') : SessionStep s x .encoder s'
  | encoderQuit (hs : x.encoder.stage = .waiting) (hg : x.signalled = true) :
      SessionStep s x .encoderQuits
      { s with session := some { x with encoder := { x.encoder with stage := .finished } } }
  | localizer (s' : State) (h : LocalizerStep s x s') : SessionStep s x .localizer s'
  | localizerQuit (l : LocalizerThread) (hl : x.localizer = some l) (hs : l.stage = .waiting)
      (hg : x.signalled = true) : SessionStep s x .localizerQuits
      { s with session := some { x with localizer := some { l with stage := .finished } } }

theorem step_cases {s s' : State} {x : Session} {l : Label} (hl : l.equips = false)
    (hp : ∀ settings, s.owner ≠ .preparing settings) (hx : s.session = some x)
    (h : s.step l = some s') : SessionStep s x l s' := by
  cases l with
  | equip rig => cases hl
  | letGo => cases h; exact .letGo
  | start settings =>
    simp only [step, beginStart] at h
    split at h
    · rename_i ho
      obtain rfl := Option.some.inj h
      split
      · rename_i hr; exact .refused settings ho hr
      · rename_i hr; exact .restarted settings ho (by simpa using hr)
    · cases h
  | stop =>
    simp only [step] at h
    split at h
    · rename_i ho
      cases h; exact .stopped ho
    · cases h
  | owner =>
    simp only [step, ownerStep, hx] at h
    split at h
    · rename_i settings ho; exact absurd ho (hp settings)
    · rename_i a z ho he
      cases he
      split at h
      · rename_i he
        cases h; exact .reclaimed a ho he
      · cases h
    · rename_i w z ho he
      cases he; cases h; exact .spawned w ho
    · rename_i ho he
      cases he; cases h; exact .announced ho
    · cases h
  | spawnFails cause =>
    simp only [step, State.spawnFails, hx] at h
    split at h
    · rename_i w z ho he
      cases he; cases h; exact .spawnFailed w cause ho
    · cases h
  | producer =>
    simp only [step, hx, Option.bind_some] at h
    exact .producer s' (producerStep_cases h)
  | encoder =>
    simp only [step, hx, Option.bind_some] at h
    exact .encoder s' (encoderStep_cases h)
  | encoderQuits =>
    simp only [step, hx, Option.bind_some, State.encoderQuits] at h
    split at h
    · rename_i hs
      cases h; exact .encoderQuit hs.1 hs.2
    · cases h
  | localizer =>
    simp only [step, hx, Option.bind_some] at h
    exact .localizer s' (localizerStep_cases h)
  | localizerQuits =>
    simp only [step, hx, Option.bind_some, State.localizerQuits] at h
    split at h
    · cases h
    · rename_i l hl
      split at h
      · rename_i hs
        cases h; exact .localizerQuit l hl hs.1 hs.2
      · cases h

end State

end MicStream
