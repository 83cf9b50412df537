import MicStream.Proofs.Stream.Cutting
import MicStream.Proofs.Stream.Flow
/-!
# A capture that fits the queues is delivered whole

Unless a session is asked to end before, each consumer works through all
captured frames, in whatever order the threads make their steps. So what is
told of the session in the end is what the two loops tell of the captured
frames one after the other, and on the way it is a beginning of that.

Results:
* `packets_since`: the base of a clock only shifts the time stamps.
* `Over.step`: when both consumers have ended nothing more is told of the
  session, whatever happens then.
* `ended_of_stuck`: if no thread has a step both consumers have ended.
* `delivered_alike`: what is delivered in any order of steps.
-/
namespace MicStream

/-! ## Time stamps from the base of the clock on -/

/-- A packet whose time stamp is counted from a base. -/
def Packet.since (base : Nat) (p : Packet) : Packet :=
  { p with ptsMs := p.ptsMs - UInt64.ofNat base }

/-- The same coding with a clock that begins at zero. -/
def Coding.fromZero (c : Coding) : Coding := { c with clock := { c.clock with base := 0 } }

/-- The base of a clock only shifts the time stamps. -/
theorem Clock.packets_since : ∀ (outs : List (List UInt8)) (c : Clock),
    (c.packets outs).map (Packet.since c.base) = ({ c with base := 0 } : Clock).packets outs
  | [], _ => rfl
  | out :: outs, c => by
    have hbase : (c.pass out).base = c.base := by
      unfold pass; split <;> rfl
    have hpass : ({ c with base := 0 } : Clock).pass out = { c.pass out with base := 0 } := by
      unfold pass; split <;> rfl
    have hpts : UInt64.ofNat (c.base + c.elapsed c.blocks) - UInt64.ofNat c.base =
        UInt64.ofNat (0 + c.elapsed c.blocks) := by
      rw [UInt64.ofNat_add, Nat.zero_add, UInt64.add_comm, UInt64.add_sub_cancel]
    have hone : ((c.packet? out).toList.map (Packet.since c.base)) =
        (({ c with base := 0 } : Clock).packet? out).toList := by
      unfold packet?
      split
      · rfl
      · simp only [Option.toList_some, List.map_cons, List.map_nil, packet, Packet.since, ptsMs,
          hpts]
        rfl
    rw [packets, packets, List.map_append, hone, hpass, ← hbase, packets_since outs (c.pass out)]

namespace State

/-! ## What the two loops tell of all frames -/

section Whole
variable {s₀ s : State} {settings : StreamSettings} {x y : Session} {ls : List Label}

/-- What the localizing loop tells of some frames in session `x`. -/
def located (x : Session) (fs : List Frame) : List Sighting :=
  match x.localizer with
  | none => []
  | some l => l.tracker.frames fs

/-- With a codec that does not fail, the coding loop tells the packets of all blocks. -/
theorem SetUp.packets_coded (h : SetUp s₀ settings x)
    (hfine : ∀ blocks, (s₀.rig.codec.reply blocks).fails = false) (fs : List Frame) :
    (s₀.coded x fs).packets = x.encoder.coding.clock.packets
        (x.encoder.coding.encoder.outputs s₀.rig.codec s₀.rig.blocks
          (chunks x.encoder.coding.blockLength (Coding.firstChannels fs))) ∧
      (s₀.coded x fs).packets.map (Packet.since s₀.rig.now) =
        (Coding.frames s₀.rig.codec x.encoder.coding.fromZero s₀.rig.blocks fs).packets := by
  obtain ⟨hr, hnew, -⟩ := h.encoder
  have key : ∀ {c : Coding}, c.encoder = x.encoder.coding.encoder → c.mono = [] →
      (Coding.frames s₀.rig.codec c s₀.rig.blocks fs).packets = c.clock.packets
        (x.encoder.coding.encoder.outputs s₀.rig.codec s₀.rig.blocks
          (chunks x.encoder.coding.blockLength (Coding.firstChannels fs))) := by
    intro c hc hm
    have := (Coding.At.beginning s₀.rig.codec s₀.rig.blocks hm).told_frames (hc ▸ hr) hfine fs
    rw [List.nil_append, List.nil_append, Coding.blockLength, hc] at this
    exact this
  have hm : x.encoder.coding.mono = [] := by rw [hnew]; rfl
  have hbase : x.encoder.coding.clock.base = s₀.rig.now := by rw [hnew]; rfl
  have hone : (s₀.coded x fs).packets = _ := key rfl hm
  refine ⟨hone, ?_⟩
  rw [hone, ← hbase, Clock.packets_since, key (c := x.encoder.coding.fromZero) rfl hm]
  rfl

/-- The packets told so far are a beginning of those of all frames, if the encoder took a
beginning of them; and they are all, if it took them all and has ended. -/
theorem packets_of_run (h : SessionRun s₀ settings x ls s y)
    (hfine : ∀ blocks, (s₀.rig.codec.reply blocks).fails = false) {fs : List Frame}
    (hfs : s₀.taken .encoder ls <+: fs) :
    s.packets x.number <+: s₀.heard (s₀.coded x fs).packets ∧
      (y.encoder.stage = .finished → s₀.taken .encoder ls = fs →
        s.packets x.number = s₀.heard (s₀.coded x fs).packets) := by
  have hall := (h.setUp.packets_coded hfine fs).1
  obtain ⟨rest, rfl⟩ := hfs
  rw [Coding.firstChannels_append] at hall
  have key : ∀ {k mono told}, Coding.Upto s₀.rig.codec x.encoder.coding s₀.rig.blocks
      (Coding.firstChannels (s₀.taken .encoder ls)) k mono told →
      told <+: (s₀.coded x (s₀.taken .encoder ls ++ rest)).packets := by
    intro k mono told hk
    have htake : x.encoder.coding.firstBlocks (Coding.firstChannels (s₀.taken .encoder ls)) k =
        (chunks x.encoder.coding.blockLength (Coding.firstChannels (s₀.taken .encoder ls) ++
          Coding.firstChannels rest)).take k := (take_chunks_append hk.le).symm
    rw [hk.told_eq, hall, Coding.outputsAt, htake]
    conv => rhs; rw [← List.take_append_drop k (chunks _ _), Encoder.outputs_append,
      Clock.packets_append]
    exact List.prefix_append _ _
  rw [← h.number]
  cases encoder_of_run h with
  | going k told ht hat hs =>
    rw [ht, heard_congr h.listening]
    exact ⟨heard_mono (key hat.toUpto), fun he => absurd he hs⟩
  | through k told ht hat hs hk =>
    rw [ht, heard_congr h.listening]
    refine ⟨heard_mono (key hat), fun _ he => congrArg _ ?_⟩
    have hrest : rest = [] := List.append_right_eq_self.1 he.symm
    subst hrest
    rw [hall, hat.told_eq, Coding.outputsAt, Coding.firstBlocks, List.take_of_length_le]
    · simp [Coding.firstChannels]
    · exact Nat.le_of_eq ((length_chunks _).trans hk.symm)
  | failed k told ht hat =>
    have := hat.fails
    rw [Coding.replyAt, hfine] at this; cases this

theorem sightings_of_run (h : SessionRun s₀ settings x ls s y) {fs : List Frame}
    (hfs : s₀.taken .localizer ls <+: fs) :
    s.sightings x.number <+: s₀.heard (located x fs) ∧
      ((∀ l, y.localizer = some l → l.stage = .finished ∧ s₀.taken .localizer ls = fs) →
        s.sightings x.number = s₀.heard (located x fs)) := by
  rw [← h.number]
  cases localizer_of_run h with
  | off ho hy hs =>
    rw [hs, located, ho, heard_nil]
    exact ⟨List.prefix_refl [], fun _ => rfl⟩
  | on l₀ l done ho hy ht hs hf =>
    obtain ⟨rest, rfl⟩ := hfs
    have hloc : ∀ fs, located x fs = l₀.tracker.frames fs := fun fs => by rw [located, ho]
    rw [hs, hloc, heard_congr h.listening]
    refine ⟨?_, ?_⟩
    · rw [hf, List.append_assoc, Tracker.frames_append]
      exact heard_mono (List.prefix_append _ _)
    · intro he
      obtain ⟨hst, he⟩ := he l hy
      have hheld : l.held = [] := by unfold LocalizerThread.held; rw [hst]
      rw [hheld, List.append_nil] at hf
      rw [← he, hf]

end Whole

/-! ## After the end of both consumers -/

/-- Session `n` has begun, and none of its consumers is at work any more. -/
structure Over (n : Nat) (s : State) : Prop where
  numbered : s.Numbered
  lt : n < s.begun
  ended : ∀ z, s.session = some z → z.number = n → Launching s z ∧ z.encoder.stage = .finished ∧
    ∀ l, z.localizer = some l → l.stage = .finished

section Over
variable {n : Nat} {s s' : State} {x y : Session} {l : Label}

theorem reclaim_unchanged (x : Session) (a : Afterwards) :
    (s.reclaim x a).packets n = s.packets n ∧ (s.reclaim x a).sightings n = s.sightings n := by
  unfold reclaim
  dsimp only
  split
  · cases a
    all_goals exact ⟨packets_tell_control _ _, sightings_tell_control _ _⟩
  · cases a
    all_goals exact ⟨rfl, rfl⟩

/-- A step in a session whose consumers have ended tells no packet and no sighting, and they do
not come back. -/
theorem unchanged_of_ended (hh : Launching s x) (hx : s.session = some x)
    (he : x.encoder.stage = .finished) (hl : ∀ l, x.localizer = some l → l.stage = .finished)
    (hc : SessionStep s x l s') (hy : s'.session = some y) :
    s'.packets n = s.packets n ∧ s'.sightings n = s.sightings n ∧
      y.encoder.stage = .finished ∧ ∀ l, y.localizer = some l → l.stage = .finished := by
  have hle : l ≠ .encoder := by
    rintro rfl
    cases hc with
    | encoder _ hc =>
      cases hc with
      | took _ _ hs | ended hs | coded _ _ _ hs | failed _ _ _ hs => rw [he] at hs; cases hs
  have hll : l ≠ .localizer := by
    rintro rfl
    cases hc with
    | localizer _ hc =>
      cases hc with
      | took l _ _ ho hs | ended l ho hs | located l _ _ _ ho hs | ignored l _ ho hs =>
        rw [hl l ho] at hs; cases hs
  obtain ⟨hea, hp, -, -⟩ := encoder_aside hle hh hx hc hy
  obtain ⟨hla, hs, -⟩ := localizer_aside hll hh hx hc hy
  refine ⟨hp n, hs n, ?_, ?_⟩
  · cases hea with
    | same e => rw [e]; exact he
    | spawned hr | abandoned hr | quit hr => rw [he] at hr; cases hr
  · intro m hm
    cases hla with
    | same e => exact hl m (e ▸ hm)
    | moved m' stage hm' _ hr =>
      rw [hl m' hm'] at hr
      rcases hr with hr | hr <;> cases hr

/-- When the consumers of a session have ended, nothing more is told of it. -/
theorem Over.step (h : Over n s) (hs : s.step l = some s') :
    Over n s' ∧ s'.packets n = s.packets n ∧ s'.sightings n = s.sightings n := by
  have hnumbered := h.numbered.step hs
  cases hx : s.session with
  | none =>
    rcases step_of_none hx hs with ⟨settings, -, rfl⟩ | ⟨h1, h2, h3⟩
    · have hc := prepare_cases s settings
      generalize s.prepare settings = s' at hc hnumbered
      cases hc with
      | setUp =>
        refine ⟨⟨hnumbered, Nat.lt_succ_of_lt h.lt, fun z hz hn => ?_⟩, rfl, rfl⟩
        cases hz
        exact absurd hn (Nat.ne_of_gt h.lt)
      | _ =>
        refine ⟨⟨hnumbered, h.lt, fun z hz => ?_⟩, rfl, rfl⟩
        have hz : s.session = some z := hz
        rw [hx] at hz; cases hz
    · refine ⟨⟨hnumbered, h2 ▸ h.lt, fun z hz => ?_⟩, h3.unchanged id⟩
      rw [h1] at hz; cases hz
  | some x =>
    rcases h.numbered.step_of_some hx hs with ⟨-, rig, rfl⟩ | ⟨a, rfl⟩ | ⟨y, hc, hw⟩
    · refine ⟨⟨hnumbered, h.lt, fun z hz hn => ?_⟩, rfl, rfl⟩
      obtain ⟨hl, hends⟩ := h.ended z hz hn
      exact ⟨⟨hl.producer, hl.encoder, hl.localizer⟩, hends⟩
    · have hg := reclaim_gone (s := s) x a
      refine ⟨⟨hnumbered, hg.begun ▸ h.lt, fun z hz => ?_⟩, reclaim_unchanged x a⟩
      rw [hg.session] at hz; cases hz
    · by_cases hn : x.number = n
      · obtain ⟨hl, hends, hendl⟩ := h.ended x hx hn
        obtain ⟨h1, h2, h3⟩ := unchanged_of_ended (n := n) hl hx hends hendl hc hw.session
        refine ⟨⟨hnumbered, hw.begun ▸ h.lt, fun z hz _ => ?_⟩, h1, h2⟩
        rw [hw.session] at hz
        cases hz
        exact ⟨hl.step hx hc hw, h3⟩
      · refine ⟨⟨hnumbered, hw.begun ▸ h.lt, fun z hz hz' => ?_⟩, hw.told.unchanged (Ne.symm hn)⟩
        rw [hw.session] at hz
        cases hz
        exact absurd (hw.number.symm.trans hz') hn

theorem Over.steps : ∀ {ls : List Label} {s s' : State}, Over n s → s.steps ls = some s' →
    s'.packets n = s.packets n ∧ s'.sightings n = s.sightings n
  | [], s, s', _, hs => by
    obtain rfl : s = s' := by simpa [State.steps] using hs
    exact ⟨rfl, rfl⟩
  | l :: ls, s, s', h, hs => by
    obtain ⟨t, ht, hs⟩ := steps_cons.1 hs
    obtain ⟨hover, hp, hv⟩ := h.step ht
    obtain ⟨hp', hv'⟩ := hover.steps hs
    exact ⟨hp'.trans hp, hv'.trans hv⟩

end Over

/-! ## Some thread has a step until both consumers have ended -/

/-- A thread that has not begun is still to be spawned. -/
structure Awaited (s : State) (y : Session) : Prop where
  producer : y.producer.stage = .ready → s.owner = .spawning .producer
  encoder : y.encoder.stage = .ready →
    s.owner = .spawning .producer ∨ s.owner = .spawning .encoder
  localizer : ∀ l, y.localizer = some l → l.stage = .ready → ∃ w, s.owner = .spawning w

section Awaited
variable {s s' : State} {x y : Session} {l : Label}

theorem Awaited.spawned (h : Awaited s x) {w : Worker} (ho : s.owner = .spawning w)
    (hy : (s.spawn x w).session = some y) : Awaited (s.spawn x w) y := by
  cases w with
  | producer =>
    cases hy
    exact ⟨nofun, fun _ => .inr rfl, fun _ _ _ => ⟨.encoder, rfl⟩⟩
  | encoder =>
    cases hy
    refine ⟨?_, nofun, fun l hl _ => ⟨.localizer, ?_⟩⟩
    · intro hr
      have := h.producer hr
      rw [ho] at this; cases this
    · have hl : x.localizer = some l := hl
      simp [spawn, hl]
  | localizer =>
    cases hy
    refine ⟨?_, ?_, ?_⟩
    · intro hr
      have := h.producer hr
      rw [ho] at this; cases this
    · intro hr
      have := h.encoder hr
      rw [ho] at this; rcases this with this | this <;> cases this
    · intro l hl hr
      obtain ⟨m, -, rfl⟩ := Option.map_eq_some_iff.1 hl
      cases hr

theorem Awaited.step (h : Awaited s x) (hc : QuietStep s x l s' y) : Awaited s' y := by
  cases hc with
  | letGo | refused => exact ⟨h.producer, h.encoder, h.localizer⟩
  | spawned w _ ho hy => exact h.spawned ho hy
  | announced ho =>
    refine ⟨?_, ?_, ?_⟩
    · intro hr
      have := h.producer hr
      rw [ho] at this; cases this
    · intro hr
      have := h.encoder hr
      rw [ho] at this; rcases this with this | this <;> cases this
    · intro m hm hr
      obtain ⟨w, hw⟩ := h.localizer m hm hr
      rw [ho] at hw; cases hw
  | producer _ _ hc hy =>
    obtain ⟨hs, ho, he, hl⟩ := hc.started hy
    refine ⟨fun hr => absurd hr hs, ?_, ?_⟩
    · rw [ho, he]; exact h.encoder
    · rw [ho, hl]; exact h.localizer
  | encoder _ _ hc hy =>
    obtain ⟨hs, ho, hp, hl⟩ := hc.started hy
    refine ⟨?_, fun hr => absurd hr hs, ?_⟩
    · rw [ho, hp]; exact h.producer
    · rw [ho, hl]; exact h.localizer
  | localizer _ _ hc hy =>
    obtain ⟨hs, ho, hp, he⟩ := hc.started hy
    refine ⟨?_, ?_, fun m hm hr => absurd hr (hs m hm)⟩
    · rw [ho, hp]; exact h.producer
    · rw [ho, he]; exact h.encoder

end Awaited

section Run
variable {s₀ s : State} {settings : StreamSettings} {x y : Session} {ls : List Label}

theorem awaited_of_run (h : SessionRun s₀ settings x ls s y) (hq : y.signalled = false) :
    Awaited s y := by
  refine h.induction (Q := fun _ s y => y.signalled = false → Awaited s y) (fun _ => ?_) ?_ hq
  · exact ⟨fun _ => h.setUp.owner, fun _ => .inl h.setUp.owner,
      fun _ _ _ => ⟨.producer, h.setUp.owner⟩⟩
  · intro ls l s y s' y' hrun ih hc hw hq
    have hquiet := hc.quiet hrun.session hw.session hq
    exact (ih (hquiet.signalled ▸ hq)).step hquiet

/-- A consumer whose queue is closed finds an entry or the end. -/
theorem receive_of_closed {c : Channel SharedFrame} (hc : c.closed = true) :
    (∃ a q, c.receive = (.entry a, q)) ∨ c.receive = (.ended, c) := by
  unfold Channel.receive
  cases c.queue.take? with
  | none => exact .inr (by simp [hc])
  | some v => exact .inl ⟨v.1, _, rfl⟩

/-- A producer without a step has not begun or has ended. -/
theorem producer_of_stuck (hy : s.session = some y) (hheld : s.rig.device.held = false)
    (hp : s.step .producer = none) :
    y.producer.stage = .ready ∨ y.producer.stage = .finished := by
  simp only [step, hy, Option.bind_some, producerStep] at hp
  cases hs : y.producer.stage with
  | ready => exact .inl rfl
  | finished => exact .inr rfl
  | reading =>
    simp only [hs, State.read, hheld] at hp
    split at hp <;> cases hp
  | pushingEncode p =>
    rw [hs] at hp
    rcases hstep : p.step y.queues.encode.queue with ⟨p' | n, q⟩ <;> simp [hstep] at hp
  | pushingLocalize p =>
    rw [hs] at hp
    rcases hstep : p.step y.queues.localize.queue with ⟨p' | n, q⟩ <;> simp [hstep] at hp
  | checking | leaving | leavingLocalize => rw [hs] at hp; cases hp

theorem encoder_of_stuck (hy : s.session = some y) (hclosed : y.queues.encode.closed = true)
    (he : s.step .encoder = none) : y.encoder.stage = .ready ∨ y.encoder.stage = .finished := by
  simp only [step, hy, Option.bind_some, encoderStep] at he
  cases hs : y.encoder.stage with
  | ready => exact .inl rfl
  | finished => exact .inr rfl
  | coding => rw [hs] at he; cases he
  | waiting => rcases receive_of_closed hclosed with ⟨a, q, hr⟩ | hr <;> simp [hs, hr] at he

theorem localizer_of_stuck {l : LocalizerThread} (hy : s.session = some y)
    (hl : y.localizer = some l) (hclosed : y.queues.localize.closed = true)
    (hs : s.step .localizer = none) : l.stage = .ready ∨ l.stage = .finished := by
  simp only [step, hy, Option.bind_some, localizerStep, hl] at hs
  cases hst : l.stage with
  | ready => exact .inl rfl
  | finished => exact .inr rfl
  | holding f => rw [hst] at hs; cases hs
  | waiting => rcases receive_of_closed hclosed with ⟨a, q, hr⟩ | hr <;> simp [hst, hr] at hs

/-- If no thread has a step, and the device is not waited for, both consumers have ended. -/
theorem ended_of_stuck {fs : List Frame} {room : Nat} {t : Consumer → List Frame}
    (hflow : FlowAt fs room t s y) (haw : Awaited s y) (hy : s.session = some y)
    (hheld : s.rig.device.held = false) (ho : s.step .owner = none)
    (hp : s.step .producer = none) (he : s.step .encoder = none) (hl : s.step .localizer = none) :
    y.encoder.stage = .finished ∧ ∀ l, y.localizer = some l → l.stage = .finished := by
  have hspawn : ∀ w, s.owner ≠ .spawning w := by
    intro w hw
    simp [step, ownerStep, hw, hy] at ho
  have hdone : y.producer.stage = .finished := by
    rcases producer_of_stuck hy hheld hp with hs | hs
    · exact absurd (haw.producer hs) (hspawn _)
    · exact hs
  have hclosed : ∀ c, (y.queues.channel c).closed = true := by
    intro c
    rw [hflow.closed c, hdone]
    cases c <;> rfl
  refine ⟨?_, ?_⟩
  · rcases encoder_of_stuck hy (hclosed .encoder) he with hs | hs
    · rcases haw.encoder hs with h | h <;> exact absurd h (hspawn _)
    · exact hs
  · intro l hloc
    rcases localizer_of_stuck hy hloc (hclosed .localizer) hl with hs | hs
    · obtain ⟨w, hw⟩ := haw.localizer l hloc hs
      exact absurd hw (hspawn w)
    · exact hs

/-- A device delivers no more periods than a queue holds and then fails, and the codec never does.
Whatever the order of the steps, without localization no sighting is told; and as long as nobody
asks the session to end, no push drops anything, each consumer is on its way through the captured
frames, and what was told is a beginning of what the two loops tell of these frames one after the
other. If no thread has a step the consumers have ended, and once they have ended it is all of that,
whatever happens then. -/
theorem delivered_alike (h : SessionRun s₀ settings x ls s y)
    (hfit : s₀.rig.device.periods.length ≤ max settings.queueSize 1)
    (hfine : ∀ blocks, (s₀.rig.codec.reply blocks).fails = false) :
    (settings.localization = false → s.sightings x.number = []) ∧
    (y.signalled = false →
      (∀ push, y.producer.stage.push? = some push → push.stage = .offering ∧ push.dropped = 0) ∧
      (∀ c, s₀.taken c ls ++ (y.queues.channel c).frames ++ y.producer.stage.pending c ++
        y.producer.capture.frames s.rig.device.periods = s₀.captured x) ∧
      s.packets x.number <+: s₀.heard (s₀.coded x (s₀.captured x)).packets ∧
      s.sightings x.number <+: s₀.heard (located x (s₀.captured x)) ∧
      (s.rig.device.held = false → s.step .owner = none → s.step .producer = none →
        s.step .encoder = none → s.step .localizer = none →
          y.encoder.stage = .finished ∧ ∀ l, y.localizer = some l → l.stage = .finished) ∧
      (y.encoder.stage = .finished → (∀ l, y.localizer = some l → l.stage = .finished) →
        ∀ ls' s', s.steps ls' = some s' →
          s'.packets x.number = s₀.heard (s₀.coded x (s₀.captured x)).packets ∧
          (s'.packets x.number).map (Packet.since s₀.rig.now) = s₀.heard (Coding.frames
            s₀.rig.codec x.encoder.coding.fromZero s₀.rig.blocks (s₀.captured x)).packets ∧
          s'.sightings x.number = s₀.heard (located x (s₀.captured x)))) := by
  refine ⟨?_, ?_⟩
  · intro hoff
    have hnone := h.setUp.localizer.1.2 hoff
    rw [← h.number]
    cases localizer_of_run h with
    | off _ _ hs => exact hs
    | on l₀ _ _ ho => rw [hnone] at ho; cases ho
  intro hq
  have hflow := flow_of_run h hfit hfine hq
  have hbegun : ∀ c, s₀.taken c ls <+: s₀.captured x := by
    intro c
    rw [← hflow.whole c, List.append_assoc, List.append_assoc]
    exact List.prefix_append _ _
  obtain ⟨hpre, hpackets⟩ := packets_of_run h hfine (hbegun .encoder)
  obtain ⟨hspre, hsightings⟩ := sightings_of_run h (hbegun .localizer)
  refine ⟨hflow.offering, hflow.whole, hpre, hspre, ?_, ?_⟩
  · exact ended_of_stuck hflow (awaited_of_run h hq) h.session
  · intro hee hel ls' s' hs'
    have hover : Over x.number s := by
      refine ⟨h.numbered, h.number ▸ h.numbered.session y h.session, fun z hz _ => ?_⟩
      obtain rfl : y = z := Option.some.inj (h.session.symm.trans hz)
      exact ⟨h.launching, hee, hel⟩
    obtain ⟨hp, hv⟩ := hover.steps hs'
    have hall : s.packets x.number = s₀.heard (s₀.coded x (s₀.captured x)).packets :=
      hpackets hee (hflow.taken_of_ended (c := .encoder) hee)
    refine ⟨hp.trans hall, ?_, ?_⟩
    · rw [hp, hall, map_heard]
      exact congrArg _ (h.setUp.packets_coded hfine _).2
    · refine hv.trans (hsightings fun l hl => ⟨hel l hl, ?_⟩)
      exact hflow.taken_of_ended (c := .localizer) ⟨l, hl, hel l hl⟩

end Run

theorem sampleRig_fine (blocks : List (List Int16)) :
    (sampleRig.codec.reply blocks).fails = false := by
  show (Codec.scriptedReply 0 none blocks.length).fails = false
  unfold Codec.scriptedReply
  by_cases h : blocks.length ≤ 0
  · simp [h, CodecReply.fails]
  · simp [h, CodecReply.fails, Codec.scriptedLength, Encoder.capacity]

/-- The producer is ahead of the encoder by both periods, and has left before the encoder codes the
second. -/
def sampleSchedule : List Label :=
  [.owner, .owner, .producer, .producer, .producer, .producer, .owner, .producer, .producer,
    .encoder, .producer, .producer, .encoder, .producer, .producer, .producer, .encoder, .producer,
    .encoder, .encoder, .encoder]

theorem delivered_alike_sample : ∃ s₀ x s y,
    SessionRun s₀ sampleSettings x sampleSchedule s y ∧ y.encoder.stage = .finished ∧
      (s.packets x.number).map Packet.seq = [0, 1, 2] ∧
      s.packets x.number = s₀.heard (s₀.coded x (s₀.captured x)).packets ∧
      s.sightings x.number = s₀.heard (located x (s₀.captured x)) := by
  have hrun : ((State.new sampleRig true).steps [.start sampleSettings, .owner]).any (fun s₀ =>
      decide (s₀.owner = .spawning .producer) && s₀.session.any fun x =>
        (s₀.steps sampleSchedule).any fun s => s.session.any fun y =>
          decide (y.number = x.number ∧ y.signalled = false ∧ y.encoder.stage = .finished ∧
            y.localizer = none ∧ (s.packets x.number).map Packet.seq = [0, 1, 2])) = true := by
    decide +kernel
  simp only [Option.any_eq_true, Bool.and_eq_true, decide_eq_true_eq] at hrun
  obtain ⟨s₀, h₀, ho, x, hx, s, hs, y, hy, hnum, hq, hee, hnone, hseq⟩ := hrun
  have hkeeps : ∀ l ∈ sampleSchedule, l.equips = false := by
    simp [sampleSchedule, Label.equips]
  have h : SessionRun s₀ sampleSettings x sampleSchedule s y :=
    ⟨.first h₀ ho hx, hs, hkeeps, hy, hnum⟩
  obtain ⟨hdevice, hcodec⟩ := SetUp.first_rig h₀ ho
  have hfit : s₀.rig.device.periods.length ≤ max sampleSettings.queueSize 1 := by
    rw [hdevice]; decide
  have hfine : ∀ blocks, (s₀.rig.codec.reply blocks).fails = false := fun blocks => by
    rw [hcodec]; exact sampleRig_fine blocks
  obtain ⟨-, hdelivered⟩ := delivered_alike h hfit hfine
  obtain ⟨-, -, -, -, -, hend⟩ := hdelivered hq
  obtain ⟨hp, -, hv⟩ := hend hee (fun l hl => by rw [hnone] at hl; cases hl) [] s rfl
  exact ⟨s₀, x, s, y, h, hee, hseq, hp, hv⟩

end State

end MicStream
