import MicStream.Proofs.Capture.Ownership
import MicStream.Proofs.Stream.Starting
/-!
# What a start opens

The parameters of a session pass through several hands: the settings or the
geometry file give the layout of the capture, the encoder asks the codec for a
session, and the owner announces the session. `Opened` is what device, codec
and session agree on when a session has been prepared; no step changes it
while the session is there, and whatever is announced of the session later has
the same parameters (`Announces`).

Results:
* `SessionStep.untouched`: a step in a session leaves alone what was opened.
* `honoured_of_run`: what a start opens, in every interleaving.
* `Announces.steps`: starts and stops of a session are announced with its
  parameters.
-/
namespace MicStream

theorem StreamSettings.resolve_cases {settings : StreamSettings}
    {geometry : String → Option ByteArray} {audio : AudioConfig}
    {localizer : Option (Localizer Float32)}
    (h : settings.resolve? geometry = some (audio, localizer)) :
    (settings.localization = false → audio =
      ⟨settings.params.sampleRate, settings.periodSize, settings.params.channels.toUInt32, 1,
        settings.periodCount⟩) ∧
    (settings.localization = true →
      let setup := (GeometryFile.load (geometry settings.geometryPath)).setup
      audio = ⟨setup.sampleRate, setup.frameSize, setup.channels, setup.gain,
        settings.periodCount⟩) := by
  unfold resolve? at h
  split at h
  · rename_i hl
    obtain ⟨l, -, he⟩ := Option.map_eq_some_iff.1 h
    cases he
    exact ⟨fun hn => absurd hl (by simp [hn]), fun _ => rfl⟩
  · rename_i hl
    cases h
    exact ⟨fun _ => rfl, fun h => absurd h hl⟩

namespace State

/-! ## What a session was opened with -/

/-- Session `x` was opened with some settings and a layout, and is to be announced so. -/
structure Opened (settings : StreamSettings) (audio : AudioConfig) (s : State) (x : Session) :
    Prop where
  captured : s.rig.captured = some ⟨settings.card, settings.device, Capture.request audio⟩
  coded : s.rig.coded =
    some (Encoder.params audio.sampleRate 1 settings.params.bitRate settings.params.aot)
  holds : x.producer.capture.Holds audio
  params : x.params =
    ⟨audio.sampleRate, 1, settings.params.bitRate, effectiveAot settings.params.aot⟩

/-- What a step leaves alone of how a session was opened, and of how another would be. -/
structure Untouched (s : State) (x : Session) (t : State) (y : Session) : Prop where
  captured : t.rig.captured = s.rig.captured
  coded : t.rig.coded = s.rig.coded
  geometry : t.rig.geometry = s.rig.geometry
  holds : ∀ audio, x.producer.capture.Holds audio → y.producer.capture.Holds audio
  params : y.params = x.params

section Untouched
variable {s t : State} {x y : Session} {l : Label} {settings : StreamSettings}
  {audio : AudioConfig}

theorem Opened.untouched (h : Opened settings audio s x) (hu : Untouched s x t y) :
    Opened settings audio t y :=
  ⟨hu.captured.trans h.captured, hu.coded.trans h.coded, hu.holds audio h.holds,
    hu.params.trans h.params⟩

theorem holds_readSplit {c : Capture} (reply : PeriodReply) (h : c.Holds audio) :
    (c.readSplit reply []).1.Holds audio := by
  obtain ⟨buffer, hb, hc⟩ := Capture.call_of_read (c := c) (k := .readSplit reply []) rfl
  have hc : (c.readSplit reply []).1 = { c with buffer } := congrArg Prod.fst hc
  rw [hc]
  exact ⟨h.rate, h.channels, h.periodSize, h.periodCount, h.gain, hb.trans h.buffer⟩

theorem ProducerStep.untouched (h : ProducerStep s x t) (hy : t.session = some y) :
    Untouched s x t y := by
  cases h with
  | failed =>
    cases hy
    exact ⟨rfl, rfl, rfl, fun _ => holds_readSplit _, rfl⟩
  | read p rest c f r hs hp hc =>
    cases hy
    refine ⟨rfl, rfl, rfl, fun audio ha => ?_, rfl⟩
    have hr := holds_readSplit ⟨Capture.resize x.producer.capture.periodLength p, none⟩ ha
    rwa [hc] at hr
  | _ => cases hy; exact ⟨rfl, rfl, rfl, fun _ => id, rfl⟩

theorem EncoderStep.untouched (h : EncoderStep s x t) (hy : t.session = some y) :
    Untouched s x t y := by
  cases h with
  | coded p c n =>
    rw [tellAny_session] at hy
    cases hy
    exact ⟨by rw [tellAny_rig], by rw [tellAny_rig], by rw [tellAny_rig], fun _ => id, rfl⟩
  | _ => cases hy; exact ⟨rfl, rfl, rfl, fun _ => id, rfl⟩

theorem LocalizerStep.untouched (h : LocalizerStep s x t) (hy : t.session = some y) :
    Untouched s x t y := by
  cases h with
  | located l f v tr =>
    rw [tellAny_session] at hy
    cases hy
    exact ⟨by rw [tellAny_rig], by rw [tellAny_rig], by rw [tellAny_rig], fun _ => id, rfl⟩
  | _ => cases hy; exact ⟨rfl, rfl, rfl, fun _ => id, rfl⟩

/-- What is given up with a capture keeps its layout. -/
theorem abandon_untouched (hy : (s.abandon x).session = some y) :
    Untouched s x (s.abandon x) y := by
  have hrig : (s.abandon x).rig = s.rig := by
    unfold abandon
    split <;> split <;> rfl
  refine ⟨congrArg Rig.captured hrig, congrArg Rig.coded hrig, congrArg Rig.geometry hrig, ?_, ?_⟩
  · cases hy
    intro audio ha
    dsimp only
    split
    · exact ⟨ha.rate, ha.channels, ha.periodSize, ha.periodCount, ha.gain, ha.buffer⟩
    · exact ha
  · cases hy; rfl

/-- A step in a session leaves alone what was opened. -/
theorem SessionStep.untouched (h : SessionStep s x l t) (hx : s.session = some x)
    (hy : t.session = some y) : Untouched s x t y := by
  cases h with
  | letGo | refused =>
    obtain rfl : x = y := Option.some.inj (hx.symm.trans hy)
    exact ⟨rfl, rfl, rfl, fun _ => id, rfl⟩
  | restarted | stopped =>
    simp only [signal, hx] at hy ⊢
    cases hy
    exact ⟨rfl, rfl, rfl, fun _ => id, rfl⟩
  | reclaimed a => rw [(reclaim_gone (s := s) x a).session] at hy; cases hy
  | spawned w => cases w <;> cases hy <;> exact ⟨rfl, rfl, rfl, fun _ => id, rfl⟩
  | announced =>
    rw [session_announce] at hy
    cases hy
    refine ⟨?_, ?_, ?_, fun _ => id, rfl⟩ <;> simp [announce, answer]
  | spawnFailed w cause =>
    obtain ⟨z, hz⟩ : ∃ z, (s.abandon x).session = some z := ⟨_, rfl⟩
    obtain ⟨h1, h2, h3, h4, h5⟩ := abandon_untouched hz
    simp only [signal, hz] at hy ⊢
    cases hy
    exact ⟨h1, h2, h3, h4, h5⟩
  | producer _ h => exact h.untouched hy
  | encoder _ h => exact h.untouched hy
  | localizer _ h => exact h.untouched hy
  | encoderQuit | localizerQuit => cases hy; exact ⟨rfl, rfl, rfl, fun _ => id, rfl⟩

theorem reclaim_rig (x : Session) (a : Afterwards) : (s.reclaim x a).rig = s.rig := by
  unfold reclaim
  dsimp only
  rw [goOn_rig]
  split
  · rw [tell_rig]
  · rfl

end Untouched

/-! ## A start opens what its settings say -/

/-- If the session that a start in `s` begins is there in `t`, it was opened with the settings of
the start and the layout that these resolved to in `s`. -/
structure Honoured (s : State) (settings : StreamSettings) (t : State) : Prop where
  geometry : t.rig.geometry = s.rig.geometry
  opened : ∀ x, t.session = some x → x.number = s.begun → ∃ audio localizer,
    settings.resolve? s.rig.geometry = some (audio, localizer) ∧ Opened settings audio t x

section Honoured
variable {s t u : State} {x : Session} {l : Label} {settings : StreamSettings}
  {inside : List Label}

theorem listening_of_run {rig : Rig} {listening : Bool} {ls : List Label}
    (h : (State.new rig listening).steps ls = some t) : t.listening = listening :=
  steps_induction (P := fun _ t => t.listening = listening) rfl
    (fun ls _ _ _ hrun hl ih =>
      (step_listening (numbered_of_run rig listening ls hrun) hl).trans ih) ls h

/-- No call begins but by being asked for. -/
theorem idle_of_step (hn : t.Numbered) (ho : t.owner = .idle) (hl : l.call? = none)
    (h : t.step l = some u) : u.owner = .idle := by
  cases hx : t.session with
  | some x =>
    cases session_move hn hx h with
    | thread _ y hm => exact hm.owner.trans ho
    | rejected _ hr | called _ hr => rw [hr] at hl; cases hl
    | reclaimed _ how | spawned _ how | announced how | stranded _ _ _ how =>
      rw [ho] at how; cases how
  | none =>
    cases l with
    | equip rig =>
      simp only [step] at h
      split at h
      · cases h; exact ho
      · cases h
    | letGo => cases h; exact ho
    | start | stop => cases hl
    | owner => simp [step, ownerStep, ho] at h
    | spawnFails => simp [step, spawnFails, ho] at h
    | producer | encoder | encoderQuits | localizer | localizerQuits => simp [step, hx] at h

/-- During a call and without a session the owner prepares one, or nothing of this changes. -/
theorem step_vacant (hx : t.session = none) (ho : t.owner ≠ .idle) (hl : l.call? = none)
    (h : t.step l = some u) :
    (u.rig.geometry = t.rig.geometry ∧ u.session = none) ∨
      ∃ settings, t.owner = .preparing settings ∧ PrepareStep t settings u := by
  cases l with
  | equip rig => simp [step, ho] at h
  | letGo => cases h; exact .inl ⟨rfl, hx⟩
  | start | stop => cases hl
  | owner =>
    cases how : t.owner with
    | preparing settings =>
      simp only [step, ownerStep, how, Option.some.injEq] at h
      exact .inr ⟨settings, rfl, h ▸ prepare_cases t settings⟩
    | _ => simp [step, ownerStep, how, hx] at h
  | spawnFails => simp [step, spawnFails, hx] at h
  | producer | encoder | encoderQuits | localizer | localizerQuits => simp [step, hx] at h

theorem Honoured.prepare (h : Honoured s settings t) (hx : t.session = none)
    (hp : PrepareStep t settings u) : Honoured s settings u := by
  cases hp with
  | setUp audio localizer capture effects encoder rig ha hc he hr hg ho =>
    refine ⟨hg.trans h.geometry, fun y hy _ => ⟨audio, localizer, h.geometry ▸ ha, ?_⟩⟩
    cases hy
    have hopened : (Capture.Attempt.mk settings.card settings.device audio
        t.rig.device.refusal).Succeeds .new := by
      rw [Capture.Attempt.Succeeds, Capture.Attempt.make, hc]
    have hholds := hopened.holds.2
    rw [Capture.Attempt.make, hc] at hholds
    exact ⟨ho.1, ho.2, hholds, rfl⟩
  | refused e rig he hr hg =>
    refine ⟨hg.trans h.geometry, fun y hy => ?_⟩
    have hy : t.session = some y := hy
    rw [hx] at hy; cases hy
  | overflowed =>
    refine ⟨h.geometry, fun y hy => ?_⟩
    have hy : t.session = some y := hy
    rw [hx] at hy; cases hy

/-- While a start is in progress its session stays as it was prepared. -/
theorem Honoured.step (h : Honoured s settings t) (hs : Stage s settings inside t)
    (hn : t.Numbered) (ho : t.owner ≠ .idle) (hl : l.call? = none) (hu : t.step l = some u) :
    Honoured s settings u := by
  cases hx : t.session with
  | none =>
    rcases step_vacant hx ho hl hu with ⟨hg, hnone⟩ | ⟨_, how, hp⟩
    · exact ⟨hg.trans h.geometry, fun y hy => by rw [hnone] at hy; cases hy⟩
    · cases hs with
      | asked hj =>
        obtain rfl : _ = settings := by simpa [how] using hj
        exact h.prepare hx hp
      | crashed hj | refused _ hj | spawning _ _ hj | announcing _ hj | started _ _ _ hj
      | failing _ _ _ hj | failed _ _ _ _ hj => rw [how] at hj; cases hj
  | some x =>
    rcases hn.step_of_some hx hu with ⟨he, -⟩ | ⟨a, rfl⟩ | ⟨y, hc, hw⟩
    · cases l with
      | equip rig => simp [State.step, ho] at hu
      | _ => cases he
    · refine ⟨by rw [reclaim_rig]; exact h.geometry, fun y hy => ?_⟩
      rw [(reclaim_gone x a).session] at hy; cases hy
    · have huntouched := hc.untouched hx hw.session
      refine ⟨huntouched.geometry.trans h.geometry, fun z hz hnum => ?_⟩
      obtain rfl := Option.some.inj (hw.session.symm.trans hz)
      obtain ⟨audio, localizer, ha, hopened⟩ := h.opened x hx (hw.number.symm.trans hnum)
      exact ⟨audio, localizer, ha, hopened.untouched huntouched⟩

theorem honoured_begin (hn : s.Numbered) :
    (s.beginStart settings).owner = s.owner ∨ Honoured s settings (s.beginStart settings) := by
  unfold beginStart
  split
  · exact .inl rfl
  · refine .inr ⟨?_, fun y hy hnum => ?_⟩
    · unfold signal
      dsimp only
      split <;> rfl
    · -- a session that is there already has a smaller number
      unfold signal at hy
      cases hx : s.session with
      | none => simp [hx, goOn] at hy
      | some x =>
        have hlt := hn.session x hx
        simp only [hx, Option.some.injEq] at hy
        subst hy
        exact absurd hnum (Nat.ne_of_lt hlt)

theorem Stage.busy (h : Stage s settings inside t) (ha : t.answers = s.answers) :
    t.owner ≠ .idle := by
  have hmore (a : Except StartError Unit) : t.answers ≠ s.answers ++ [a] := by
    rw [ha]; exact fun h => by simp at h
  cases h with
  | asked ho => rintro h; simp [h] at ho
  | crashed ho | spawning _ _ ho | announcing _ ho | failing _ _ _ ho => rw [ho]; nofun
  | refused _ _ _ ha | started _ _ _ _ _ _ ha | failed _ _ _ _ _ _ _ ha => exact absurd ha (hmore _)

/-- A start that has succeeded has begun its session and told its start. -/
theorem Stage.succeeded (h : Stage s settings inside t) (ha : t.answers = s.answers ++ [.ok ()])
    (hl : s.listening = true) : ∃ x, t.session = some x ∧ x.number = s.begun ∧
      .told s.begun (.control ⟨true, x.params⟩) ∈ t.trace ∧
      ∀ c, .told s.begun (.control c) ∈ t.trace → c.params = x.params := by
  cases h with
  | started x later early _ hx hn _ ht hearly hlater =>
    rw [heard_of_listening hl] at ht
    refine ⟨x, hx, hn, by simp [ht], fun c hc => ?_⟩
    simp only [ht, List.mem_append, List.mem_cons, List.singleton_append] at hc
    rcases hc with hc | hc | hc | hc
    · cases hlater _ hc
    · cases hc
    · cases hc; rfl
    · cases hearly _ hc
  | asked _ _ h | crashed _ _ h | spawning _ _ _ _ _ _ _ _ h | announcing _ _ _ _ h
  | failing _ _ _ _ _ _ _ _ _ h => rw [h] at ha; simp at ha
  | refused _ _ _ h | failed _ _ _ _ _ _ _ h => rw [h] at ha; simp at ha

theorem honoured_of_run (hn : s.Numbered) (ht : s.steps (.start settings :: inside) = some t)
    (hi : ∀ l ∈ inside, l.call? = none) : t.owner = .idle ∨ Honoured s settings t := by
  refine start_induction (P := fun _ t => t.owner = .idle ∨ Honoured s settings t) ht hi
    (fun ho => (honoured_begin hn).imp_left fun h => h.trans ho) ?_
  intro ls l t u hrun hls hl hu ih
  have hnt := hn.steps hrun
  by_cases ho : t.owner = .idle
  · exact .inl (idle_of_step hnt ho hl hu)
  · exact .inr ((ih.resolve_left ho).step (stage_of_run hn hrun hls) hnt ho hl hu)

end Honoured

/-! ## Announcements of a session -/

/-- All starts and stops of session `n` are announced with the parameters `q`. -/
structure Announces (n : Nat) (q : StreamParams) (s : State) : Prop where
  numbered : s.Numbered
  begun : n < s.begun
  told : ∀ c, .told n (.control c) ∈ s.trace → c.params = q
  session : ∀ x, s.session = some x → x.number = n → x.params = q

section Announces
variable {s t : State} {x : Session} {l : Label} {n : Nat} {q : StreamParams}

/-- What a step in a session announces, it announces of this session and with its parameters. -/
theorem SessionMove.control (h : SessionMove s x l t) (hx : s.session = some x) {m : Nat}
    {c : Control} (hm : .told m (.control c) ∈ t.trace) :
    .told m (.control c) ∈ s.trace ∨ m = x.number ∧ c.params = x.params := by
  cases h with
  | thread _ y h =>
    rcases h.told hm with hm | ⟨⟨_, he⟩, -⟩ | ⟨⟨_, he⟩, -⟩
    · exact .inl hm
    · cases he
    · cases he
  | rejected => exact .inl (by simpa [answer] using hm)
  | called a => simp only [signal, hx] at hm; exact .inl hm
  | reclaimed a ho =>
    have hgo (u : State) (h : .told m (.control c) ∈ (u.goOn a).trace) :
        .told m (.control c) ∈ u.trace := by
      cases a with
      | fail e => simpa [goOn, answer] using h
      | _ => exact h
    unfold reclaim at hm
    have hm := hgo _ hm
    split at hm
    · simp only [tell] at hm
      split at hm
      · rcases List.mem_cons.1 hm with he | hm
        · cases he; exact .inr ⟨rfl, rfl⟩
        · exact .inl hm
      · exact .inl hm
    · exact .inl hm
  | spawned w => cases w <;> exact .inl hm
  | announced ho =>
    simp only [announce, answer, tell] at hm
    split at hm
    · simp only [List.mem_cons] at hm
      rcases hm with he | he | hm
      · cases he
      · cases he; exact .inr ⟨rfl, rfl⟩
      · exact .inl hm
    · exact .inl (by simpa using hm)
  | stranded w cause =>
    obtain ⟨z, hz⟩ : ∃ z, (s.abandon x).session = some z := ⟨_, rfl⟩
    simp only [signal, hz, abandon_trace] at hm
    exact .inl hm

theorem SessionMove.titled (h : SessionMove s x l t) (hx : s.session = some x) {y : Session}
    (hy : t.session = some y) : y.number = x.number ∧ y.params = x.params := by
  cases h with
  | thread _ z h =>
    obtain rfl := Option.some.inj (h.worked.session.symm.trans hy)
    exact ⟨h.worked.alike.number, h.worked.alike.params⟩
  | rejected =>
    obtain rfl := Option.some.inj (hx.symm.trans hy)
    exact ⟨rfl, rfl⟩
  | called a => simp only [signal, hx] at hy; cases hy; exact ⟨rfl, rfl⟩
  | reclaimed a => rw [(reclaim_gone x a).session] at hy; cases hy
  | spawned w => cases w <;> cases hy <;> exact ⟨rfl, rfl⟩
  | announced => rw [session_announce] at hy; cases hy; exact ⟨rfl, rfl⟩
  | stranded w cause =>
    simp only [signal, abandon, Option.some.injEq] at hy
    subst hy
    exact ⟨rfl, rfl⟩

theorem Announces.step (h : Announces n q s) (ht : s.step l = some t) : Announces n q t := by
  have hnt := h.numbered.step ht
  cases hx : s.session with
  | some x =>
    have hm := session_move h.numbered hx ht
    have hb : s.begun ≤ t.begun := by
      rcases h.numbered.step_of_some hx ht with ⟨-, rig, rfl⟩ | ⟨a, rfl⟩ | ⟨y, -, hw⟩
      · exact Nat.le_refl _
      · exact (reclaim_gone x a).begun.ge
      · exact hw.begun.ge
    refine ⟨hnt, Nat.lt_of_lt_of_le h.begun hb, fun c hc => ?_, fun y hy hn => ?_⟩
    · rcases hm.control hx hc with hc | ⟨rfl, hp⟩
      · exact h.told c hc
      · exact hp.trans (h.session x hx rfl)
    · obtain ⟨hnum, hparams⟩ := hm.titled hx hy
      exact hparams.trans (h.session x hx (hnum.symm.trans hn))
  | none =>
    -- the session is gone, and one that begins has another number
    have hpast : Past n s :=
      ⟨h.numbered, h.begun, fun y hy => by rw [hx] at hy; cases hy⟩
    have hpt := hpast.step ht
    refine ⟨hnt, hpt.begun, fun c hc => ?_, fun y hy hn => absurd hn (hpt.session y hy)⟩
    rcases (step_tells h.numbered ht).mem hc with hc | ⟨x, hx', -⟩
    · exact h.told c hc
    · rw [hx] at hx'; cases hx'

theorem Announces.steps (h : Announces n q s) {ls : List Label} (ht : s.steps ls = some t) :
    Announces n q t :=
  steps_induction (P := fun _ t => Announces n q t) h (fun _ _ _ _ _ hl h => h.step hl) ls ht

end Announces

end State

end MicStream
