import MicStream.Proofs.Node.Phases
import MicStream.Proofs.Stream.Opening
/-!
# What a command opens

A start command gives a node the codec parameters; card, device and, without
localization, the shape of the periods come from the settings of the node. The
rest of the way is that of a start of the streamer.

Results:
* `streamer_of_run`: a run of a node is a run of its streamer.
* `opened_as_commanded`: what the device and the codec were opened with when a
  start command has succeeded, and what is announced of its session.
-/
namespace MicStream.Node

/-! ## Runs of a node -/

section Run
variable {n m : Node}

theorem streamer_of_run {ls : List Label} (h : ls.foldlM step n = some m) :
    m.base = n.base ∧ ∃ ks, n.streamer.steps ks = some m.streamer := by
  induction ls generalizing n with
  | nil =>
    obtain rfl := Option.some.inj h
    exact ⟨rfl, [], rfl⟩
  | cons l ls ih =>
    rw [List.foldlM_cons] at h
    obtain ⟨k, hk, h⟩ := Option.bind_eq_some_iff.1 h
    obtain ⟨hb, ks, hks⟩ := streamer_of_step hk
    obtain ⟨hb', ks', hks'⟩ := ih h
    exact ⟨hb'.trans hb, ks ++ ks', by rw [State.steps_append, hks, Option.bind_some, hks']⟩

theorem run_inside {inside : List MicStream.Label}
    (h : (inside.map .inside).foldlM step n = some m) :
    (∀ l ∈ inside, l.call? = none) ∧ n.streamer.steps inside = some m.streamer := by
  induction inside generalizing n with
  | nil =>
    obtain rfl := Option.some.inj h
    exact ⟨nofun, rfl⟩
  | cons l inside ih =>
    rw [List.map_cons, List.foldlM_cons] at h
    obtain ⟨k, hk, h⟩ := Option.bind_eq_some_iff.1 h
    obtain ⟨hl, hstep⟩ := step_inside hk
    obtain ⟨hi, hsteps⟩ := ih h
    exact ⟨List.forall_mem_cons.2 ⟨hl, hi⟩, State.steps_cons.2 ⟨_, hstep, hsteps⟩⟩

end Run

/-! ## What a command opens -/

/-- A node has been commanded in any way, and by a start command that it does not ignore; with step
`last` the start has returned with success. -/
theorem opened_as_commanded {base : StreamSettings} {rig : Rig} {before : List Label}
    {n r m : Node} {c : Control} {inside : List MicStream.Label} {last : MicStream.Label}
    (hn : before.foldlM step (Node.new base rig) = some n) (hc : c.start = true)
    (hq : n.streamer.running = false)
    (hr : (.command c :: inside.map .inside).foldlM step n = some r)
    (hm : r.step (.inside last) = some m) (hpending : r.streamer.answers = n.streamer.answers)
    (hdone : m.streamer.answers = n.streamer.answers ++ [.ok ()]) :
    ∃ (x : Session) (audio : AudioConfig) (q : StreamParams),
      m.streamer.session = some x ∧ x.number = n.streamer.begun ∧
      m.streamer.rig.captured = some ⟨base.card, base.device, Capture.request audio⟩ ∧
      x.producer.capture.Holds audio ∧
      (base.localization = false → audio =
        { sampleRate := c.params.sampleRate
          frameSize := base.periodSize
          channels := c.params.channels.toUInt32
          gain := 1
          periodCount := base.periodCount }) ∧
      (base.localization = true →
        let setup := (GeometryFile.load (n.streamer.rig.geometry base.geometryPath)).setup
        audio =
          { sampleRate := setup.sampleRate
            frameSize := setup.frameSize
            channels := setup.channels
            gain := setup.gain
            periodCount := base.periodCount }) ∧
      m.streamer.rig.coded = some ⟨q.sampleRate, 1, q.bitRate, q.aot⟩ ∧
      q = ⟨audio.sampleRate, 1, c.params.bitRate, if c.params.aot = 0 then 2 else c.params.aot⟩ ∧
      .told x.number (.control ⟨true, q⟩) ∈ m.streamer.trace ∧
      ∀ (later : List Label) (k : Node), later.foldlM step m = some k → ∀ d : Control,
        .told x.number (.control d) ∈ k.streamer.trace → d.params = q := by
  obtain ⟨hbase, bs, hbs⟩ := streamer_of_run hn
  have hnum : n.streamer.Numbered := State.numbered_of_run rig true bs hbs
  have hlisten : n.streamer.listening = true := State.listening_of_run hbs
  rw [List.foldlM_cons] at hr
  obtain ⟨k, hk, hr⟩ := Option.bind_eq_some_iff.1 hr
  obtain ⟨hi, hinside⟩ := run_inside hr
  have hrun : n.streamer.steps (.start (n.settings c) :: inside) = some r.streamer :=
    State.steps_cons.2 ⟨_, step_start hc hq hk, hinside⟩
  obtain ⟨hl, hlast⟩ := step_inside hm
  have hrun' : n.streamer.steps (.start (n.settings c) :: (inside ++ [last])) =
      some m.streamer := by
    rw [← List.cons_append]
    exact State.steps_concat.2 ⟨_, hrun, hlast⟩
  have hi' : ∀ l ∈ inside ++ [last], l.call? = none := by
    simpa [or_imp, forall_and] using ⟨hi, hl⟩
  -- until the last step the start is in progress, so that the session is as it was prepared
  have hstage := State.stage_of_run hnum hrun hi
  have hbusy := hstage.busy hpending
  have hhonoured := ((State.honoured_of_run hnum hrun hi).resolve_left hbusy).step hstage
    (hnum.steps hrun) hbusy hl hlast
  obtain ⟨x, hx, hxn, htold, hparams⟩ :=
    (State.stage_of_run hnum hrun' hi').succeeded hdone hlisten
  obtain ⟨audio, localizer, ha, hopened⟩ := hhonoured.opened x hx hxn
  obtain ⟨hplain, harray⟩ := StreamSettings.resolve_cases ha
  have hannounces : State.Announces x.number x.params m.streamer := by
    have hnm := hnum.steps hrun'
    refine ⟨hnm, hnm.session x hx, fun d hd => hparams d (hxn ▸ hd), fun y hy _ => ?_⟩
    rw [Option.some.inj (hx.symm.trans hy)]
  have hsettings : n.settings c = { base with params := c.params } := by rw [settings, hbase]; rfl
  rw [hsettings] at hopened hplain harray
  refine ⟨x, audio, x.params, hx, hxn, hopened.captured, hopened.holds, hplain, harray, ?_,
    hopened.params, hxn ▸ htold, fun later k hlater d hd => ?_⟩
  · rw [hopened.coded, hopened.params]
    rfl
  · obtain ⟨-, ks, hks⟩ := streamer_of_run hlater
    exact (hannounces.steps hks).told d hd

/-- A start that leaves the object type to the codec. -/
def sampleStart : Control := ⟨true, ⟨16000, 1, 32000, 0⟩⟩

/-- With localization the standard array decides on the layout, not the command. -/
theorem opened_as_commanded_sample : ∃ r m x,
    (.command sampleStart :: [.owner, .owner, .owner, .owner].map .inside).foldlM step
        (Node.new State.sampleArraySettings State.sampleArrayRig) = some r ∧
      r.step (.inside .owner) = some m ∧ m.streamer.session = some x ∧
      m.streamer.rig.captured = some ⟨State.sampleArraySettings.card,
        State.sampleArraySettings.device, ⟨48000, 4, 1024, State.sampleArraySettings.periodCount⟩⟩ ∧
      m.streamer.rig.coded = some ⟨48000, 1, 32000, 2⟩ ∧
      .told x.number (.control ⟨true, ⟨48000, 1, 32000, 2⟩⟩) ∈ m.streamer.trace := by
  have hrun : ((.command sampleStart :: [.owner, .owner, .owner, .owner].map .inside).foldlM step
      (Node.new State.sampleArraySettings State.sampleArrayRig)).any (fun r =>
        decide (r.streamer.answers = [] ∧ (r.step (.inside .owner)).any (fun m =>
          decide (m.streamer.answers = [.ok ()])) = true)) = true := by
    decide +kernel
  simp only [Option.any_eq_true, decide_eq_true_eq] at hrun
  obtain ⟨r, hr, hpending, m, hm, hdone⟩ := hrun
  have hnew : ([] : List Label).foldlM step (Node.new State.sampleArraySettings
      State.sampleArrayRig) = some (Node.new State.sampleArraySettings State.sampleArrayRig) := rfl
  obtain ⟨x, audio, q, hx, -, hcaptured, -, -, harray, hcoded, rfl, htold, -⟩ :=
    opened_as_commanded hnew rfl rfl hr hm hpending hdone
  obtain rfl := harray rfl
  exact ⟨r, m, x, hr, hm, hx, hcaptured, hcoded, htold⟩

end MicStream.Node
