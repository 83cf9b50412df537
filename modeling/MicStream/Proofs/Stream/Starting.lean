import MicStream.Proofs.Stream.Calls
/-!
# What is told while a session starts

The threads of a session run before its start is told: the owner spawns one
after the other and tells the start last. So packets may come before the
start, from the moment the encoder runs, and sightings from the moment the
localizer does. If the last thread cannot be spawned the start fails, and
packets may have been told of a session that nobody announces.

`Stage` is where the call is and what was told of its session until then, for
every interleaving, those included in which threads cannot be spawned.

Results:
* `session_move`: what a step in a session is, by whose it is.
* `Stage.step`: what every step makes of the stage.
* `Past.tells`: nothing is told of a session that is gone.
* `told_by_start`: what has been told when a start is in progress, has
  succeeded or has failed.
* `packets_before_start`: a packet that comes before the start of its session,
  and one of a session whose start fails.
-/
namespace MicStream

/-- What may have been told of a session of which this thread is the next to be spawned. -/
def Worker.permits : Worker → Event → Prop
  | .localizer, .packet _ => True
  | _, _ => False

theorem Worker.permits_packet {w : Worker} {e : Event} (h : w.permits e) :
    w = .localizer ∧ ∃ p, e = .packet p := by
  cases w <;> cases e <;> first | exact h.elim | exact ⟨rfl, _, rfl⟩

namespace State

/-! ## Who tells what -/

/-- A step of a thread of session `x`, which is `y` after it, or of nobody. Packets are told by an
encoder that is at work, sightings by a localizer that is. -/
structure ThreadStep (s : State) (x : Session) (t : State) (y : Session) : Prop where
  worked : Worked s x t y
  owner : t.owner = s.owner
  packet : ∀ m p, .told m (.packet p) ∈ t.trace →
    .told m (.packet p) ∈ s.trace ∨ x.encoder.stage = .coding
  sighting : ∀ m v, .told m (.sighting v) ∈ t.trace →
    .told m (.sighting v) ∈ s.trace ∨ ∃ l f, x.localizer = some l ∧ l.stage = .holding f
  encoder : x.encoder.stage = .ready ∨ x.encoder.stage = .finished → y.encoder = x.encoder
  localizer : (∀ l, x.localizer = some l → l.stage = .ready ∨ l.stage = .finished) →
    y.localizer = x.localizer

section Threads
variable {s t : State} {x y : Session} {l : Label}

theorem ThreadStep.of_trace (hw : Worked s x t y) (ho : t.owner = s.owner)
    (ht : t.trace = s.trace)
    (he : x.encoder.stage = .ready ∨ x.encoder.stage = .finished → y.encoder = x.encoder)
    (hl : (∀ l, x.localizer = some l → l.stage = .ready ∨ l.stage = .finished) →
      y.localizer = x.localizer) : ThreadStep s x t y :=
  ⟨hw, ho, fun _ _ h => .inl (ht ▸ h), fun _ _ h => .inl (ht ▸ h), he, hl⟩

theorem ThreadStep.told (h : ThreadStep s x t y) {m : Nat} {e : Event} (hm : .told m e ∈ t.trace) :
    .told m e ∈ s.trace ∨ ((∃ p, e = .packet p) ∧ x.encoder.stage = .coding) ∨
      ((∃ v, e = .sighting v) ∧ ∃ l f, x.localizer = some l ∧ l.stage = .holding f) := by
  cases e with
  | packet p => exact (h.packet m p hm).imp_right fun he => .inl ⟨⟨p, rfl⟩, he⟩
  | sighting v => exact (h.sighting m v hm).imp_right fun hl => .inr ⟨⟨v, rfl⟩, hl⟩
  | control c =>
    obtain ⟨new, ht, hn⟩ := h.worked.told
    rw [ht] at hm
    rcases List.mem_append.1 hm with hm | hm
    · obtain ⟨e, he, hc⟩ := hn _ hm
      cases he; cases hc
    · exact .inl hm

theorem mem_packets {n : Nat} {p : Packet} :
    p ∈ s.packets n ↔ .told n (.packet p) ∈ s.trace := by
  simp only [packets, List.mem_reverse, List.mem_filterMap]
  constructor
  · rintro ⟨a, ha, hp⟩
    unfold Notice.packet? at hp
    split at hp
    · split at hp
      · rename_i m _ hm
        cases hp
        exact hm ▸ ha
      · cases hp
    · cases hp
  · intro h
    exact ⟨_, h, if_pos rfl⟩

theorem mem_tellAny {α : Type} {event : α → Event} {n m : Nat} {a : Option α} {e : Event}
    (h : .told m e ∈ (s.tellAny n event a).trace) : .told m e ∈ s.trace ∨ ∃ v, e = event v := by
  cases a with
  | none => exact .inl h
  | some a =>
    simp only [tellAny, tell] at h
    split at h
    · rcases List.mem_cons.1 h with h | h
      · cases h; exact .inr ⟨a, rfl⟩
      · exact .inl h
    · exact .inl h

theorem ProducerStep.thread (h : ProducerStep s x t) : ∃ y, ThreadStep s x t y := by
  obtain ⟨ho, y, hw⟩ := h.worked
  obtain ⟨-, -, he, hl⟩ := h.started hw.session
  refine ⟨y, .of_trace hw ho ?_ (fun _ => he) fun _ => hl⟩
  obtain ⟨r, d, q, p, -, rfl⟩ := h.shape
  rfl

theorem EncoderStep.thread (h : EncoderStep s x t) : ∃ y, ThreadStep s x t y := by
  obtain ⟨ho, y, hw⟩ := h.worked
  obtain ⟨-, -, -, hl⟩ := h.started hw.session
  have hbusy : ¬ (x.encoder.stage = .ready ∨ x.encoder.stage = .finished) := by
    rintro (hs | hs) <;> cases h <;> simp_all
  cases h with
  | coded p c n hs hb =>
    refine ⟨y, hw, ho, fun _ _ _ => .inr hs, fun m v hm => ?_, fun h => absurd h hbusy,
      fun _ => hl⟩
    rcases mem_tellAny hm with hm | ⟨_, h⟩
    · exact .inl hm
    · cases h
  | _ => exact ⟨y, .of_trace hw ho rfl (fun h => absurd h hbusy) fun _ => hl⟩

theorem LocalizerStep.thread (h : LocalizerStep s x t) : ∃ y, ThreadStep s x t y := by
  obtain ⟨ho, y, hw⟩ := h.worked
  obtain ⟨-, -, -, he⟩ := h.started hw.session
  have hbusy : ¬ ∀ l, x.localizer = some l → l.stage = .ready ∨ l.stage = .finished := by
    intro hall
    cases h with
    | took l _ _ hl hs | ended l hl hs | located l _ _ _ hl hs | ignored l _ hl hs =>
      have := hall l hl
      simp [hs] at this
  cases h with
  | located l f v tr hl hs =>
    refine ⟨y, hw, ho, fun m p hm => ?_, fun _ _ _ => .inr ⟨l, f, hl, hs⟩, fun _ => he,
      fun h => absurd h hbusy⟩
    rcases mem_tellAny hm with hm | ⟨_, h⟩
    · exact .inl hm
    · cases h
  | _ => exact ⟨y, .of_trace hw ho rfl (fun _ => he) fun h => absurd h hbusy⟩

/-- A step while session `x` is there. -/
inductive SessionMove (s : State) (x : Session) (l : Label) : State → Prop where
  | thread (t : State) (y : Session) (h : ThreadStep s x t y) : SessionMove s x l t
  | rejected (settings : StreamSettings) (hl : l = .start settings) :
      SessionMove s x l (s.answer (.error .alreadyRunning))
  | called (a : Afterwards) (hl : l.call? = some a) : SessionMove s x l (s.signal a)
  | reclaimed (a : Afterwards) (ho : s.owner = .joining a) : SessionMove s x l (s.reclaim x a)
  | spawned (w : Worker) (ho : s.owner = .spawning w) : SessionMove s x l (s.spawn x w)
  | announced (ho : s.owner = .announcing) : SessionMove s x l (s.announce x)
  | stranded (w : Worker) (cause : String) (hl : l = .spawnFails cause)
      (ho : s.owner = .spawning w) :
      SessionMove s x l ((s.abandon x).signal (.fail (.notSpawned cause)))

/-- A session that nobody touches. -/
theorem ThreadStep.rig (hx : s.session = some x) (rig : Rig) : ThreadStep s x { s with rig } x :=
  .of_trace ⟨hx, ⟨rfl, rfl, rfl, rfl, rfl, rfl⟩, rfl, rfl, rfl, rfl, id, .of_eq rfl⟩ rfl rfl
    (fun _ => rfl) fun _ => rfl

theorem session_move (hn : s.Numbered) (hx : s.session = some x) (h : s.step l = some t) :
    SessionMove s x l t := by
  cases he : l.equips with
  | true =>
    cases l with
    | equip rig =>
      simp only [step] at h
      split at h
      · cases h; exact .thread _ x (.rig hx rig)
      · cases h
    | _ => cases he
  | false =>
  have hp : ∀ settings, s.owner ≠ .preparing settings := fun settings ho => by
    rw [hn.preparing settings ho] at hx; cases hx
  cases step_cases he hp hx h with
  | letGo => exact .thread _ x (.rig hx _)
  | refused settings => exact .rejected settings rfl
  | restarted settings => exact .called (.start settings) rfl
  | stopped => exact .called .rest rfl
  | reclaimed a ho => exact .reclaimed a ho
  | spawned w ho => exact .spawned w ho
  | announced ho => exact .announced ho
  | spawnFailed w cause ho => exact .stranded w cause rfl ho
  | producer _ h | encoder _ h | localizer _ h =>
    obtain ⟨y, h⟩ := h.thread
    exact .thread _ y h
  | encoderQuit hs =>
    refine .thread _ _ (.of_trace ⟨rfl, ⟨rfl, rfl, rfl, rfl, rfl, rfl⟩, rfl, rfl, rfl, rfl, id,
      .of_eq rfl⟩ rfl rfl (fun h => ?_) fun _ => rfl)
    simp [hs] at h
  | localizerQuit l ho hs =>
    refine .thread _ _ (.of_trace ⟨rfl, ⟨rfl, rfl, rfl, rfl, rfl, rfl⟩, rfl, rfl, rfl, rfl, id,
      .of_eq rfl⟩ rfl rfl (fun _ => rfl) fun h => ?_)
    have := h l ho
    simp [hs] at this

end Threads

/-! ## Where a start is -/

/-- In a run of a start in `s`, thread `w` of its session could not be spawned. -/
def Stranded (s : State) (settings : StreamSettings) (inside : List Label) (w : Worker)
    (cause : String) : Prop :=
  ∃ pre post u, inside = pre ++ .spawnFails cause :: post ∧
    s.steps (.start settings :: pre) = some u ∧ u.owner = .spawning w

/-- What a start in `s` has come to in `t`, and what has been told of its session by then. -/
inductive Stage (s : State) (settings : StreamSettings) (inside : List Label) (t : State) :
    Prop where
  | asked (ho : t.owner = .joining (.start settings) ∨ t.owner = .preparing settings)
      (hb : t.begun = s.begun) (ha : t.answers = s.answers)
  | crashed (ho : t.owner = .crashed) (hb : t.begun = s.begun) (ha : t.answers = s.answers)
  | refused (e : StartError) (ho : t.owner = .idle) (hb : t.begun = s.begun)
      (ha : t.answers = s.answers ++ [.error e])
  | spawning (w : Worker) (y : Session) (ho : t.owner = .spawning w) (hy : t.session = some y)
      (hn : y.number = s.begun) (hu : y.announced = false)
      (he : w ≠ .localizer → y.encoder.stage = .ready)
      (hl : ∀ l, y.localizer = some l → l.stage = .ready) (ha : t.answers = s.answers)
      (ht : ∀ e, .told s.begun e ∈ t.trace → w.permits e)
  | announcing (y : Session) (ho : t.owner = .announcing) (hy : t.session = some y)
      (hn : y.number = s.begun) (ha : t.answers = s.answers)
      (ht : ∀ e, .told s.begun e ∈ t.trace → e.isControl = false)
  | started (y : Session) (later early : List Notice) (ho : t.owner = .idle)
      (hy : t.session = some y) (hn : y.number = s.begun) (ha : t.answers = s.answers ++ [.ok ()])
      (ht : t.trace = later ++ .answered (.ok ()) ::
        (s.heard [.told s.begun (.control ⟨true, y.params⟩)] ++ early))
      (hearly : ∀ e, .told s.begun e ∈ early → e.isControl = false)
      (hlater : ∀ e, .told s.begun e ∈ later → e.isControl = false)
  | failing (w : Worker) (cause : String) (y : Session)
      (ho : t.owner = .joining (.fail (.notSpawned cause))) (hy : t.session = some y)
      (hn : y.number = s.begun) (hu : y.announced = false)
      (he : w ≠ .localizer → y.encoder.stage = .finished)
      (hl : ∀ l, y.localizer = some l → l.stage = .finished) (ha : t.answers = s.answers)
      (hs : Stranded s settings inside w cause)
      (ht : ∀ e, .told s.begun e ∈ t.trace → w.permits e)
  | failed (w : Worker) (cause : String) (later early : List Notice) (ho : t.owner = .idle)
      (hx : t.session = none) (hb : s.begun < t.begun)
      (ha : t.answers = s.answers ++ [.error (.notSpawned cause)])
      (hs : Stranded s settings inside w cause)
      (ht : t.trace = later ++ .answered (.error (.notSpawned cause)) :: early)
      (hearly : ∀ e, .told s.begun e ∈ early → w.permits e)
      (hlater : ∀ e, .told s.begun e ∉ later)

section Stage
variable {s t u : State} {settings : StreamSettings} {inside : List Label} {l : Label}
  {w : Worker} {cause : String} {x y : Session}

theorem Stranded.concat (h : Stranded s settings inside w cause) (l : Label) :
    Stranded s settings (inside ++ [l]) w cause := by
  obtain ⟨pre, post, u, rfl, hu, ho⟩ := h
  exact ⟨pre, post ++ [l], u, by simp, hu, ho⟩

/-- Threads that may not have begun, or have ended, are not heard. -/
theorem ThreadStep.permitted (h : ThreadStep t x u y)
    (he : w ≠ .localizer → x.encoder.stage = .ready ∨ x.encoder.stage = .finished)
    (hl : ∀ l, x.localizer = some l → l.stage = .ready ∨ l.stage = .finished) {n : Nat}
    (ht : ∀ e, .told n e ∈ t.trace → w.permits e) (e : Event) (hm : .told n e ∈ u.trace) :
    w.permits e := by
  rcases h.told hm with hm | ⟨⟨p, rfl⟩, hs⟩ | ⟨-, l, f, hx, hs⟩
  · exact ht e hm
  · cases w with
    | localizer => trivial
    | _ =>
      have := he nofun
      simp [hs] at this
  · have := hl l hx
    simp [hs] at this

/-- A step of a thread leaves a start at its stage. -/
theorem Stage.thread (h : Stage s settings inside t) (hx : t.session = some x)
    (hm : ThreadStep t x u y) : Stage s settings (inside ++ [l]) u := by
  have hanswers := hm.worked.told.answers
  have hnumber := hm.worked.alike.number
  have hannounced := hm.worked.alike.announced
  cases h with
  | asked ho hb ha =>
    exact .asked (by rw [hm.owner]; exact ho) (hm.worked.begun.trans hb) (hanswers.trans ha)
  | crashed ho hb ha =>
    exact .crashed (hm.owner.trans ho) (hm.worked.begun.trans hb) (hanswers.trans ha)
  | refused e ho hb ha =>
    exact .refused e (hm.owner.trans ho) (hm.worked.begun.trans hb) (hanswers.trans ha)
  | spawning w z ho hy hn hu he hl ha ht =>
    obtain rfl := Option.some.inj (hx.symm.trans hy)
    have hle := hm.localizer fun l h => .inl (hl l h)
    refine .spawning w y (hm.owner.trans ho) hm.worked.session (hnumber.trans hn)
      (hannounced.trans hu) (fun hw => ?_) (hle ▸ hl) (hanswers.trans ha)
      (hm.permitted (fun hw => .inl (he hw)) (fun l h => .inl (hl l h)) ht)
    rw [hm.encoder (.inl (he hw))]
    exact he hw
  | announcing z ho hy hn ha ht =>
    obtain rfl := Option.some.inj (hx.symm.trans hy)
    refine .announcing y (hm.owner.trans ho) hm.worked.session (hnumber.trans hn)
      (hanswers.trans ha) fun e h => ?_
    rcases hm.told h with h | ⟨⟨p, rfl⟩, -⟩ | ⟨⟨v, rfl⟩, -⟩
    · exact ht e h
    · rfl
    · rfl
  | started z later early ho hy hn ha ht hearly hlater =>
    obtain rfl := Option.some.inj (hx.symm.trans hy)
    obtain ⟨new, hu, hnew⟩ := hm.worked.told
    refine .started y (new ++ later) early (hm.owner.trans ho) hm.worked.session
      (hnumber.trans hn) (hanswers.trans ha) ?_ hearly fun e h => ?_
    · rw [hu, ht, hm.worked.alike.params, List.append_assoc]
    · rcases List.mem_append.1 h with h | h
      · obtain ⟨e', he', hc⟩ := hnew _ h
        obtain ⟨-, rfl⟩ := Notice.told.inj he'
        exact hc
      · exact hlater e h
  | failing w cause z ho hy hn hu he hl ha hs ht =>
    obtain rfl := Option.some.inj (hx.symm.trans hy)
    have hle := hm.localizer fun l h => .inr (hl l h)
    refine .failing w cause y (hm.owner.trans ho) hm.worked.session (hnumber.trans hn)
      (hannounced.trans hu) (fun hw => ?_) (hle ▸ hl) (hanswers.trans ha) (hs.concat l)
      (hm.permitted (fun hw => .inr (he hw)) (fun l h => .inr (hl l h)) ht)
    rw [hm.encoder (.inr (he hw))]
    exact he hw
  | failed w cause later early ho hnone => rw [hx] at hnone; cases hnone

/-- The session before has ended, or the one whose threads could not all be spawned. -/
theorem Stage.reclaimed {a : Afterwards} (h : Stage s settings inside t) (hnum : t.Numbered)
    (hx : t.session = some x) (how : t.owner = .joining a) :
    Stage s settings (inside ++ [l]) (t.reclaim x a) := by
  cases h with
  | asked ho hb ha =>
    rw [how] at ho
    obtain rfl : a = .start settings := by simpa using ho
    refine .asked (.inr rfl) ((reclaim_gone x _).begun.trans hb) ?_
    rw [answers_reclaim x (l := .start settings) rfl, ha]
  | failing w cause y ho hy hn hu he hl ha hs ht =>
    rw [how] at ho
    obtain rfl : a = .fail (.notSpawned cause) := by simpa using ho
    obtain rfl := Option.some.inj (hx.symm.trans hy)
    have hb : s.begun < (t.reclaim x (.fail (.notSpawned cause))).begun := by
      rw [(reclaim_gone x _).begun, ← hn]
      exact hnum.session x hx
    refine .failed w cause [] t.trace rfl (reclaim_gone x _).session hb ?_ (hs.concat l) ?_ ht
      fun e => List.not_mem_nil
    · simp only [reclaim, hu, Bool.false_eq_true, if_false, goOn]
      rw [answers_answer, ← ha]
      rfl
    · simp only [reclaim, hu, Bool.false_eq_true, if_false, goOn]
      rfl
  | crashed ho | refused _ ho | spawning _ _ ho | announcing _ ho | started _ _ _ ho
  | failed _ _ _ _ ho => rw [how] at ho; cases ho

theorem Stage.spawned (h : Stage s settings inside t) (hx : t.session = some x)
    (how : t.owner = .spawning w) : Stage s settings (inside ++ [l]) (t.spawn x w) := by
  cases h with
  | spawning w' y ho hy hn hu he hl ha ht =>
    obtain rfl : w = w' := by simpa using how.symm.trans ho
    obtain rfl := Option.some.inj (hx.symm.trans hy)
    cases w with
    | producer => exact .spawning .encoder _ rfl rfl hn hu (fun _ => he nofun) hl ha ht
    | encoder =>
      cases hloc : x.localizer with
      | some l =>
        refine .spawning .localizer _ (by simp [spawn, hloc]) rfl hn hu (fun h => absurd rfl h)
          hl ha fun e h => (ht e h).elim
      | none =>
        exact .announcing _ (by simp [spawn, hloc]) rfl hn ha fun e h => (ht e h).elim
    | localizer =>
      refine .announcing _ rfl rfl hn ha fun e h => ?_
      obtain ⟨-, p, rfl⟩ := Worker.permits_packet (ht e h)
      rfl
  | asked ho => rw [how] at ho; simp at ho
  | crashed ho | refused _ ho | announcing _ ho | started _ _ _ ho | failing _ _ _ ho
  | failed _ _ _ _ ho => rw [how] at ho; cases ho

theorem Stage.announced (h : Stage s settings inside t) (hx : t.session = some x)
    (hlisten : t.listening = s.listening) (how : t.owner = .announcing) :
    Stage s settings (inside ++ [l]) (t.announce x) := by
  cases h with
  | announcing y ho hy hn ha ht =>
    obtain rfl := Option.some.inj (hx.symm.trans hy)
    refine .started { x with announced := true } [] t.trace (by simp [announce, answer])
      (session_announce x) hn ?_ ?_ ht fun e h => absurd h List.not_mem_nil
    · rw [announce, answers_answer, answers_tell, ← ha]; rfl
    · simp only [announce, answer, tell, heard, hlisten, hn]
      cases s.listening <;> rfl
  | asked ho => rw [how] at ho; simp at ho
  | crashed ho | refused _ ho | spawning _ _ ho | started _ _ _ ho | failing _ _ _ ho
  | failed _ _ _ _ ho => rw [how] at ho; cases ho

theorem abandon_session (t : State) (x : Session) : ∃ y, (t.abandon x).session = some y ∧
    y.number = x.number ∧ y.announced = x.announced ∧
    (x.encoder.stage = .ready → y.encoder.stage = .finished) ∧
    ((∀ l, x.localizer = some l → l.stage = .ready) →
      ∀ l, y.localizer = some l → l.stage = .finished) := by
  refine ⟨_, rfl, rfl, rfl, fun h => by simp [h], fun h l hl => ?_⟩
  obtain ⟨m, hm, rfl⟩ := Option.map_eq_some_iff.1 hl
  simp [h m hm]

theorem abandon_trace (t : State) (x : Session) : (t.abandon x).trace = t.trace := by
  unfold abandon
  split <;> split <;> rfl

theorem Stage.stranded (h : Stage s settings inside t) (hx : t.session = some x)
    (hrun : s.steps (.start settings :: inside) = some t) (how : t.owner = .spawning w) :
    Stage s settings (inside ++ [.spawnFails cause])
      ((t.abandon x).signal (.fail (.notSpawned cause))) := by
  cases h with
  | spawning w' y ho hy hn hu he hl ha ht =>
    obtain rfl : w = w' := by simpa using how.symm.trans ho
    obtain rfl := Option.some.inj (hx.symm.trans hy)
    obtain ⟨z, hz, hnum, hann, henc, hloc⟩ := abandon_session t x
    have htr := abandon_trace t x
    simp only [signal, hz]
    refine .failing w cause { z with signalled := true } rfl rfl (hnum.trans hn) (hann.trans hu)
      (fun hw => henc (he hw)) (hloc hl) ?_ ⟨inside, [], t, rfl, hrun, how⟩ ?_
    · rw [answers, htr, ← ha]; rfl
    · rw [htr]; exact ht
  | asked ho => rw [how] at ho; simp at ho
  | crashed ho | refused _ ho | announcing _ ho | started _ _ _ ho | failing _ _ _ ho
  | failed _ _ _ _ ho => rw [how] at ho; cases ho

/-- Without a session the owner prepares one, or nothing but the hardware changes. -/
theorem Stage.vacant (h : Stage s settings inside t) (hn : t.Numbered) (hx : t.session = none)
    (hl : l.call? = none) (hstep : t.step l = some u) :
    Stage s settings (inside ++ [l]) u := by
  have hstarve : l.starves = false := by
    cases l with
    | spawnFails cause => simp [step, spawnFails, hx] at hstep
    | _ => rfl
  rcases (life_cases hn hstarve hstep).aside_or hl with ha | ho
  · cases ha with
    | worked _ x y hy => rw [hx] at hy; cases hy
    | equipped rig =>
      cases h with
      | asked ho hb ha => exact .asked ho hb ha
      | crashed ho hb ha => exact .crashed ho hb ha
      | refused e ho hb ha => exact .refused e ho hb ha
      | failed w cause later early ho _ hb ha hs ht hearly hlater =>
        exact .failed w cause later early ho hx hb ha (hs.concat l) ht hearly hlater
      | spawning _ y _ hy | announcing y _ hy | started y _ _ _ hy | failing _ _ y _ hy =>
        rw [hx] at hy; cases hy
  · cases how : t.owner with
    | preparing st =>
      rw [how] at ho
      cases h with
      | asked h hb ha =>
        obtain rfl : st = settings := by simpa [how] using h
        cases ho with
        | setUp audio localizer capture effects encoder rig =>
          refine .spawning .producer _ rfl rfl hb rfl (fun _ => rfl) (fun l hl => ?_) ha
            fun e he => ?_
          · obtain ⟨v, -, rfl⟩ := Option.map_eq_some_iff.1 hl
            rfl
          · have := hn.told _ e he
            omega
        | refused e rig =>
          exact .refused e rfl hb (by rw [answers_answer, ← ha]; rfl)
        | overflowed => exact .crashed rfl hb ha
      | crashed h | refused _ h | spawning _ _ h | announcing _ h | started _ _ _ h
      | failing _ _ _ h | failed _ _ _ _ h => rw [how] at h; cases h
    | joining a | announcing =>
      rw [how] at ho
      obtain ⟨x, h, -⟩ := ho
      rw [hx] at h; cases h
    | spawning w =>
      rw [how] at ho
      obtain ⟨x, y, h, -⟩ := ho
      rw [hx] at h; cases h
    | idle | crashed => rw [how] at ho; exact ho.elim

theorem Stage.step (h : Stage s settings inside t) (hn : t.Numbered)
    (hlisten : t.listening = s.listening)
    (hrun : s.steps (.start settings :: inside) = some t) (hl : l.call? = none)
    (hstep : t.step l = some u) : Stage s settings (inside ++ [l]) u := by
  cases hx : t.session with
  | none => exact h.vacant hn hx hl hstep
  | some x =>
    cases session_move hn hx hstep with
    | thread _ y hm => exact h.thread hx hm
    | rejected _ hr => rw [hr] at hl; cases hl
    | called _ hr => rw [hl] at hr; cases hr
    | reclaimed a ho => exact h.reclaimed hn hx ho
    | spawned w ho => exact h.spawned hx ho
    | announced ho => exact h.announced hx hlisten ho
    | stranded w cause hl ho => exact hl ▸ h.stranded hx hrun ho

theorem Stage.begin (ho : s.owner = .idle) : Stage s settings [] (s.beginStart settings) := by
  unfold beginStart
  split
  · exact .refused .alreadyRunning ho rfl (answers_answer _)
  · unfold signal
    dsimp only
    split
    · exact .asked (.inr rfl) rfl rfl
    · exact .asked (.inl rfl) rfl rfl

theorem step_listening (hn : s.Numbered) (h : s.step l = some t) : t.listening = s.listening := by
  cases hl : l.starves with
  | false => exact (life_cases hn hl h).listening
  | true =>
    cases hx : s.session with
    | some x =>
      rcases hn.step_of_some hx h with ⟨-, rig, rfl⟩ | ⟨a, rfl⟩ | ⟨y, -, hw⟩
      · rfl
      · exact listening_reclaim x a
      · exact hw.listening
    | none =>
      cases l with
      | spawnFails cause => simp [State.step, spawnFails, hx] at h
      | _ => cases hl

theorem Numbered.steps (hn : s.Numbered) {ls : List Label} (h : s.steps ls = some t) :
    t.Numbered :=
  steps_induction (P := fun _ t => t.Numbered) hn (fun _ _ _ _ _ hl hn => hn.step hl) ls h

/-- What is so when a start has been asked for, and is preserved by every step, is so whenever the
start and the threads have gone on. -/
theorem start_induction {Q : Label → Prop} {P : List Label → State → Prop}
    (ht : s.steps (.start settings :: inside) = some t) (hi : ∀ l ∈ inside, Q l)
    (h0 : s.owner = .idle → P [] (s.beginStart settings))
    (hP : ∀ {ls l t u}, s.steps (.start settings :: ls) = some t → (∀ k ∈ ls, Q k) → Q l →
      t.step l = some u → P ls t → P (ls ++ [l]) u) : P inside t := by
  obtain ⟨s', hs', ht⟩ := steps_cons.1 ht
  have hstart : s.owner = .idle ∧ s' = s.beginStart settings := by
    simp only [State.step] at hs'
    split at hs'
    · rename_i ho
      exact ⟨ho, (Option.some.inj hs').symm⟩
    · cases hs'
  obtain ⟨ho, rfl⟩ := hstart
  have key : ∀ inside {t}, (s.beginStart settings).steps inside = some t →
      (∀ l ∈ inside, Q l) → P inside t := by
    refine steps_induction (P := fun inside t => (∀ l ∈ inside, Q l) → P inside t) ?_ ?_
    · exact fun _ => h0 ho
    · intro ls l t u ht hu ih hi
      have hls : ∀ k ∈ ls, Q k := fun k hk => hi k (List.mem_append_left _ hk)
      exact hP (steps_cons.2 ⟨_, hs', ht⟩) hls (hi l (by simp)) hu (ih hls)
  exact key inside ht hi

/-- Where a start is after any run in which no other call is made. -/
theorem stage_of_run (hn : s.Numbered) (ht : s.steps (.start settings :: inside) = some t)
    (hi : ∀ l ∈ inside, l.call? = none) : Stage s settings inside t := by
  have key : t.listening = s.listening ∧ Stage s settings inside t := by
    refine start_induction (P := fun ls t => t.listening = s.listening ∧ Stage s settings ls t) ht
      hi (fun ho => ⟨?_, .begin ho⟩) ?_
    · obtain ⟨s', hs', -⟩ := steps_cons.1 ht
      have hlisten := step_listening hn hs'
      simp only [State.step, ho, if_true, Option.some.injEq] at hs'
      rw [hs']
      exact hlisten
    · rintro ls l t u hrun - hl hu ⟨hlisten, hstage⟩
      have hnt := hn.steps hrun
      exact ⟨(step_listening hnt hu).trans hlisten, hstage.step hnt hlisten hrun hl hu⟩
  exact key.2

end Stage

/-! ## Whatever is called later -/

/-- Session `n` has begun and is gone. -/
structure Past (n : Nat) (s : State) : Prop where
  numbered : s.Numbered
  begun : n < s.begun
  session : ∀ x, s.session = some x → x.number ≠ n

section Past
variable {s t : State} {n : Nat} {l : Label} {ls : List Label}

theorem Tells.mono {P Q : Nat → Prop} (h : Tells P s t) (hPQ : ∀ m, P m → Q m) : Tells Q s t := by
  obtain ⟨new, ht, hn⟩ := h
  exact ⟨new, ht, fun m e hm => hPQ m (hn m e hm)⟩

/-- A step tells nothing but of the session that is there. -/
theorem step_tells (hn : s.Numbered) (h : s.step l = some t) :
    Tells (fun m => ∃ x, s.session = some x ∧ x.number = m) s t := by
  cases hx : s.session with
  | none =>
    rcases step_of_none hx h with ⟨settings, -, rfl⟩ | ⟨-, -, ht⟩
    · have hc := prepare_cases s settings
      generalize s.prepare settings = t at hc
      cases hc with
      | setUp | overflowed => exact .of_eq rfl
      | refused => exact Tells.answer (.of_eq rfl) _
    · exact ht.mono fun _ => False.elim
  | some x =>
    have hmono {t : State} (ht : Tells (· = x.number) s t) :
        Tells (fun m => ∃ y, some x = some y ∧ y.number = m) s t :=
      ht.mono fun m hm => ⟨x, rfl, hm.symm⟩
    rcases hn.step_of_some hx h with ⟨-, rig, rfl⟩ | ⟨a, rfl⟩ | ⟨y, -, hw⟩
    · exact .of_eq rfl
    · exact hmono (reclaim_gone x a).told
    · exact hmono hw.told

theorem steps_tells (hn : s.Numbered) (h : s.steps ls = some t) :
    ∃ new, t.trace = new ++ s.trace := by
  obtain ⟨new, ht, -⟩ := steps_induction (P := fun _ t => Tells (fun _ => True) s t) (.of_eq rfl)
    (fun ls l _ _ hls hl ih =>
      ih.trans ((step_tells (hn.steps hls) hl).mono fun _ _ => trivial)) ls h
  exact ⟨new, ht⟩

theorem Past.step (h : Past n s) (ht : s.step l = some t) : Past n t := by
  have hnt := h.numbered.step ht
  cases hx : s.session with
  | none =>
    rcases step_of_none hx ht with ⟨settings, -, rfl⟩ | ⟨hnone, hb, -⟩
    · have hc := prepare_cases s settings
      generalize s.prepare settings = t at hc hnt
      cases hc with
      | setUp =>
        refine ⟨hnt, Nat.lt_succ_of_lt h.begun, fun y hy => ?_⟩
        cases hy
        exact (Nat.ne_of_lt h.begun).symm
      | refused | overflowed => exact ⟨hnt, h.begun, h.session⟩
    · exact ⟨hnt, hb ▸ h.begun, fun y hy => by rw [hnone] at hy; cases hy⟩
  | some x =>
    rcases h.numbered.step_of_some hx ht with ⟨-, rig, rfl⟩ | ⟨a, rfl⟩ | ⟨y, -, hw⟩
    · exact ⟨hnt, h.begun, h.session⟩
    · have hg := reclaim_gone (s := s) x a
      exact ⟨hnt, hg.begun ▸ h.begun, fun y hy => by rw [hg.session] at hy; cases hy⟩
    · refine ⟨hnt, hw.begun ▸ h.begun, fun z hz => ?_⟩
      obtain rfl := Option.some.inj (hw.session.symm.trans hz)
      exact hw.number ▸ h.session x hx

/-- Nothing is told of a session that is gone. -/
theorem Past.tells (h : Past n s) (ht : s.steps ls = some t) : Tells (· ≠ n) s t := by
  refine (steps_induction (P := fun _ t => Past n t ∧ Tells (· ≠ n) s t) ⟨h, .of_eq rfl⟩ ?_ ls ht).2
  rintro ls l t u - hu ⟨hp, hs⟩
  refine ⟨hp.step hu, hs.trans ((step_tells hp.numbered hu).mono ?_)⟩
  rintro _ ⟨x, hx, rfl⟩
  exact hp.session x hx

end Past

/-! ## Before and after the start is told -/

section Laws
variable {s t : State} {settings : StreamSettings} {inside : List Label}

/-- A start is asked for in any state, and it and the threads go on in any way, threads that cannot
be spawned included. While it is in progress nothing is told of its session before the encoder is
spawned, no sighting before all threads are, and no start. When it has succeeded, the start was told
just before, so that it comes before all that is told afterwards; what came before it was told
while the start was in progress. When it has failed, either no session has begun, or a thread of it
could not be spawned: then no more was told than packets, these only if it was the localizer, and
nothing is told afterwards, whatever is called. -/
theorem told_by_start {rig : Rig} {listening : Bool} {before : List Label}
    (h : (State.new rig listening).steps before = some s)
    (ht : s.steps (.start settings :: inside) = some t) (hi : ∀ l ∈ inside, l.call? = none) :
    (∀ e, .told s.begun e ∉ s.trace) ∧
    (∀ more u, t.steps more = some u → ∃ new, u.trace = new ++ t.trace) ∧
    ((t.answers = s.answers ∧ ∀ e, .told s.begun e ∈ t.trace →
        e.isControl = false ∧ (t.owner = .announcing ∨ (∃ p, e = .packet p) ∧
          (t.owner = .spawning .localizer ∨
            ∃ cause, t.owner = .joining (.fail (.notSpawned cause)) ∧
              Stranded s settings inside .localizer cause))) ∨
      (∃ y later early, t.answers = s.answers ++ [.ok ()] ∧
        t.session = some y ∧ y.number = s.begun ∧
        t.trace = later ++ .answered (.ok ()) ::
          (s.heard [.told s.begun (.control ⟨true, y.params⟩)] ++ early) ∧
        (∀ e, .told s.begun e ∈ early → e.isControl = false) ∧
        ∀ e, .told s.begun e ∈ later → e.isControl = false) ∨
      ∃ failure, t.answers = s.answers ++ [.error failure] ∧
        ((t.begun = s.begun ∧ ∀ e, .told s.begun e ∉ t.trace) ∨
          ∃ w cause early, failure = .notSpawned cause ∧ Stranded s settings inside w cause ∧
            (∀ e, .told s.begun e ∈ early → w = .localizer ∧ ∃ p, e = .packet p) ∧
            ∀ more u, t.steps more = some u → ∃ later,
              u.trace = later ++ .answered (.error failure) :: early ∧
                ∀ e, .told s.begun e ∉ later)) := by
  have hnum := numbered_of_run rig listening before h
  have hfresh (u : State) (hu : u.Numbered) (hb : u.begun = s.begun) (e : Event) :
      .told s.begun e ∉ u.trace := fun hm => by
    have := hu.told _ e hm
    omega
  have hnumt : t.Numbered := hnum.steps ht
  refine ⟨hfresh s hnum rfl, fun _ _ hu => steps_tells hnumt hu, ?_⟩
  cases stage_of_run hnum ht hi with
  | asked _ hb ha | crashed _ hb ha =>
    exact .inl ⟨ha, fun e hm => absurd hm (hfresh t hnumt hb e)⟩
  | refused e _ hb ha => exact .inr (.inr ⟨e, ha, .inl ⟨hb, hfresh t hnumt hb⟩⟩)
  | spawning w y ho _ _ _ _ _ ha htold =>
    refine .inl ⟨ha, fun e hm => ?_⟩
    obtain ⟨rfl, p, rfl⟩ := Worker.permits_packet (htold e hm)
    exact ⟨rfl, .inr ⟨⟨p, rfl⟩, .inl ho⟩⟩
  | announcing y ho _ _ ha htold => exact .inl ⟨ha, fun e hm => ⟨htold e hm, .inl ho⟩⟩
  | started y later early _ hy hn ha htrace hearly hlater =>
    exact .inr (.inl ⟨y, later, early, ha, hy, hn, htrace, hearly, hlater⟩)
  | failing w cause y ho _ _ _ _ _ ha hs htold =>
    refine .inl ⟨ha, fun e hm => ?_⟩
    obtain ⟨rfl, p, rfl⟩ := Worker.permits_packet (htold e hm)
    exact ⟨rfl, .inr ⟨⟨p, rfl⟩, .inr ⟨cause, ho, hs⟩⟩⟩
  | failed w cause later early _ hx hb ha hs htrace hearly hlater =>
    have hpast : Past s.begun t := ⟨hnumt, hb, fun x hx' => by rw [hx] at hx'; cases hx'⟩
    refine .inr (.inr ⟨_, ha, .inr ⟨w, cause, early, rfl, hs,
      fun e hm => Worker.permits_packet (hearly e hm), fun more u hu => ?_⟩⟩)
    obtain ⟨new, hnew, hother⟩ := hpast.tells hu
    refine ⟨new ++ later, by rw [hnew, htrace, List.append_assoc], fun e hm => ?_⟩
    rcases List.mem_append.1 hm with hm | hm
    · exact hother _ e hm rfl
    · exact hlater e hm

end Laws

def sampleHurry : List Label :=
  [.owner, .owner, .owner, .producer, .producer, .producer, .producer, .encoder, .encoder]

/-- Localization with the standard array, on a codec that takes a whole period in one block. -/
def sampleArrayRig : Rig := { sampleRig with codec := .scripted 1024 0 none false }

def sampleArraySettings : StreamSettings := { sampleSettings with localization := true }

/-- The localizer cannot be spawned, and the other threads end. -/
def sampleStranding : List Label :=
  sampleHurry ++
    [.spawnFails "no thread", .producer, .producer, .producer, .encoderQuits, .owner]

theorem sampleStranding_events : ∃ t,
    (State.new sampleArrayRig true).steps (.start sampleArraySettings :: sampleStranding) = some t ∧
      t.answers = [.error (.notSpawned "no thread")] ∧ (t.packets 0).length = 1 ∧
      t.events = (t.packets 0).map .packet := by
  have hrun : ((State.new sampleArrayRig true).steps
      (.start sampleArraySettings :: sampleStranding)).any (fun t =>
        decide (t.answers = [.error (.notSpawned "no thread")] ∧ (t.packets 0).length = 1 ∧
          t.events = (t.packets 0).map .packet)) = true := by
    decide +kernel
  simpa only [Option.any_eq_true, decide_eq_true_eq] using hrun

/-- A start that fails with a packet told: the localizer could not be spawned. -/
theorem told_by_start_sample : ∃ t p cause,
    (State.new sampleArrayRig true).steps (.start sampleArraySettings :: sampleStranding) = some t ∧
      .told 0 (.packet p) ∈ t.trace ∧ t.answers = [.error (.notSpawned cause)] ∧
      Stranded (.new sampleArrayRig true) sampleArraySettings sampleStranding .localizer cause := by
  obtain ⟨t, ht, hanswers, hone, -⟩ := sampleStranding_events
  obtain ⟨p, hp⟩ := List.exists_mem_of_length_pos (hone ▸ Nat.one_pos)
  have hp := mem_packets.1 hp
  have hnew : (State.new sampleArrayRig true).steps [] = some (State.new sampleArrayRig true) := rfl
  have hi : ∀ l ∈ sampleStranding, l.call? = none := by
    simp [sampleStranding, sampleHurry, Label.call?]
  obtain ⟨-, -, ⟨ha, -⟩ | ⟨_, _, _, ha, -⟩ | ⟨failure, ha, htold⟩⟩ := told_by_start hnew ht hi
  · rw [hanswers] at ha; cases ha
  · rw [hanswers] at ha; cases ha
  · rcases htold with ⟨-, hnone⟩ | ⟨w, cause, early, rfl, hs, hearly, hmore⟩
    · exact absurd hp (hnone _)
    · obtain ⟨later, htrace, hlater⟩ := hmore [] t rfl
      have hp' : .told 0 (.packet p) ∈ early := by
        rw [htrace] at hp
        rcases List.mem_append.1 hp with hp | hp
        · exact absurd hp (hlater _)
        · rcases List.mem_cons.1 hp with hp | hp
          · cases hp
          · exact hp
      obtain ⟨rfl, -⟩ := hearly _ hp'
      exact ⟨t, p, cause, ht, hp, ha, hs⟩

/-- A packet may be told before the start of its session, and of a session whose start fails. -/
theorem packets_before_start :
    (∃ t, (State.new sampleRig true).steps
        (.start sampleSettings :: (sampleHurry ++ [.owner])) = some t ∧
      t.answers = [.ok ()] ∧ (t.packets 0).length = 1 ∧
      t.events = (t.packets 0).map .packet ++ [.control ⟨true, ⟨16000, 1, 64000, 2⟩⟩]) ∧
    ∃ t, (State.new sampleArrayRig true).steps
        (.start sampleArraySettings :: sampleStranding) = some t ∧
      t.answers = [.error (.notSpawned "no thread")] ∧ (t.packets 0).length = 1 ∧
      t.events = (t.packets 0).map .packet := by
  refine ⟨?_, sampleStranding_events⟩
  have hrun : ((State.new sampleRig true).steps
      (.start sampleSettings :: (sampleHurry ++ [.owner]))).any (fun t =>
        decide (t.answers = [.ok ()] ∧ (t.packets 0).length = 1 ∧ t.events =
          (t.packets 0).map .packet ++ [.control ⟨true, ⟨16000, 1, 64000, 2⟩⟩])) = true := by
    decide +kernel
  simpa only [Option.any_eq_true, decide_eq_true_eq] using hrun

end State

end MicStream
