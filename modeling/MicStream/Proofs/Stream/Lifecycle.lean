import MicStream.Proofs.Stream.Blocks
import MicStream.Proofs.Stream.Run
/-!
# The life of sessions

To those who start and stop sessions a streamer either has none, and then
nothing is open (`Vacant`), or it has one with its device and its codec open
(`Busy`). Which of the two it is, and whether the start of the session has
been told, depends on what the owner does next (`Fits`). `LifeStep` is a step
as they see it: the owner makes most of them, and all that the threads of a
session do is one case.

Results:
* `life_cases`: a step is one of its cases, if threads can be spawned.
* `Fits.step`: the owner fits after every step.
-/
namespace MicStream

def Label.call? : Label → Option Afterwards
  | .start settings => some (.start settings)
  | .stop => some .rest
  | _ => none

def Label.starves : Label → Bool
  | .spawnFails _ => true
  | _ => false

def Owner.launches : Owner → Bool
  | .spawning _ => true
  | .announcing => true
  | _ => false

def Event.isControl : Event → Bool
  | .control _ => true
  | _ => false

namespace State

/-! ## Work of a session -/

section Reports
variable {s t : State} {n : Nat}

@[simp] theorem tell_streams (n : Nat) (e : Event) : (s.tell n e).streams = s.streams := by
  unfold tell; split <;> rfl

@[simp] theorem tell_codecs (n : Nat) (e : Event) : (s.tell n e).codecs = s.codecs := by
  unfold tell; split <;> rfl

/-- All that is told between two states is told by a session in between its start and its stop. -/
def Reports (n : Nat) (s t : State) : Prop :=
  ∃ new, t.trace = new ++ s.trace ∧ ∀ a ∈ new, ∃ e, a = .told n e ∧ e.isControl = false

theorem Reports.of_eq (h : t.trace = s.trace) : Reports n s t := ⟨[], h, nofun⟩

theorem Reports.tell (h : Reports n s t) {e : Event} (he : e.isControl = false) :
    Reports n s (t.tell n e) := by
  obtain ⟨new, ht, hn⟩ := h
  unfold State.tell
  split
  · refine ⟨.told n e :: new, congrArg _ ht, fun a ha => ?_⟩
    rcases List.mem_cons.1 ha with rfl | ha
    · exact ⟨e, rfl, he⟩
    · exact hn a ha
  · exact ⟨new, ht, hn⟩

theorem Reports.tells (h : Reports n s t) : Tells (· = n) s t := by
  obtain ⟨new, ht, hn⟩ := h
  refine ⟨new, ht, fun m e hm => ?_⟩
  obtain ⟨e', h, -⟩ := hn _ hm
  cases h; rfl

end Reports

/-- Two moments of one session, of which nobody told anything in between. -/
structure Alike (x y : Session) : Prop where
  number : y.number = x.number
  params : y.params = x.params
  announced : y.announced = x.announced
  signalled : y.signalled = x.signalled
  capture : y.producer.capture.isOpen = x.producer.capture.isOpen
  encoder : y.encoder.coding.encoder.isOpen = x.encoder.coding.encoder.isOpen

/-- Session `x` has worked and is `y`: what those who started it can see of that. -/
structure Worked (s : State) (x : Session) (t : State) (y : Session) : Prop where
  session : t.session = some y
  alike : Alike x y
  begun : t.begun = s.begun
  listening : t.listening = s.listening
  streams : t.streams = s.streams
  codecs : t.codecs = s.codecs
  running : s.running = false → t.running = false
  told : Reports x.number s t

section Worked
variable {s t : State} {x y : Session}

theorem isOpen_readSplit (c : Capture) (r : PeriodReply) (out : List (List Int16)) :
    (c.readSplit r out).1.isOpen = c.isOpen := by
  unfold Capture.readSplit
  split
  · dsimp only
    split <;> rfl
  · rfl

theorem Worked.tellAny {α : Type} {event : α → Event} (he : ∀ a, (event a).isControl = false)
    (h : Worked s x t y) (a : Option α) : Worked s x (t.tellAny x.number event a) y := by
  cases a with
  | none => exact h
  | some a =>
    refine ⟨?_, h.alike, ?_, ?_, ?_, ?_, ?_, h.told.tell (he a)⟩
    · rw [State.tellAny, tell_session]; exact h.session
    · rw [State.tellAny, tell_begun]; exact h.begun
    · rw [State.tellAny, tell_listening]; exact h.listening
    · rw [State.tellAny, tell_streams]; exact h.streams
    · rw [State.tellAny, tell_codecs]; exact h.codecs
    · rw [State.tellAny, tell_running]; exact h.running

theorem ProducerStep.worked (h : ProducerStep s x t) :
    t.owner = s.owner ∧ ∃ y, Worked s x t y := by
  cases h with
  | failed =>
    exact ⟨rfl, _, rfl, ⟨rfl, rfl, rfl, rfl, isOpen_readSplit _ _ _, rfl⟩, rfl, rfl, rfl, rfl,
      fun _ => rfl, .of_eq rfl⟩
  | read p rest c f r hs hp hc =>
    have hopen := isOpen_readSplit x.producer.capture
      ⟨Capture.resize x.producer.capture.periodLength p, none⟩ []
    rw [hc] at hopen
    exact ⟨rfl, _, rfl, ⟨rfl, rfl, rfl, rfl, hopen, rfl⟩, rfl, rfl, rfl, rfl, id, .of_eq rfl⟩
  | _ =>
    exact ⟨rfl, _, rfl, ⟨rfl, rfl, rfl, rfl, rfl, rfl⟩, rfl, rfl, rfl, rfl, id, .of_eq rfl⟩

theorem EncoderStep.worked (h : EncoderStep s x t) : t.owner = s.owner ∧ ∃ y, Worked s x t y := by
  cases h with
  | coded p c n hs hb =>
    have hopen := (Coding.frame_block x.encoder.coding
      (s.rig.codec.reply (x.encoder.coding.nextBlock :: s.rig.blocks))).1
    rw [hb] at hopen
    refine ⟨tellAny_owner _ _ _, ?_⟩
    constructor
    apply Worked.tellAny fun _ => rfl
    exact ⟨rfl, ⟨rfl, rfl, rfl, rfl, rfl, hopen⟩, rfl, rfl, rfl, rfl, id, .of_eq rfl⟩
  | failed e c n hs hb =>
    have hopen := (Coding.frame_block x.encoder.coding
      (s.rig.codec.reply (x.encoder.coding.nextBlock :: s.rig.blocks))).1
    rw [hb] at hopen
    exact ⟨rfl, _, rfl, ⟨rfl, rfl, rfl, rfl, rfl, hopen⟩, rfl, rfl, rfl, rfl, fun _ => rfl,
      .of_eq rfl⟩
  | _ =>
    exact ⟨rfl, _, rfl, ⟨rfl, rfl, rfl, rfl, rfl, rfl⟩, rfl, rfl, rfl, rfl, id, .of_eq rfl⟩

theorem LocalizerStep.worked (h : LocalizerStep s x t) :
    t.owner = s.owner ∧ ∃ y, Worked s x t y := by
  cases h with
  | located l f v tr =>
    refine ⟨tellAny_owner _ _ _, ?_⟩
    constructor
    apply Worked.tellAny fun _ => rfl
    exact ⟨rfl, ⟨rfl, rfl, rfl, rfl, rfl, rfl⟩, rfl, rfl, rfl, rfl, id, .of_eq rfl⟩
  | _ =>
    exact ⟨rfl, _, rfl, ⟨rfl, rfl, rfl, rfl, rfl, rfl⟩, rfl, rfl, rfl, rfl, id, .of_eq rfl⟩

theorem spawn_worked (x : Session) (w : Worker) :
    (s.spawn x w).owner.launches = true ∧ ∃ y, Worked s x (s.spawn x w) y := by
  refine ⟨?_, ?_⟩
  · cases w with
    | encoder => simp only [spawn]; split <;> rfl
    | _ => rfl
  · cases w <;>
      exact ⟨_, rfl, ⟨rfl, rfl, rfl, rfl, rfl, rfl⟩, rfl, rfl, rfl, rfl, id, .of_eq rfl⟩

end Worked

/-! ## Steps as seen from outside -/

/-- A step that leaves the owner where it is: the session works, or the hardware changes. -/
inductive Aside (s : State) : State → Prop where
  | worked (t : State) (x y : Session) (hx : s.session = some x) (ho : t.owner = s.owner)
      (h : Worked s x t y) : Aside s t
  | equipped (rig : Rig) : Aside s { s with rig }

/-- A step as those see it who start and stop sessions. -/
inductive LifeStep (s : State) : Label → State → Prop where
  | aside (l : Label) (t : State) (hl : l.call? = none) (h : Aside s t) : LifeStep s l t
  | rejected (settings : StreamSettings) (ho : s.owner = .idle) (hr : s.running = true) :
      LifeStep s (.start settings) (s.answer (.error .alreadyRunning))
  | passed (l : Label) (a : Afterwards) (hl : l.call? = some a) (ho : s.owner = .idle)
      (hx : s.session = none) : LifeStep s l ({ s with running := false }.goOn a)
  | asked (l : Label) (a : Afterwards) (x : Session) (hl : l.call? = some a) (ho : s.owner = .idle)
      (hx : s.session = some x) : LifeStep s l { s with
        running := false
        session := some { x with signalled := true }
        owner := .joining a }
  | reclaimed (a : Afterwards) (x : Session) (ho : s.owner = .joining a) (hx : s.session = some x) :
      LifeStep s .owner (s.reclaim x a)
  | prepared (settings : StreamSettings) (t : State) (ho : s.owner = .preparing settings)
      (h : PrepareStep s settings t) : LifeStep s .owner t
  | spawned (w : Worker) (t : State) (x y : Session) (ho : s.owner = .spawning w)
      (hx : s.session = some x) (ht : t.owner.launches = true) (h : Worked s x t y) :
      LifeStep s .owner t
  | announced (x : Session) (ho : s.owner = .announcing) (hx : s.session = some x) :
      LifeStep s .owner (s.announce x)

section Cases
variable {s t : State} {l : Label}

theorem signal_cases {a : Afterwards} (hl : l.call? = some a) (ho : s.owner = .idle) :
    LifeStep s l (s.signal a) := by
  cases hx : s.session with
  | none =>
    have hgo : s.signal a = { s with running := false }.goOn a := by simp only [signal, hx]
    rw [hgo]
    exact .passed l a hl ho hx
  | some x => simp only [signal, hx]; exact .asked l a x hl ho hx

theorem SessionStep.life {x : Session} (hx : s.session = some x) (hc : SessionStep s x l t)
    (hl : l.starves = false) : LifeStep s l t := by
  cases hc with
  | letGo => exact .aside .letGo _ rfl (.equipped _)
  | refused settings ho hr => exact .rejected settings ho hr
  | restarted settings ho hr => exact signal_cases rfl ho
  | stopped ho => exact signal_cases rfl ho
  | reclaimed a ho => exact .reclaimed a x ho hx
  | spawned w ho =>
    obtain ⟨ht, y, h⟩ := spawn_worked (s := s) x w
    exact .spawned w _ x y ho hx ht h
  | announced ho => exact .announced x ho hx
  | spawnFailed => cases hl
  | producer _ h =>
    obtain ⟨ho, y, h⟩ := h.worked
    exact .aside .producer t rfl (.worked t x y hx ho h)
  | encoder _ h =>
    obtain ⟨ho, y, h⟩ := h.worked
    exact .aside .encoder t rfl (.worked t x y hx ho h)
  | localizer _ h =>
    obtain ⟨ho, y, h⟩ := h.worked
    exact .aside .localizer t rfl (.worked t x y hx ho h)
  | encoderQuit | localizerQuit =>
    refine .aside _ _ rfl (.worked _ x _ hx rfl ⟨rfl, ?_, rfl, rfl, rfl, rfl, id, .of_eq rfl⟩)
    exact ⟨rfl, rfl, rfl, rfl, rfl, rfl⟩

theorem life_cases (hn : s.Numbered) (hl : l.starves = false) (h : s.step l = some t) :
    LifeStep s l t := by
  cases hx : s.session with
  | some x =>
    cases he : l.equips with
    | false =>
      refine (step_cases he (fun settings ho => ?_) hx h).life hx hl
      have := hn.preparing settings ho
      rw [hx] at this; cases this
    | true =>
      cases l with
      | equip rig =>
        simp only [step] at h
        split at h
        · cases h; exact .aside _ _ rfl (.equipped rig)
        · cases h
      | _ => cases he
  | none =>
    cases l with
    | equip rig =>
      simp only [step] at h
      split at h
      · cases h; exact .aside _ _ rfl (.equipped rig)
      · cases h
    | letGo => cases h; exact .aside .letGo _ rfl (.equipped _)
    | start settings =>
      simp only [step, beginStart] at h
      split at h
      · rename_i ho
        obtain rfl := Option.some.inj h
        split
        · rename_i hr; exact .rejected settings ho hr
        · exact signal_cases rfl ho
      · cases h
    | stop =>
      simp only [step] at h
      split at h
      · rename_i ho
        cases h; exact signal_cases rfl ho
      · cases h
    | owner =>
      simp only [step, ownerStep, hx] at h
      split at h
      · rename_i settings ho
        cases h; exact .prepared settings _ ho (prepare_cases s settings)
      · rename_i he; cases he
      · rename_i he; cases he
      · rename_i he; cases he
      · cases h
    | spawnFails => cases hl
    | _ => simp [step, hx] at h

end Cases

/-! ## Where the owner is -/

/-- There is no session, and nothing is open. -/
structure Vacant (s : State) : Prop where
  session : s.session = none
  running : s.running = false
  streams : s.streams = 0
  codecs : s.codecs = 0

/-- Session `x` is there, and its device and its codec are all that is open. -/
structure Busy (s : State) (x : Session) : Prop where
  session : s.session = some x
  capture : x.producer.capture.isOpen = true
  encoder : x.encoder.coding.encoder.isOpen = true
  streams : s.streams = 1
  codecs : s.codecs = 1

/-- A session is there, whose start has been told or has not. -/
def Holds (s : State) (announced : Bool) : Prop := ∃ x, Busy s x ∧ x.announced = announced

/-- What the owner finds when it does something next. -/
def Fits (s : State) : Owner → Prop
  | .idle => Vacant s ∨ Holds s true
  | .joining (.fail _) => False
  | .joining _ => Holds s true ∧ s.running = false
  | .preparing _ => Vacant s
  | .spawning _ => Holds s false
  | .announcing => Holds s false
  | .crashed => Vacant s

section Fits
variable {s t : State} {x y : Session} {o : Owner} {l : Label} {a : Afterwards}

/-! What the owner goes on with after a session changes nothing else. -/

@[simp] theorem goOn_session : (s.goOn a).session = s.session := by cases a <;> rfl

@[simp] theorem goOn_running : (s.goOn a).running = s.running := by cases a <;> rfl

@[simp] theorem goOn_listening : (s.goOn a).listening = s.listening := by cases a <;> rfl

@[simp] theorem goOn_rig : (s.goOn a).rig = s.rig := by cases a <;> rfl

@[simp] theorem goOn_streams : (s.goOn a).streams = s.streams := by cases a <;> rfl

@[simp] theorem goOn_codecs : (s.goOn a).codecs = s.codecs := by cases a <;> rfl

theorem goOn_trace (hl : l.call? = some a) : (s.goOn a).trace = s.trace := by
  cases l <;> cases hl <;> rfl

theorem Fits.joining (h : s.Fits (.joining a)) : Holds s true ∧ s.running = false := by
  cases a with
  | fail => exact h.elim
  | _ => exact h

theorem Fits.vacant_or_busy (h : s.Fits o) : Vacant s ∨ ∃ x, Busy s x := by
  cases o with
  | idle => exact h.imp_right fun ⟨x, hb, _⟩ => ⟨x, hb⟩
  | joining a =>
    obtain ⟨x, hb, -⟩ := h.joining.1
    exact .inr ⟨x, hb⟩
  | preparing | crashed => exact .inl h
  | spawning | announcing =>
    obtain ⟨x, hb, -⟩ := h
    exact .inr ⟨x, hb⟩

theorem Holds.busy {b : Bool} (h : Holds s b) (hx : s.session = some x) :
    Busy s x ∧ x.announced = b := by
  obtain ⟨z, hb, hz⟩ := h
  obtain rfl := Option.some.inj (hx.symm.trans hb.session)
  exact ⟨hb, hz⟩

theorem Vacant.not_some (h : Vacant s) : s.session ≠ some x := by
  rw [h.session]; nofun

/-- Between two calls nothing is open without a session. -/
theorem Fits.vacant (h : s.Fits .idle) (hx : s.session = none) : Vacant s := by
  rcases h with hv | ⟨x, hb, -⟩
  · exact hv
  · rw [hb.session] at hx; cases hx

/-- Between two calls the start of the session has been told. -/
theorem Fits.busy (h : s.Fits .idle) (hx : s.session = some x) :
    Busy s x ∧ x.announced = true := by
  rcases h with hv | hh
  · exact absurd hx hv.not_some
  · exact hh.busy hx

theorem Vacant.goOn (h : Vacant s) (a : Afterwards) : Vacant (s.goOn a) :=
  ⟨by simp [h.session], by simp [h.running], by simp [h.streams], by simp [h.codecs]⟩

theorem Busy.reclaim (h : Busy s x) (hr : s.running = false) (a : Afterwards) :
    Vacant (s.reclaim x a) := by
  unfold State.reclaim
  dsimp only
  rw [live_close h.capture, if_pos h.encoder, h.streams, h.codecs]
  apply Vacant.goOn
  split
  · exact ⟨by simp, by simpa using hr, by simp, by simp⟩
  · exact ⟨rfl, hr, rfl, rfl⟩

theorem fits_of_launches (ho : o.launches = true) (h : Holds s false) : s.Fits o := by
  cases o with
  | spawning | announcing => exact h
  | _ => cases ho

theorem Holds.keep {b : Bool} (h : Holds s b) (hx : t.session = s.session)
    (hs : t.streams = s.streams) (hc : t.codecs = s.codecs) : Holds t b := by
  obtain ⟨x, hb, hxb⟩ := h
  exact ⟨x, ⟨hx ▸ hb.session, hb.capture, hb.encoder, hs ▸ hb.streams, hc ▸ hb.codecs⟩, hxb⟩

theorem Fits.keep (h : s.Fits o) (hx : t.session = s.session) (hr : t.running = s.running)
    (hs : t.streams = s.streams) (hc : t.codecs = s.codecs) : t.Fits o := by
  have hv : Vacant s → Vacant t := fun h =>
    ⟨hx ▸ h.session, hr ▸ h.running, hs ▸ h.streams, hc ▸ h.codecs⟩
  have hb : ∀ b, Holds s b → Holds t b := fun b h => h.keep hx hs hc
  cases o with
  | idle => exact h.imp hv (hb true)
  | joining a =>
    cases a with
    | fail => exact h
    | _ => exact ⟨hb true h.1, hr ▸ h.2⟩
  | preparing | crashed => exact hv h
  | spawning | announcing => exact hb false h

/-- Work of a session changes nothing that the owner looks at. -/
theorem Worked.busy (h : Worked s x t y) (hb : Busy s x) : Busy t y :=
  ⟨h.session, h.alike.capture.trans hb.capture, h.alike.encoder.trans hb.encoder,
    h.streams.trans hb.streams, h.codecs.trans hb.codecs⟩

theorem Worked.holds (h : Worked s x t y) (hx : s.session = some x) {b : Bool} (hb : Holds s b) :
    Holds t b := by
  obtain ⟨hbusy, ha⟩ := hb.busy hx
  exact ⟨y, h.busy hbusy, h.alike.announced.trans ha⟩

theorem Worked.fits (h : Worked s x t y) (hx : s.session = some x) (ho : s.Fits o) : t.Fits o := by
  have hv : ¬ Vacant s := fun hv => hv.not_some hx
  cases o with
  | idle => exact .inr (h.holds hx (ho.resolve_left hv))
  | joining a =>
    cases a with
    | fail => exact ho
    | _ => exact ⟨h.holds hx ho.1, h.running ho.2⟩
  | preparing | crashed => exact absurd ho hv
  | spawning | announcing => exact h.holds hx ho

theorem PrepareStep.fits {settings : StreamSettings} (h : PrepareStep s settings t)
    (hv : Vacant s) : t.Fits t.owner := by
  cases h with
  | setUp audio localizer capture effects encoder rig ha hc he hr =>
    obtain ⟨hopen, hlive⟩ := openStream_ok hc s.streams
    obtain ⟨n, -, rfl⟩ := Encoder.init_ok he
    refine ⟨_, ⟨rfl, hopen, rfl, ?_, ?_⟩, rfl⟩
    · show Capture.live s.streams effects = 1
      rw [hlive, hv.streams]; rfl
    · show s.codecs + 1 = 1
      rw [hv.codecs]; rfl
  | refused => exact .inl ⟨hv.session, hv.running, hv.streams, hv.codecs⟩
  | overflowed => exact ⟨hv.session, hv.running, hv.streams, hv.codecs⟩

theorem Aside.fits (h : Aside s t) (hf : s.Fits s.owner) : t.Fits t.owner := by
  cases h with
  | worked _ x y hx ho hw =>
    rw [ho]
    exact hw.fits hx hf
  | equipped => exact Fits.keep (o := s.owner) hf rfl rfl rfl rfl

/-- The owner fits after every step. -/
theorem Fits.step (h : s.Fits s.owner) (hc : LifeStep s l t) : t.Fits t.owner := by
  cases hc with
  | aside _ _ _ ha => exact ha.fits h
  | rejected => exact Fits.keep (o := s.owner) h rfl rfl rfl rfl
  | passed _ a hl ho hx =>
    rw [ho] at h
    have hidle := h.vacant hx
    have hv : Vacant { s with running := false } := ⟨hx, rfl, hidle.streams, hidle.codecs⟩
    cases l with
    | start settings => cases hl; exact hv.goOn (.start settings)
    | stop => cases hl; exact .inl (hv.goOn .rest)
    | _ => cases hl
  | asked _ a x hl ho hx =>
    rw [ho] at h
    obtain ⟨hb, ha⟩ := h.busy hx
    have hh : Holds { s with
        running := false
        session := some { x with signalled := true }
        owner := .joining a } true :=
      ⟨_, ⟨rfl, hb.capture, hb.encoder, hb.streams, hb.codecs⟩, ha⟩
    cases l with
    | start | stop => cases hl; exact ⟨hh, rfl⟩
    | _ => cases hl
  | reclaimed a x ho hx =>
    rw [ho] at h
    cases a with
    | fail => exact h.elim
    | rest | start =>
      have hv := (h.1.busy hx).1.reclaim h.2
      first
        | exact .inl (hv .rest)
        | exact hv (.start _)
  | prepared settings _ ho hp =>
    rw [ho] at h
    exact hp.fits h
  | spawned w _ x y ho hx ht hw =>
    rw [ho] at h
    exact fits_of_launches ht (hw.holds hx h)
  | announced x ho hx =>
    rw [ho] at h
    obtain ⟨hb, -⟩ := Holds.busy h hx
    have howner : (s.announce x).owner = .idle := by simp [announce, answer]
    rw [howner]
    refine .inr ⟨{ x with announced := true }, ⟨?_, hb.capture, hb.encoder, ?_, ?_⟩, rfl⟩
    · simp [announce, answer]
    · simp [announce, answer, hb.streams]
    · simp [announce, answer, hb.codecs]

end Fits

end State

end MicStream
