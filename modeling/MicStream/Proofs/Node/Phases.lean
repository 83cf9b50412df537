import MicStream.Node
import MicStream.Proofs.Stream.Calls
import MicStream.Proofs.Stream.Renewal
/-!
# A node as a machine of three phases

To those who send commands a node is idle, or a stream runs, or it has died by
itself and nobody has cleared it away (`Phase`). What a request does in each
phase is a table (`Phase.Move`): what is published, and whether another stream
is tried and what comes of it. Between two commands a node looks like a state
of this machine (`State.view`), and from whichever state it is in, its course
is a run of the machine from what it looks like there. The steps in between
are silent: the machine moves when the command has returned, and when a stream
dies.

Results:
* `Node.Follows.step`: every step of a node follows the table.
* `State.tried_of_course`: what comes of a start that is not ignored.
* `Node.phases_of_course`: what a node does in each of its phases, and what it
  publishes in answer to its commands.
-/
namespace MicStream

inductive Request where
  | start
  | stop
  | shutdown
  deriving DecidableEq, Repr

/-- What a node looks like to those who send commands; a stream has the parameters that were
published with its start. -/
inductive Phase where
  | idle
  | running (p : StreamParams)
  | dead (p : StreamParams)
  deriving DecidableEq, Repr

/-- What a request, or the end of a stream that no request is the cause of, does in a phase: what is
published, how the streams that are tried come out, and the phase after it. -/
inductive Phase.Move :
    Phase → Option Request → List Control → List (Except StartError Unit) → Phase → Prop where
  /-- A start while a stream runs is ignored. -/
  | ignored (p : StreamParams) : Move (.running p) (some .start) [] [] (.running p)
  /-- A start clears a dead stream away first, and then tries another. -/
  | restarted (p q : StreamParams) :
      Move (.dead p) (some .start) [⟨false, p⟩, ⟨true, q⟩] [.ok ()] (.running q)
  | notRestarted (p : StreamParams) (e : StartError) (he : e ≠ .alreadyRunning) :
      Move (.dead p) (some .start) [⟨false, p⟩] [.error e] .idle
  | started (q : StreamParams) : Move .idle (some .start) [⟨true, q⟩] [.ok ()] (.running q)
  | notStarted (e : StartError) (he : e ≠ .alreadyRunning) :
      Move .idle (some .start) [] [.error e] .idle
  | stopped (p : StreamParams) (r : Request) (hr : r ≠ .start) :
      Move (.running p) (some r) [⟨false, p⟩] [] .idle
  | cleared (p : StreamParams) (r : Request) (hr : r ≠ .start) :
      Move (.dead p) (some r) [⟨false, p⟩] [] .idle
  | nothing (r : Request) (hr : r ≠ .start) : Move .idle (some r) [] [] .idle
  /-- A stream ends by itself, which nobody is told. -/
  | died (p : StreamParams) : Move (.running p) none [] [] (.dead p)

/-- The stop that is still to come in a phase. -/
def Phase.closing : Phase → List Control
  | .idle => []
  | .running p => [⟨false, p⟩]
  | .dead p => [⟨false, p⟩]

/-- A state of the machine: its phase, what it has published, and what came of its tries. -/
structure View where
  phase : Phase
  published : List Control
  tries : List (Except StartError Unit)
  deriving DecidableEq

/-- The machine goes from one state to another and is given some requests. -/
inductive View.Run (v : View) : List Request → View → Prop where
  | nil : Run v [] v
  | move {w : View} {rs : List Request} {r : Option Request} {out : List Control}
      {tries : List (Except StartError Unit)} {b : Phase} (h : Run v rs w)
      (hm : w.phase.Move r out tries b) :
      Run v (rs ++ r.toList) ⟨b, w.published ++ out, w.tries ++ tries⟩

theorem View.Run.next {v w : View} {rs : List Request} {r : Option Request} {out cs : List Control}
    {tries as : List (Except StartError Unit)} {b : Phase} (h : Run v rs w)
    (hm : w.phase.Move r out tries b) (hcs : cs = w.published ++ out)
    (has : as = w.tries ++ tries) : Run v (rs ++ r.toList) ⟨b, cs, as⟩ := by
  subst hcs has
  exact h.move hm

namespace State

/-- The phase of a streamer between two calls. -/
def phase (s : State) : Phase :=
  match s.session with
  | none => .idle
  | some x => if s.running then .running x.params else .dead x.params

def published (s : State) : List Control := s.controls.map Prod.snd

/-- What a streamer looks like between two calls. -/
def view (s : State) : View := ⟨s.phase, s.published, s.answers⟩

section Phase
variable {s t : State} {v : View} {rs : List Request}

theorem phase_of_none (h : s.session = none) : s.phase = .idle := by simp [phase, h]

theorem none_of_phase (h : s.phase = .idle) : s.session = none := by
  unfold phase at h
  split at h
  · assumption
  · split at h <;> cases h

theorem phase_ne_running (h : s.running = false) (p : StreamParams) : s.phase ≠ .running p := by
  unfold phase
  split
  · nofun
  · rw [h]; nofun

/-- Between two calls the flag says whether a stream runs. -/
theorem running_iff_phase (hs : s.Sound) (ho : s.owner = .idle) :
    s.running = true ↔ ∃ p, s.phase = .running p := by
  constructor
  · intro h
    rcases hs.idle ho with hv | ⟨x, hb, -⟩
    · exact absurd (hv.running.symm.trans h) nofun
    · exact ⟨x.params, by simp [phase, hb.session, h]⟩
  · rintro ⟨p, hp⟩
    by_contra h
    exact phase_ne_running (Bool.eq_false_iff.2 h) p hp

/-- Between two calls the stop that is to come is the one of the phase. -/
theorem closing_phase (hs : s.Sound) (ho : s.owner = .idle) (hl : s.listening = true) :
    s.closing.map Prod.snd = s.phase.closing := by
  rcases hs.idle ho with hv | ⟨x, hb, ha⟩
  · rw [hv.closing, phase_of_none hv.session]; rfl
  · rw [closing_of_announced hb.session ha, heard_of_listening hl, phase, hb.session]
    dsimp only
    split <;> rfl

theorem published_of_closing (hs : s.Sound) (ho : s.owner = .idle) (hl : s.listening = true)
    (h : t.controls = s.controls ++ s.closing) :
    t.published = s.published ++ s.phase.closing := by
  rw [published, h, List.map_append, closing_phase hs ho hl, published]

/-- A session that works stays in its phase, or dies. -/
theorem Aside.phase (h : Aside s t) :
    t.phase = s.phase ∨ ∃ p, s.phase = .running p ∧ t.phase = .dead p := by
  cases h with
  | equipped => exact .inl rfl
  | worked _ x y hx _ hw =>
    unfold State.phase
    rw [hx, hw.session]
    dsimp only
    rw [hw.alike.params]
    cases hs : s.running with
    | false => rw [hw.running hs]; exact .inl rfl
    | true =>
      cases ht : t.running with
      | true => exact .inl rfl
      | false => exact .inr ⟨x.params, rfl, rfl⟩

theorem run_aside (h : Aside s t) (hr : View.Run v rs s.view) : View.Run v rs t.view := by
  have hpub : t.published = s.published := by rw [published, published, h.kept.controls]
  rcases h.phase with hp | ⟨p, hs, ht⟩
  · rwa [view, hp, hpub, h.kept.answers]
  · have hdied : s.phase.Move none [] [] t.phase := by
      rw [hs, ht]
      exact .died p
    have hrun : View.Run v (rs ++ []) t.view :=
      hr.next hdied (hpub.trans (List.append_nil _).symm)
        (h.kept.answers.trans (List.append_nil _).symm)
    rwa [List.append_nil] at hrun

/-- A stop, or a shutdown, has returned. -/
theorem run_rested {r : Request} (hr : r ≠ .start) (hs : s.Sound) (ho : s.owner = .idle)
    (hl : s.listening = true) (h : View.Run v rs s.view) (hx : t.session = none)
    (hd : Since s t s.closing) : View.Run v (rs ++ [r]) t.view := by
  have hmove : s.phase.Move (some r) s.phase.closing [] .idle := by
    cases s.phase with
    | idle => exact .nothing r hr
    | running p => exact .stopped p r hr
    | dead p => exact .cleared p r hr
  rw [view, phase_of_none hx]
  exact h.next hmove (published_of_closing hs ho hl hd.controls)
    (hd.answers.trans (List.append_nil _).symm)

theorem run_failed {e : StartError} (hs : s.Sound) (ho : s.owner = .idle)
    (hl : s.listening = true) (hq : s.running = false) (h : View.Run v rs s.view)
    (hd : Failed s t e) : View.Run v (rs ++ [.start]) t.view := by
  have hmove : s.phase.Move (some .start) s.phase.closing [.error e] .idle := by
    cases hp : s.phase with
    | idle => exact .notStarted e hd.reason
    | running p => exact absurd hp (phase_ne_running hq p)
    | dead p => exact .notRestarted p e hd.reason
  rw [view, phase_of_none hd.session]
  exact h.next hmove (published_of_closing hs ho hl hd.controls) hd.answers

/-- A start has begun a session, which may have died since. -/
theorem run_started {p : StreamParams} (hs : s.Sound) (ho : s.owner = .idle)
    (hl : s.listening = true) (hq : s.running = false) (h : View.Run v rs s.view)
    (hd : Started s t p) : View.Run v (rs ++ [.start]) t.view := by
  have hmove : s.phase.Move (some .start) (s.phase.closing ++ [⟨true, p⟩]) [.ok ()]
      (.running p) := by
    cases hp : s.phase with
    | idle => exact .started p
    | running q => exact absurd hp (phase_ne_running hq q)
    | dead q => exact .restarted q p
  have hpub : t.published = s.published ++ (s.phase.closing ++ [⟨true, p⟩]) := by
    rw [published, hd.controls, List.map_append, List.map_append, closing_phase hs ho hl,
      heard_of_listening hl, published, List.append_assoc]
    rfl
  have hrun : View.Run v (rs ++ [.start]) ⟨.running p, t.published, t.answers⟩ :=
    h.next hmove hpub hd.answers
  obtain ⟨x, hx, hxp⟩ := Option.map_eq_some_iff.1 hd.session
  obtain ⟨-, rfl, -⟩ : x.number = s.begun ∧ x.params = p ∧ x.announced = true := by
    simpa [Session.title] using hxp
  unfold view phase
  rw [hx]
  dsimp only
  split
  · exact hrun
  · simpa using hrun.move (.died x.params)

end Phase

/-! ## A command on its way -/

/-- The last of some requests is being carried out, or has been: a call of the streamer began in `s`
and has come to `t`. -/
inductive Calling (v : View) (rs : List Request) (t : State) : Prop where
  | starting (before : List Request) (s : State) (settings : StreamSettings)
      (hrs : rs = before ++ [.start]) (hs : s.Sound) (ho : s.owner = .idle)
      (hl : s.listening = true) (hq : s.running = false)
      (h : View.Run v before s.view) (hd : During s (.start settings) t)
  | stopping (before : List Request) (s : State) (r : Request) (hr : r ≠ .start)
      (hrs : rs = before ++ [r]) (hs : s.Sound) (ho : s.owner = .idle) (hl : s.listening = true)
      (h : View.Run v before s.view) (hd : During s .rest t)

/-- A start that found no stream running in `s` has come to `t`. What is left of a stream that died
is published before a try begins, and nothing else; a try that has returned has begun a session or
failed, and then nothing is left open. -/
structure Tried (s : State) (settings : StreamSettings) (inside : List MicStream.Label)
    (t : State) : Prop where
  course : Course s (.start settings :: inside) t
  clearing : ∀ tried, t.owner = .preparing tried → tried = settings ∧
    t.published = s.published ++ s.phase.closing ∧ t.answers = s.answers
  returned : t.owner = .idle → (∃ p, Started s t p) ∨ ∃ e, Failed s t e ∧ Vacant t

section Calling
variable {s t u : State} {l : MicStream.Label} {v : View} {rs : List Request}

theorem Calling.step (h : Calling v rs t) (hf : t.Fits t.owner) (hc : LifeStep t l u)
    (hl : l.call? = none) : Calling v rs u := by
  cases h with
  | starting before s settings hrs hs ho hlis hq h hd =>
    exact .starting before s settings hrs hs ho hlis hq h (hd.step hf hc hl)
  | stopping before s r hr hrs hs ho hlis h hd =>
    exact .stopping before s r hr hrs hs ho hlis h (hd.step hf hc hl)

/-- When the call has returned, the machine has made its move. -/
theorem Calling.returned (h : Calling v rs t) (hot : t.owner = .idle) : View.Run v rs t.view := by
  cases h with
  | starting before s settings hrs hs ho hl hq h hd =>
    subst hrs
    rcases hd.start_returned hot with ⟨p, hd⟩ | ⟨e, hd⟩
    · exact run_started hs ho hl hq h hd
    · exact run_failed hs ho hl hq h hd
  | stopping before s r hr hrs hs ho hl h hd =>
    subst hrs
    obtain ⟨hx, hd⟩ := hd.stop_returned hot
    exact run_rested hr hs ho hl h hx hd

/-- What comes of a start that is not ignored, in whatever way it and the threads go on. -/
theorem tried_of_course {settings : StreamSettings} {inside : List MicStream.Label} (hs : s.Sound)
    (ho : s.owner = .idle) (hl : s.listening = true) (hq : s.running = false)
    (h : Course s (.start settings :: inside) t) (hi : ∀ k ∈ inside, k.call? = none) :
    Tried s settings inside t where
  course := h
  clearing tried hp := by
    cases during_of_course hs rfl (fun _ => hq) h hi with
    | preparing _ ha hot _ hd =>
      cases ha
      exact ⟨Owner.preparing.inj (hp.symm.trans hot), published_of_closing hs ho hl hd.controls,
        hd.answers⟩
    | launching _ _ _ hj => rw [hp] at hj; cases hj
    | joining hj | rested _ hj | started _ _ _ hj | failed _ _ _ hj | crashed _ _ hj =>
      rw [hp] at hj; cases hj
  returned hot := by
    rcases (during_of_course hs rfl (fun _ => hq) h hi).start_returned hot with hd | ⟨e, hd⟩
    · exact .inl hd
    · exact .inr ⟨e, hd, ((h.sound hs).idle hot).vacant hd.session⟩

end Calling

end State

namespace Node

def Label.request? : Label → Option Request
  | .command c => some (if c.start then .start else .stop)
  | .shutdown => some .shutdown
  | .inside _ => none

def Label.starves : Label → Bool
  | .inside l => l.starves
  | _ => false

def equip (n : Node) (rig : Rig) : Node := { n with streamer := { n.streamer with rig } }

/-- A course of a node whose threads can be spawned. Each step finds the hardware in any state
whatever. -/
inductive Course : Node → List Label → Node → Prop where
  | nil (n : Node) : Course n [] n
  | cons {n m k : Node} {l : Label} {ls : List Label} (rig : Rig) (hl : l.starves = false)
      (hm : (n.equip rig).step l = some m) (h : Course m ls k) : Course n (l :: ls) k

/-! ## Steps of a node as steps of its streamer -/

section Streamer
variable {n m : Node}

theorem isInside_iff {l : MicStream.Label} : isInside l = true ↔ l.call? = none := by
  cases l <;> simp [isInside, Label.call?]

/-- A step of a node comes down to at most one of its streamer. -/
theorem streamer_of_step {l : Label} (h : n.step l = some m) :
    m.base = n.base ∧ ∃ ks, n.streamer.steps ks = some m.streamer := by
  have hone {k : MicStream.Label} {t : State} (ht : n.streamer.step k = some t) :
      n.streamer.steps [k] = some t := State.steps_cons.2 ⟨t, ht, rfl⟩
  cases l with
  | command c =>
    simp only [step, begin] at h
    split at h
    · cases h
    split at h
    · split at h
      · cases h; exact ⟨rfl, [], rfl⟩
      · cases h
    · obtain ⟨t, ht, rfl⟩ := Option.map_eq_some_iff.1 h
      exact ⟨rfl, [_], hone ht⟩
  | shutdown =>
    obtain ⟨t, ht, rfl⟩ := Option.map_eq_some_iff.1 h
    exact ⟨rfl, [_], hone ht⟩
  | inside k =>
    simp only [step] at h
    split at h
    · obtain ⟨t, ht, rfl⟩ := Option.map_eq_some_iff.1 h
      exact ⟨rfl, [_], hone ht⟩
    · cases h

theorem step_inside {l : MicStream.Label} (h : n.step (.inside l) = some m) :
    l.call? = none ∧ n.streamer.step l = some m.streamer := by
  simp only [step] at h
  split at h
  · rename_i hl
    obtain ⟨t, ht, rfl⟩ := Option.map_eq_some_iff.1 h
    exact ⟨isInside_iff.1 hl, ht⟩
  · cases h

/-- A start command that is not ignored starts the streamer. -/
theorem step_start {c : Control} (hc : c.start = true) (hq : n.streamer.running = false)
    (h : n.step (.command c) = some m) :
    n.streamer.step (.start (n.settings c)) = some m.streamer := by
  simp only [step, begin, ignores, hc, hq, Bool.and_false, Bool.false_eq_true, if_false,
    if_true] at h
  split at h
  · cases h
  · obtain ⟨t, ht, rfl⟩ := Option.map_eq_some_iff.1 h
    exact ht

theorem Course.base {ls : List Label} (h : Course n ls m) : m.base = n.base := by
  induction h with
  | nil => rfl
  | cons rig _ hm _ ih => exact ih.trans (streamer_of_step hm).1

theorem Course.inside {ks : List MicStream.Label} (h : Course n (ks.map .inside) m) :
    (∀ k ∈ ks, k.call? = none) ∧ State.Course n.streamer ks m.streamer := by
  induction ks generalizing n with
  | nil =>
    cases h
    exact ⟨nofun, .nil _⟩
  | cons k ks ih =>
    cases h with
    | cons rig hl hm h =>
      obtain ⟨hcall, hstep⟩ := step_inside hm
      obtain ⟨hi, hcourse⟩ := ih h
      exact ⟨List.forall_mem_cons.2 ⟨hcall, hi⟩, .cons rig hl hstep hcourse⟩

/-- Until the next request a start command is a start of the streamer, with the settings of the node
but for the parameters of the command. -/
theorem Course.start {c : Control} {ks : List MicStream.Label} (hc : c.start = true)
    (hq : n.streamer.running = false) (h : Course n (.command c :: ks.map .inside) m) :
    (∀ k ∈ ks, k.call? = none) ∧
      State.Course n.streamer (.start { n.base with params := c.params } :: ks) m.streamer := by
  cases h with
  | cons rig hl hm h =>
    obtain ⟨hi, hcourse⟩ := h.inside
    exact ⟨hi, .cons rig rfl (step_start (n := n.equip rig) hc hq hm) hcourse⟩

end Streamer

/-! ## A node follows the table -/

/-- A node that looked like `v` and has been given some requests follows the table of phases:
between two commands it has made the moves for all of them, and otherwise the streamer is at work on
the last. One that was shut down stops for good. -/
structure Follows (v : View) (rs : List Request) (n : Node) : Prop where
  able : n.streamer.Able
  listening : n.streamer.listening = true
  run : (n.streamer.owner = .idle ∧ View.Run v rs n.streamer.view) ∨
    State.Calling v rs n.streamer
  closed : n.closed = true → n.streamer.owner = .joining .rest ∨
    (n.streamer.owner = .idle ∧ n.streamer.session = none)

section Follows
variable {n m : Node} {l : Label} {ls : List Label} {v : View} {rs : List Request}

theorem follows_new (base : StreamSettings) (rig : Rig) :
    Follows ⟨.idle, [], []⟩ [] (Node.new base rig) where
  able := State.able_new rig true
  listening := rfl
  run := .inl ⟨rfl, .nil⟩
  closed h := by cases h

theorem Follows.returned (h : Follows v rs n) (ho : n.streamer.owner = .idle) :
    View.Run v rs n.streamer.view := by
  rcases h.run with ⟨-, hr⟩ | hc
  · exact hr
  · exact hc.returned ho

/-- Between two commands a node can be looked at anew. -/
theorem Follows.here (h : Follows v rs n) (ho : n.streamer.owner = .idle) :
    Follows n.streamer.view [] n :=
  ⟨h.able, h.listening, .inl ⟨ho, .nil⟩, h.closed⟩

theorem Follows.equip (h : Follows v rs n) (rig : Rig) : Follows v rs (n.equip rig) where
  able := h.able.equip rig
  listening := h.listening
  run := h.run.imp_right fun hc => by
    cases hc with
    | starting before s settings hrs hs ho hl hq h hd =>
      exact .starting before s settings hrs hs ho hl hq h (hd.aside (State.Aside.equipped rig).kept)
    | stopping before s r hr hrs hs ho hl h hd =>
      exact .stopping before s r hr hrs hs ho hl h (hd.aside (State.Aside.equipped rig).kept)
  closed := h.closed

theorem Follows.stop {t : State} {r : Request} (h : Follows v rs n) (hr : r ≠ .start)
    (ho : n.streamer.owner = .idle) (ht : n.streamer.step .stop = some t) (closed : Bool) :
    Follows v (rs ++ [r]) { n with streamer := t, closed } := by
  have hc := State.life_cases h.able.sound.numbered rfl ht
  have hd : State.During n.streamer .rest t := .begin hc rfl fun hne => absurd rfl hne
  refine ⟨h.able.step rfl ht, hc.listening.trans h.listening, .inr ?_, fun _ => ?_⟩
  · exact .stopping rs n.streamer r hr rfl h.able.sound ho h.listening (h.returned ho) hd
  · cases hd with
    | joining hot => exact .inl hot
    | rested _ hot hx => exact .inr ⟨hot, hx⟩
    | preparing _ ha | launching _ _ ha | started _ _ ha | failed _ _ ha | crashed _ ha => cases ha

theorem Follows.start {t : State} {settings : StreamSettings} (h : Follows v rs n)
    (hn : n.closed = false) (ho : n.streamer.owner = .idle) (hq : n.streamer.running = false)
    (ht : n.streamer.step (.start settings) = some t) :
    Follows v (rs ++ [.start]) { n with streamer := t } := by
  have hc := State.life_cases h.able.sound.numbered rfl ht
  have hd : State.During n.streamer (.start settings) t := .begin hc rfl fun _ => hq
  refine ⟨h.able.step rfl ht, hc.listening.trans h.listening, .inr ?_, fun hclosed => ?_⟩
  · exact .starting rs n.streamer settings rfl h.able.sound ho h.listening hq (h.returned ho) hd
  · exact absurd (hn.symm.trans hclosed) nofun

/-- A start that is ignored is one while a stream runs. -/
theorem Follows.ignored (h : Follows v rs n) (ho : n.streamer.owner = .idle)
    (hq : n.streamer.running = true) : Follows v (rs ++ [.start]) n := by
  refine ⟨h.able, h.listening, .inl ⟨ho, ?_⟩, h.closed⟩
  obtain ⟨p, hp⟩ := (State.running_iff_phase h.able.sound ho).1 hq
  have hmove : n.streamer.phase.Move (some .start) [] [] n.streamer.phase := by
    rw [hp]
    exact .ignored p
  exact (h.returned ho).next hmove (List.append_nil _).symm (List.append_nil _).symm

theorem Follows.inside {t : State} {k : MicStream.Label} (h : Follows v rs n)
    (hk : isInside k = true) (hl : k.starves = false) (ht : n.streamer.step k = some t) :
    Follows v rs { n with streamer := t } := by
  have hcall := isInside_iff.1 hk
  have hc := State.life_cases h.able.sound.numbered hl ht
  have hable : t.Able := h.able.step hl ht
  have hlis : t.listening = true := hc.listening.trans h.listening
  rcases hc.aside_or hcall with ha | hown
  · refine ⟨hable, hlis, ?_, fun hclosed => ?_⟩
    · rcases h.run with ⟨ho, hr⟩ | hcalling
      · exact .inl ⟨ha.kept.owner.trans ho, State.run_aside ha hr⟩
      · exact .inr (hcalling.step h.able.sound.fits hc hcall)
    · rcases h.closed hclosed with ho | ⟨ho, hx⟩
      · exact .inl (ha.kept.owner.trans ho)
      · exact .inr ⟨ha.kept.owner.trans ho, ha.kept.none hx⟩
  · -- The owner moves only when it is at work.
    refine ⟨hable, hlis, ?_, fun hclosed => ?_⟩
    · rcases h.run with ⟨ho, -⟩ | hcalling
      · rw [ho] at hown; exact hown.elim
      · exact .inr (hcalling.step h.able.sound.fits hc hcall)
    · rcases h.closed hclosed with ho | ⟨ho, -⟩
      · rw [ho] at hown
        obtain ⟨x, -, rfl⟩ := hown
        exact .inr ⟨rfl, (State.reclaim_gone x _).session⟩
      · rw [ho] at hown; exact hown.elim

theorem owner_of_call {s t : State} {l : MicStream.Label} (hl : isInside l = false)
    (h : s.step l = some t) : s.owner = .idle := by
  cases l with
  | start settings =>
    simp only [State.step] at h
    split at h
    · assumption
    · cases h
  | stop =>
    simp only [State.step] at h
    split at h
    · assumption
    · cases h
  | _ => cases hl

theorem Follows.step (h : Follows v rs n) (hl : l.starves = false) (hm : n.step l = some m) :
    Follows v (rs ++ l.request?.toList) m := by
  cases l with
  | command c =>
    simp only [Node.step, begin] at hm
    split at hm
    · cases hm
    rename_i hclosed
    have hclosed : n.closed = false := by simpa using hclosed
    split at hm
    · rename_i hig
      obtain ⟨hcs, hq⟩ : c.start = true ∧ n.streamer.running = true := by
        simpa [ignores] using hig
      split at hm
      · rename_i ho
        obtain rfl := Option.some.inj hm
        simpa [Label.request?, hcs] using h.ignored ho hq
      · cases hm
    · rename_i hig
      obtain ⟨t, ht, rfl⟩ := Option.map_eq_some_iff.1 hm
      cases hcs : c.start with
      | true =>
        rw [hcs, if_pos rfl] at ht
        have hq : n.streamer.running = false := by simpa [ignores, hcs] using hig
        simpa [Label.request?, hcs] using h.start hclosed (owner_of_call rfl ht) hq ht
      | false =>
        rw [hcs, if_neg (by simp)] at ht
        simpa [Label.request?, hcs] using
          h.stop (r := .stop) (by simp) (owner_of_call rfl ht) ht n.closed
  | shutdown =>
    obtain ⟨t, ht, rfl⟩ := Option.map_eq_some_iff.1 hm
    exact h.stop (r := .shutdown) (by simp) (owner_of_call rfl ht) ht true
  | inside k =>
    simp only [Node.step] at hm
    split at hm
    · rename_i hk
      obtain ⟨t, ht, rfl⟩ := Option.map_eq_some_iff.1 hm
      simpa [Label.request?] using h.inside hk hl ht
    · cases hm

theorem follows_of_course (hc : Course n ls m) (h : Follows v rs n) :
    Follows v (rs ++ ls.filterMap Label.request?) m := by
  induction hc generalizing rs with
  | nil => simpa using h
  | @cons n m k l ls rig hl hm _ ih =>
    have hnext := ih ((h.equip rig).step hl hm)
    rw [List.append_assoc] at hnext
    cases hr : l.request? with
    | none => simpa [List.filterMap_cons, hr] using hnext
    | some r => simpa [List.filterMap_cons, hr] using hnext

theorem Course.trans {k : Node} {ls' : List Label} (h : Course n ls m) (h' : Course m ls' k) :
    Course n (ls ++ ls') k := by
  induction h with
  | nil => exact h'
  | cons rig hl hm _ ih => exact .cons rig hl hm (ih h')

theorem course_of_foldlM : ∀ {ls : List Label} {n : Node}, (∀ l ∈ ls, l.starves = false) →
    ls.foldlM step n = some m → Course n ls m
  | [], n, _, h => by
    obtain rfl := Option.some.inj h
    exact .nil n
  | l :: ls, n, hl, h => by
    rw [List.foldlM_cons] at h
    obtain ⟨k, hk, h⟩ := Option.bind_eq_some_iff.1 h
    exact .cons n.streamer.rig (hl l (by simp)) hk
      (course_of_foldlM (fun l hm => hl l (by simp [hm])) h)

end Follows

/-! ## What a node does in its phases -/

section Between
variable {n : Node}

theorem step_ignored {c : Control} (hq : n.streamer.running = true) (hn : n.closed = false)
    (ho : n.streamer.owner = .idle) (hc : c.start = true) : n.step (.command c) = some n := by
  simp [step, begin, ignores, hn, ho, hc, hq]

theorem step_command_isSome (hn : n.closed = false) (ho : n.streamer.owner = .idle) (c : Control) :
    (n.step (.command c)).isSome := by
  cases hig : n.ignores c with
  | true => simp [step, begin, hn, hig, ho]
  | false => cases hcs : c.start <;> simp [step, begin, hn, hig, hcs, State.step, ho]

/-- Without a stream there is nothing to stop. -/
theorem step_vacant (hv : State.Vacant n.streamer) (ho : n.streamer.owner = .idle) :
    n.step .shutdown = some { n with closed := true } ∧
      (n.closed = false → ∀ c : Control, c.start = false → n.step (.command c) = some n) := by
  constructor
  · simp [step, hv.stop ho]
  · intro hn c hc
    obtain ⟨base, s, closed⟩ := n
    obtain rfl : closed = false := hn
    simp [step, begin, ignores, hc, hv.stop ho]

end Between

/-- What a node does that is between two commands, whatever it was before: it goes on as the machine
of phases does from what it looks like. -/
structure AtRest (base : StreamSettings) (n : Node) : Prop where
  run : ∀ later m, Course n later m → m.streamer.owner = .idle →
    View.Run n.streamer.view (later.filterMap Label.request?) m.streamer.view
  /-- While a stream runs, a start leaves the node as it is. -/
  ignored : ∀ p, n.streamer.phase = .running p → n.closed = false → ∀ c : Control,
    c.start = true → n.step (.command c) = some n
  /-- Otherwise it starts the streamer, with the settings of the node but for the parameters. -/
  tried : (∀ p, n.streamer.phase ≠ .running p) → ∀ (c : Control) ks m, c.start = true →
    Course n (.command c :: ks.map .inside) m →
      State.Tried n.streamer { base with params := c.params } ks m.streamer
  /-- An idle node has nothing open, and there is nothing to stop. -/
  vacant : n.streamer.phase = .idle → State.Vacant n.streamer ∧
    n.step .shutdown = some { n with closed := true } ∧
      (n.closed = false → ∀ c : Control, c.start = false → n.step (.command c) = some n)
  taken : n.closed = false → ∀ c, (n.step (.command c)).isSome
  shutdown : (n.step .shutdown).isSome
  /-- Once it was shut down, each start has its stop. -/
  paired : n.closed = true → Paired n.streamer.controls

theorem Follows.atRest {v : View} {rs : List Request} {n : Node} {base : StreamSettings}
    (h : Follows v rs n) (hb : n.base = base) (ho : n.streamer.owner = .idle) :
    AtRest base n := by
  have hs := h.able.sound
  have hrunning := State.running_iff_phase hs ho
  refine ⟨fun later m hc hom => ?_, fun p hp hn c hc => step_ignored (hrunning.2 ⟨p, hp⟩) hn ho hc,
    fun hp c ks m hc hcourse => ?_, fun hp => ?_, fun hn c => step_command_isSome hn ho c,
    by simp [Node.step, ho, State.step], fun hn => ?_⟩
  · simpa using (follows_of_course hc (h.here ho)).returned hom
  · have hq : n.streamer.running = false := Bool.eq_false_iff.2 fun hq => by
      obtain ⟨p, hrun⟩ := hrunning.1 hq
      exact hp p hrun
    obtain ⟨hi, hstart⟩ := hcourse.start hc hq
    rw [hb] at hstart
    exact State.tried_of_course hs ho h.listening hq hstart hi
  · have hv := (hs.idle ho).vacant (State.none_of_phase hp)
    exact ⟨hv, step_vacant hv ho⟩
  · have hx : n.streamer.session = none := by
      rcases h.closed hn with hj | ⟨-, hx⟩
      · rw [ho] at hj; cases hj
      · exact hx
    have hpaired := hs.paired
    rwa [State.closing_of_none hx, List.append_nil] at hpaired

/-- A node is given commands in any order, on hardware that does whatever it does, and may be shut
down. Between two commands it has made the moves of the table of phases for the requests that it was
given, and for each stream that died by itself; and from whatever it looks like then it goes on in
this way. A start while a stream runs leaves it as it is; every other start clears away what a dead
stream left, and then starts the streamer, which succeeds or fails. A stop or a shutdown of an idle
node does nothing. A command is taken unless the node was shut down, and then never again; what was
begun goes on. At all times starts and stops alternate, each stop with the parameters of its start,
and after a shutdown each start has its stop. A capture stream is opened only when there is none, by
a streamer as good as new. A command in progress comes to its end. -/
theorem phases_of_course {base : StreamSettings} {rig : Rig} {ls : List Label} {n : Node}
    (h : Course (Node.new base rig) ls n) :
    (n.streamer.owner = .idle →
      View.Run ⟨.idle, [], []⟩ (ls.filterMap Label.request?) n.streamer.view ∧ AtRest base n) ∧
    (n.closed = true → ∀ c, n.step (.command c) = none) ∧
    Alternating n.streamer.controls ∧
    (n.streamer.streams = 0 ∨ n.streamer.streams = 1) ∧
    (∀ settings, n.streamer.owner = .preparing settings → n.streamer.streams = 0 ∧
      ∀ ks, n.streamer.steps ks =
        (((State.new n.streamer.rig true).beginStart settings).steps ks).map
          (State.behind n.streamer.begun n.streamer.trace)) ∧
    n.streamer.Returning := by
  have hf : Follows ⟨.idle, [], []⟩ ([] ++ ls.filterMap Label.request?) n :=
    follows_of_course h (follows_new base rig)
  have hs := hf.able.sound
  rw [List.nil_append] at hf
  refine ⟨fun ho => ⟨hf.returned ho, hf.atRest h.base ho⟩, fun hn c => ?_,
    alternating_of_paired hs.paired, ?_, fun settings ho => ?_, hf.able.returning⟩
  · simp [step, begin, hn]
  · rcases hs.fits.vacant_or_busy with hv | ⟨x, hb⟩
    · exact .inl hv.streams
    · exact .inr hb.streams
  · have hv := hs.fits
    rw [ho] at hv
    refine ⟨hv.streams, fun ks => ?_⟩
    have hnew := State.Vacant.preparing hv ho ks
    rwa [hf.listening] at hnew

def sampleCommand : Control := ⟨true, ⟨16000, 1, 32000, 2⟩⟩

/-- A stream starts and dies at its first period. -/
def sampleDeath : List Label :=
  let setUp : List MicStream.Label := [.owner, .owner, .owner, .owner]
  let die : List MicStream.Label := [.producer, .producer, .producer, .producer, .encoder]
  .command sampleCommand :: (setUp ++ die).map .inside

/-- The dead stream is cleared away and another begins. -/
def sampleRestart : List MicStream.Label := [.owner, .owner, .owner, .owner, .owner]

/-- The node is shut down. -/
def sampleShutdown : List Label :=
  .shutdown :: [.producer, .producer, .producer, .encoder, .owner].map .inside

/-- A stream dies, is started again, and the node is shut down. -/
theorem phases_of_course_sample : ∃ n m k : Node,
    Course (Node.new State.sampleSettings State.sampleEmptyRig) sampleDeath n ∧
      n.streamer.view = ⟨.dead sampleCommand.params, [⟨true, sampleCommand.params⟩], [.ok ()]⟩ ∧
      Course n (.command sampleCommand :: sampleRestart.map .inside) m ∧
      (∃ q, State.Started n.streamer m.streamer q) ∧
      View.Run n.streamer.view [.start] m.streamer.view ∧
      Course m sampleShutdown k ∧ View.Run m.streamer.view [.shutdown] k.streamer.view ∧
      k.streamer.published.map Control.start = [true, false, true, false] ∧
      Paired k.streamer.controls := by
  have hrun : (sampleDeath.foldlM step
      (Node.new State.sampleSettings State.sampleEmptyRig)).any (fun n =>
        decide (n.streamer.owner = .idle ∧ n.streamer.view =
          ⟨.dead sampleCommand.params, [⟨true, sampleCommand.params⟩], [.ok ()]⟩) &&
        ((.command sampleCommand :: sampleRestart.map .inside).foldlM step n).any fun m =>
          decide (m.streamer.owner = .idle ∧ m.streamer.session.isSome) &&
          (sampleShutdown.foldlM step m).any fun k =>
            decide (k.streamer.owner = .idle ∧ k.closed = true ∧
              k.streamer.published.map Control.start = [true, false, true, false])) = true := by
    decide +kernel
  simp only [Option.any_eq_true, Bool.and_eq_true, decide_eq_true_eq] at hrun
  obtain ⟨n, hn, ⟨hon, hview⟩, m, hm, ⟨hom, hsome⟩, k, hk, hok, hclosed, hpub⟩ := hrun
  have hdeath : ∀ l ∈ sampleDeath, l.starves = false := by
    simp [sampleDeath, Label.starves, MicStream.Label.starves]
  have hrestart : ∀ l ∈ Label.command sampleCommand :: sampleRestart.map .inside,
      l.starves = false := by
    simp [sampleRestart, Label.starves, MicStream.Label.starves]
  have hshutdown : ∀ l ∈ sampleShutdown, l.starves = false := by
    simp [sampleShutdown, Label.starves, MicStream.Label.starves]
  have hcn := course_of_foldlM hdeath hn
  have hcm := course_of_foldlM hrestart hm
  have hck := course_of_foldlM hshutdown hk
  obtain ⟨hidle, -⟩ := phases_of_course hcn
  obtain ⟨-, hrest⟩ := hidle hon
  have hphase : n.streamer.phase = .dead sampleCommand.params := congrArg View.phase hview
  have htried := hrest.tried (by simp [hphase]) sampleCommand sampleRestart m rfl hcm
  have hstarted : ∃ q, State.Started n.streamer m.streamer q := by
    rcases htried.returned hom with hstarted | ⟨e, hfailed, -⟩
    · exact hstarted
    · simp [hfailed.session] at hsome
  have hall : Course (Node.new State.sampleSettings State.sampleEmptyRig)
      (sampleDeath ++ (.command sampleCommand :: sampleRestart.map .inside)) m := hcn.trans hcm
  obtain ⟨hidle', -⟩ := phases_of_course hall
  obtain ⟨-, hrest'⟩ := hidle' hom
  obtain ⟨hidle'', -⟩ := phases_of_course (hall.trans hck)
  obtain ⟨-, hrest''⟩ := hidle'' hok
  exact ⟨n, m, k, hcn, hview, hcm, hstarted, hrest.run _ m hcm hom, hck, hrest'.run _ k hck hok,
    hpub, hrest''.paired hclosed⟩

end Node

end MicStream
