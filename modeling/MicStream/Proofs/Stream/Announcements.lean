import MicStream.Proofs.Stream.Lifecycle
/-!
# Starts and stops

What a streamer tells of the starts and stops of sessions, whatever becomes of
them. With the stop that is still to come (`State.closing`) all starts and
stops come in pairs; once its stop was told, a session tells nothing more.

Threads can be spawned here, and the hardware may turn into any other at any
time (`Course`), so whether a device or a codec can be opened and when it fails
is left open.

Results:
* `alternating_of_paired`: what comes in pairs alternates.
* `LifeStep.controls`: what a step tells of starts and stops.
* `Course.sound`: along every course starts and stops come in pairs, and
  nothing is told of a session behind its stop.
-/
namespace MicStream

def Notice.control? : Notice → Option (Nat × Control)
  | .told n (.control c) => some (n, c)
  | _ => none

def Notice.answer? : Notice → Option (Except StartError Unit)
  | .answered a => some a
  | _ => none

/-- What is told of a session: its number, its parameters, and whether its start was told. -/
def Session.title (x : Session) : Nat × StreamParams × Bool := (x.number, x.params, x.announced)

/-! ## Starts and stops -/

/-- The start and the stop of a session. -/
def whole (n : Nat) (p : StreamParams) : List (Nat × Control) := [(n, ⟨true, p⟩), (n, ⟨false, p⟩)]

/-- Starts and stops in turn, a start first; each stop is of the session that was started last and
has its parameters. -/
inductive Alternating : List (Nat × Control) → Prop where
  | nil : Alternating []
  | started (n : Nat) (p : StreamParams) : Alternating [(n, ⟨true, p⟩)]
  | stopped (n : Nat) (p : StreamParams) {cs : List (Nat × Control)} (h : Alternating cs) :
      Alternating (whole n p ++ cs)

/-- Starts and stops, each start with its stop behind it. -/
def Paired (cs : List (Nat × Control)) : Prop :=
  ∃ done : List (Nat × StreamParams), cs = done.flatMap fun d => whole d.1 d.2

theorem Paired.concat {cs : List (Nat × Control)} (h : Paired cs) (n : Nat) (p : StreamParams) :
    Paired (cs ++ whole n p) := by
  obtain ⟨done, rfl⟩ := h
  exact ⟨done ++ [(n, p)], by simp⟩

/-- What comes in pairs alternates, wherever it breaks off. -/
theorem alternating_of_paired : ∀ {cs rest : List (Nat × Control)}, Paired (cs ++ rest) →
    Alternating cs := by
  rintro cs rest ⟨done, h⟩
  induction done generalizing cs with
  | nil =>
    obtain ⟨rfl, -⟩ := List.append_eq_nil_iff.1 h
    exact .nil
  | cons d done ih =>
    match cs with
    | [] => exact .nil
    | [c] =>
      obtain rfl := (List.cons.inj h).1
      exact .started d.1 d.2
    | c :: c' :: cs =>
      obtain ⟨hc, htail⟩ := List.cons.inj h
      obtain ⟨hc', hrest⟩ := List.cons.inj htail
      rw [hc, hc']
      exact .stopped d.1 d.2 (ih hrest)

/-- Nothing is told of a session behind its stop; the newest notice comes first. -/
def Hushed (trace : List Notice) : Prop :=
  trace.Pairwise fun later earlier => ∀ n p e, earlier = .told n (.control ⟨false, p⟩) →
    later ≠ .told n e

namespace State

def controls (s : State) : List (Nat × Control) := (s.trace.filterMap Notice.control?).reverse

def answers (s : State) : List (Except StartError Unit) :=
  (s.trace.filterMap Notice.answer?).reverse

/-- The stop that is told when the session ends, if its start was told. -/
def closing (s : State) : List (Nat × Control) :=
  match s.session with
  | none => []
  | some x => if x.announced then s.heard [(x.number, ⟨false, x.params⟩)] else []

section Told
variable {s t u : State} {n : Nat}

@[simp] theorem controls_answer (a : Except StartError Unit) :
    (s.answer a).controls = s.controls := rfl

@[simp] theorem answers_answer (a : Except StartError Unit) :
    (s.answer a).answers = s.answers ++ [a] := by
  simp [answers, answer, Notice.answer?]

theorem controls_tell_control (n : Nat) (c : Control) :
    (s.tell n (.control c)).controls = s.controls ++ s.heard [(n, c)] := by
  unfold tell heard
  split
  · simp [controls, Notice.control?]
  · simp

@[simp] theorem answers_tell (n : Nat) (e : Event) : (s.tell n e).answers = s.answers := by
  unfold tell; split <;> rfl

theorem mem_controls {c : Control} : (n, c) ∈ s.controls ↔ .told n (.control c) ∈ s.trace := by
  simp only [controls, List.mem_reverse, List.mem_filterMap]
  constructor
  · rintro ⟨a, ha, hc⟩
    unfold Notice.control? at hc
    split at hc
    · cases hc; exact ha
    · cases hc
  · intro h
    exact ⟨_, h, rfl⟩

theorem closing_of_none (h : s.session = none) : s.closing = [] := by simp [closing, h]

theorem closing_of_announced {x : Session} (h : s.session = some x) (ha : x.announced = true) :
    s.closing = s.heard [(x.number, ⟨false, x.params⟩)] := by
  simp [closing, h, ha]

theorem closing_of_unannounced {x : Session} (h : s.session = some x) (ha : x.announced = false) :
    s.closing = [] := by
  simp [closing, h, ha]

theorem Tells.trans {P : Nat → Prop} (h : Tells P s t) (h' : Tells P t u) : Tells P s u := by
  obtain ⟨new, ht, hn⟩ := h
  obtain ⟨new', ht', hn'⟩ := h'
  refine ⟨new' ++ new, by rw [ht', ht, List.append_assoc], fun m e hm => ?_⟩
  rcases List.mem_append.1 hm with hm | hm
  · exact hn' m e hm
  · exact hn m e hm

theorem Reports.controls (h : Reports n s t) : t.controls = s.controls := by
  obtain ⟨new, ht, hn⟩ := h
  have hnone : new.filterMap Notice.control? = [] := by
    rw [List.filterMap_eq_nil_iff]
    intro a ha
    obtain ⟨e, rfl, he⟩ := hn a ha
    cases e with
    | control c => cases he
    | _ => rfl
  rw [State.controls, ht, List.filterMap_append, hnone, List.nil_append]
  rfl

theorem Reports.answers (h : Reports n s t) : t.answers = s.answers := by
  obtain ⟨new, ht, hn⟩ := h
  have hnone : new.filterMap Notice.answer? = [] := by
    rw [List.filterMap_eq_nil_iff]
    intro a ha
    obtain ⟨e, rfl, -⟩ := hn a ha
    rfl
  rw [State.answers, ht, List.filterMap_append, hnone, List.nil_append]
  rfl

theorem hushed_answer (h : Hushed s.trace) (a : Except StartError Unit) :
    Hushed (s.answer a).trace :=
  List.Pairwise.cons (fun _ _ _ _ _ _ => nofun) h

theorem hushed_tell (h : Hushed s.trace) (hn : ∀ p, (n, ⟨false, p⟩) ∉ s.controls) (e : Event) :
    Hushed (s.tell n e).trace := by
  unfold State.tell
  split
  · refine List.Pairwise.cons (fun a ha m p e' hp hm => ?_) h
    cases hm
    exact hn p (mem_controls.2 (hp ▸ ha))
  · exact h

theorem Reports.hushed (hr : Reports n s t) (h : Hushed s.trace)
    (hn : ∀ p, (n, ⟨false, p⟩) ∉ s.controls) : Hushed t.trace := by
  obtain ⟨new, ht, hnew⟩ := hr
  unfold Hushed
  rw [ht, List.pairwise_append]
  refine ⟨List.pairwise_iff_forall_sublist.2 fun {a b} hab m p e hp => ?_, h, ?_⟩
  · obtain ⟨e', hb, he⟩ := hnew b (hab.subset (by simp))
    rw [hp] at hb
    cases hb; cases he
  · intro a ha b hb m p e hp hm
    obtain ⟨e', rfl, -⟩ := hnew a ha
    cases hm
    exact hn p (mem_controls.2 (hp ▸ hb))

@[simp] theorem goOn_controls {a : Afterwards} : (s.goOn a).controls = s.controls := by
  cases a <;> rfl

theorem Worked.title {x y : Session} (h : Worked s x t y) : y.title = x.title := by
  simp only [Session.title, h.alike.number, h.alike.params, h.alike.announced]

theorem Worked.closing {x y : Session} (h : Worked s x t y) (hx : s.session = some x) :
    t.closing = s.closing := by
  simp only [State.closing, h.session, hx, h.alike.announced, h.alike.number, h.alike.params,
    heard_congr h.listening]

/-- What a step leaves alone that leaves the owner where it is. -/
structure Kept (s t : State) : Prop where
  owner : t.owner = s.owner
  session : t.session.map Session.title = s.session.map Session.title
  controls : t.controls = s.controls
  closing : t.closing = s.closing
  answers : t.answers = s.answers
  begun : t.begun = s.begun
  listening : t.listening = s.listening
  told : Tells (fun n => s.session.map Session.number = some n) s t

theorem Aside.kept (h : Aside s t) : Kept s t := by
  cases h with
  | worked _ x y hx ho h =>
    refine ⟨ho, ?_, h.told.controls, h.closing hx, h.told.answers, h.begun, h.listening, ?_⟩
    · rw [h.session, hx, Option.map_some, Option.map_some, h.title]
    · obtain ⟨new, ht, hn⟩ := h.told.tells
      refine ⟨new, ht, fun m e hm => ?_⟩
      rw [hx, Option.map_some, hn m e hm]
  | equipped => exact ⟨rfl, rfl, rfl, rfl, rfl, rfl, rfl, .of_eq rfl⟩

end Told

/-! ## All is well -/

/-- A streamer all is well with: sessions are numbered, the owner fits, starts and stops are told in
pairs, and those whose stop was told are over and tell nothing more. -/
structure Sound (s : State) : Prop where
  numbered : s.Numbered
  fits : s.Fits s.owner
  paired : Paired (s.controls ++ s.closing)
  past : ∀ n p, (n, ⟨false, p⟩) ∈ s.controls → ∀ x, s.session = some x → n < x.number
  hushed : Hushed s.trace

section Sound
variable {s t : State} {x y : Session} {l : Label} {a : Afterwards}

theorem sound_new (rig : Rig) (listening : Bool) : (State.new rig listening).Sound where
  numbered := ⟨fun _ _ h => (by cases h), fun _ h => (by cases h), fun _ h => (by cases h)⟩
  fits := .inl ⟨rfl, rfl, rfl, rfl⟩
  paired := ⟨[], rfl⟩
  past := fun _ _ h => (by cases h)
  hushed := .nil

theorem Sound.idle (h : s.Sound) (ho : s.owner = .idle) : s.Fits .idle := ho ▸ h.fits

theorem Vacant.closing (h : Vacant s) : s.closing = [] := closing_of_none h.session

theorem closing_reclaim (x : Session) (a : Afterwards) : (s.reclaim x a).closing = [] :=
  closing_of_none (reclaim_gone x a).session

theorem controls_reclaim (hx : s.session = some x) (ha : x.announced = true) (a : Afterwards) :
    (s.reclaim x a).controls = s.controls ++ s.closing := by
  unfold reclaim
  dsimp only
  rw [if_pos ha, goOn_controls, controls_tell_control, closing_of_announced hx ha]
  rfl

theorem answers_reclaim (x : Session) (hl : l.call? = some a) :
    (s.reclaim x a).answers = s.answers := by
  have hgo : ∀ u : State, (u.goOn a).answers = u.answers := fun u => by
    rw [answers, goOn_trace hl, answers]
  unfold reclaim
  dsimp only
  rw [hgo]
  split
  · rw [answers_tell]; rfl
  · rfl

theorem listening_reclaim (x : Session) (a : Afterwards) :
    (s.reclaim x a).listening = s.listening := by
  unfold reclaim
  dsimp only
  rw [goOn_listening]
  split
  · rw [tell_listening]
  · rfl

theorem controls_announce (x : Session) :
    (s.announce x).controls = s.controls ++ s.heard [(x.number, ⟨true, x.params⟩)] := by
  rw [announce, controls_answer, controls_tell_control]
  rfl

theorem session_announce (x : Session) :
    (s.announce x).session = some { x with announced := true } := by
  simp [announce, answer]

theorem closing_announce (x : Session) :
    (s.announce x).closing = s.heard [(x.number, ⟨false, x.params⟩)] := by
  rw [closing_of_announced (session_announce x) rfl]
  exact heard_congr (by simp [announce, answer]) _

theorem controls_prepare {settings : StreamSettings} (h : PrepareStep s settings t)
    (hv : Vacant s) : t.controls = s.controls ∧ t.closing = [] := by
  cases h with
  | setUp => exact ⟨rfl, closing_of_unannounced rfl rfl⟩
  | refused | overflowed => exact ⟨rfl, closing_of_none hv.session⟩

/-- A step leaves alone what is told and what is still to be told, tells the stop that was to come,
or tells the start of a session. -/
theorem LifeStep.controls (hc : LifeStep s l t) (hf : s.Fits s.owner) :
    (t.controls = s.controls ∧ t.closing = s.closing) ∨
      (t.controls = s.controls ++ s.closing ∧ t.closing = []) ∨
      ∃ x, s.session = some x ∧ s.closing = [] ∧
        t.controls = s.controls ++ s.heard [(x.number, ⟨true, x.params⟩)] ∧
        t.closing = s.heard [(x.number, ⟨false, x.params⟩)] := by
  cases hc with
  | aside _ _ _ ha => exact .inl ⟨ha.kept.controls, ha.kept.closing⟩
  | spawned w _ x y ho hx ht hw => exact .inl ⟨hw.told.controls, hw.closing hx⟩
  | rejected => exact .inl ⟨rfl, rfl⟩
  | passed _ a hl ho hx =>
    refine .inl ⟨goOn_controls, ?_⟩
    rw [closing_of_none hx]
    exact closing_of_none (by rw [goOn_session]; exact hx)
  | asked _ a x hl ho hx => exact .inl ⟨rfl, by simp only [closing, hx]; rfl⟩
  | reclaimed a x ho hx =>
    rw [ho] at hf
    have ha := (hf.joining.1.busy hx).2
    exact .inr (.inl ⟨controls_reclaim hx ha a, closing_reclaim x a⟩)
  | prepared settings _ ho hp =>
    rw [ho] at hf
    obtain ⟨h1, h2⟩ := controls_prepare hp hf
    exact .inl ⟨h1, h2.trans (Vacant.closing hf).symm⟩
  | announced x ho hx =>
    rw [ho] at hf
    have ha := (Holds.busy hf hx).2
    exact .inr (.inr ⟨x, hx, closing_of_unannounced hx ha, controls_announce x, closing_announce x⟩)

theorem LifeStep.paired (hc : LifeStep s l t) (hf : s.Fits s.owner)
    (h : Paired (s.controls ++ s.closing)) : Paired (t.controls ++ t.closing) := by
  rcases hc.controls hf with ⟨h1, h2⟩ | ⟨h1, h2⟩ | ⟨x, hx, hempty, h1, h2⟩
  · rw [h1, h2]; exact h
  · rw [h1, h2, List.append_nil]; exact h
  · rw [hempty, List.append_nil] at h
    rw [h1, h2, List.append_assoc, ← heard_append]
    unfold heard
    split
    · exact h.concat x.number x.params
    · rw [List.append_nil]; exact h

theorem LifeStep.past (hc : LifeStep s l t) (hn : s.Numbered) (hf : s.Fits s.owner)
    (h : ∀ n p, (n, ⟨false, p⟩) ∈ s.controls → ∀ x, s.session = some x → n < x.number) :
    ∀ n p, (n, ⟨false, p⟩) ∈ t.controls → ∀ y, t.session = some y → n < y.number := by
  intro n p hm y hy
  have hworked : ∀ x z, s.session = some x → Worked s x t z → n < y.number := by
    intro x z hx hw
    rw [hw.told.controls] at hm
    obtain rfl := Option.some.inj (hy.symm.trans hw.session)
    rw [hw.alike.number]
    exact h n p hm x hx
  cases hc with
  | aside _ _ _ ha =>
    cases ha with
    | worked _ x z hx _ hw => exact hworked x z hx hw
    | equipped => exact h n p hm y hy
  | spawned _ _ x z _ hx _ hw => exact hworked x z hx hw
  | rejected => exact h n p hm y hy
  | passed _ a hl ho hx => rw [goOn_session] at hy; exact absurd (hx.symm.trans hy) nofun
  | asked _ a x hl ho hx =>
    cases hy
    exact h n p hm x hx
  | reclaimed a x ho hx => rw [(reclaim_gone x a).session] at hy; cases hy
  | prepared settings _ ho hp =>
    rw [ho] at hf
    rw [(controls_prepare hp hf).1] at hm
    cases hp with
    | setUp =>
      cases hy
      exact hn.told n _ (mem_controls.1 hm)
    | refused | overflowed => exact absurd ((Vacant.session hf).symm.trans hy) nofun
  | announced x ho hx =>
    obtain rfl := Option.some.inj (hy.symm.trans (session_announce x))
    rw [controls_announce] at hm
    rcases List.mem_append.1 hm with hm | hm
    · exact h n p hm x hx
    · unfold heard at hm
      split at hm
      · simp at hm
      · cases hm

theorem LifeStep.hushed (hc : LifeStep s l t) (h : Sound s) : Hushed t.trace := by
  -- The session that is there has not been stopped, so it may go on telling.
  have hfree : ∀ x, s.session = some x → ∀ p, (x.number, ⟨false, p⟩) ∉ s.controls :=
    fun x hx p hm => Nat.lt_irrefl _ (h.past x.number p hm x hx)
  cases hc with
  | aside _ _ _ ha =>
    cases ha with
    | worked _ x _ hx _ hw => exact hw.told.hushed h.hushed (hfree x hx)
    | equipped => exact h.hushed
  | spawned _ _ x _ _ hx _ hw => exact hw.told.hushed h.hushed (hfree x hx)
  | asked => exact h.hushed
  | rejected => exact hushed_answer h.hushed _
  | passed _ a hl ho hx => rw [goOn_trace hl]; exact h.hushed
  | reclaimed a x ho hx =>
    unfold reclaim
    dsimp only
    have hgo : ∀ u : State, Hushed u.trace → Hushed (u.goOn a).trace := by
      intro u hu
      cases a with
      | fail => exact hushed_answer hu _
      | _ => exact hu
    apply hgo
    split
    · apply hushed_tell
      · exact h.hushed
      · exact hfree x hx
    · exact h.hushed
  | prepared settings _ ho hp =>
    cases hp with
    | setUp | overflowed => exact h.hushed
    | refused => exact hushed_answer h.hushed _
  | announced x ho hx =>
    apply hushed_answer
    apply hushed_tell
    · exact h.hushed
    · exact hfree x hx

theorem Sound.step (h : Sound s) (hl : l.starves = false) (hs : s.step l = some t) : Sound t := by
  have hc := life_cases h.numbered hl hs
  exact ⟨h.numbered.step hs, h.fits.step hc, hc.paired h.fits h.paired,
    hc.past h.numbered h.fits h.past, hc.hushed h⟩

theorem Sound.equip (h : Sound s) (rig : Rig) : Sound { s with rig } :=
  ⟨⟨h.numbered.told, h.numbered.session, h.numbered.preparing⟩,
    Fits.keep (o := s.owner) h.fits rfl rfl rfl rfl, h.paired, h.past, h.hushed⟩

end Sound

/-! ## Courses -/

/-- A course of a streamer whose threads can be spawned. Each step finds the hardware in any state
whatever. -/
inductive Course : State → List Label → State → Prop where
  | nil (s : State) : Course s [] s
  | cons {s t u : State} {l : Label} {ls : List Label} (rig : Rig) (hl : l.starves = false)
      (ht : { s with rig }.step l = some t) (h : Course t ls u) : Course s (l :: ls) u

section Course
variable {s t u : State} {ls : List Label}

/-- A run is a course in which the hardware stays what the steps make of it. -/
theorem course_of_steps : ∀ {ls : List Label} {s : State}, (∀ l ∈ ls, l.starves = false) →
    s.steps ls = some t → Course s ls t
  | [], s, _, h => by
    obtain rfl : s = t := by simpa [steps] using h
    exact .nil s
  | l :: ls, s, hl, h => by
    obtain ⟨u, hu, h⟩ := steps_cons.1 h
    exact .cons s.rig (hl l (by simp)) hu (course_of_steps (fun l hm => hl l (by simp [hm])) h)

/-- What the steps of a course preserve is so at its end. -/
theorem Course.induction {P : State → Prop} (h : Course s ls t)
    (hP : ∀ l ∈ ls, ∀ s rig t, l.starves = false → { s with rig }.step l = some t → P s → P t)
    (hs : P s) : P t := by
  induction h with
  | nil => exact hs
  | @cons s t u l ls rig hl ht _ ih =>
    exact ih (fun l hm => hP l (by simp [hm])) (hP l (by simp) s rig t hl ht hs)

theorem Course.sound (h : Course s ls t) (hs : s.Sound) : t.Sound :=
  h.induction (fun _ _ _ rig _ hl ht hs => (hs.equip rig).step hl ht) hs

end Course

end State

end MicStream
