import MicStream.Proofs.Stream.Progress
/-!
# Starting and stopping

A call begins when the owner is idle and has returned when it is idle again;
in between the owner waits for the threads of a session, or sets one up, while
these threads do what they do. `During` is what a call has come to at each of
its stages, `During.step` that it stays so until the next call.

Results:
* `during_of_course`: what a call comes to in every course.
* `start_stop_laws`: what starts and stops tell and leave behind.
-/
namespace MicStream

namespace State

/-! ## What a call comes to -/

/-- Only the session that is there in `s` tells anything before `t`, of starts and stops `told`, and
no start is answered. -/
structure Since (s t : State) (told : List (Nat × Control)) : Prop where
  controls : t.controls = s.controls ++ told
  answers : t.answers = s.answers
  begun : t.begun = s.begun
  listening : t.listening = s.listening
  tells : Tells (fun n => s.session.map Session.number = some n) s t

/-- A start in `s` has begun a session, which is there in `t`. -/
structure Started (s t : State) (p : StreamParams) : Prop where
  answers : t.answers = s.answers ++ [.ok ()]
  controls : t.controls = s.controls ++ s.closing ++ s.heard [(s.begun, ⟨true, p⟩)]
  session : t.session.map Session.title = some (s.begun, p, true)

/-- A start in `s` has failed for the reason `e`. -/
structure Failed (s t : State) (e : StartError) : Prop where
  reason : e ≠ .alreadyRunning
  answers : t.answers = s.answers ++ [.error e]
  controls : t.controls = s.controls ++ s.closing
  session : t.session = none
  tells : Tells (fun n => s.session.map Session.number = some n) s t

/-- A call that began in `s`, and goes on with `a` when no session is there, has come to `t`. -/
inductive During (s : State) (a : Afterwards) (t : State) : Prop where
  | joining (ho : t.owner = .joining a)
      (hx : t.session.map Session.number = s.session.map Session.number)
      (hc : t.closing = s.closing) (h : Since s t [])
  | preparing (settings : StreamSettings) (ha : a = .start settings)
      (ho : t.owner = .preparing settings) (hx : t.session = none) (h : Since s t s.closing)
  | launching (settings : StreamSettings) (p : StreamParams) (ha : a = .start settings)
      (ho : t.owner.launches = true) (hx : t.session.map Session.title = some (s.begun, p, false))
      (hc : t.controls = s.controls ++ s.closing) (hn : t.answers = s.answers)
      (hl : t.listening = s.listening)
  | rested (ha : a = .rest) (ho : t.owner = .idle) (hx : t.session = none) (h : Since s t s.closing)
  | started (settings : StreamSettings) (p : StreamParams) (ha : a = .start settings)
      (ho : t.owner = .idle) (h : Started s t p)
  | failed (settings : StreamSettings) (e : StartError) (ha : a = .start settings)
      (ho : t.owner = .idle) (h : Failed s t e)
  | crashed (settings : StreamSettings) (ha : a = .start settings) (ho : t.owner = .crashed)

section During
variable {s t u : State} {l : Label} {a : Afterwards} {p : StreamParams}
  {told : List (Nat × Control)}

theorem Since.refl (s : State) : Since s s [] := ⟨by simp, rfl, rfl, rfl, .of_eq rfl⟩

theorem Kept.number (h : Kept s t) :
    t.session.map Session.number = s.session.map Session.number := by
  have hs := congrArg (Option.map Prod.fst) h.session
  rw [Option.map_map, Option.map_map] at hs
  exact hs

theorem Kept.none (h : Kept s t) (hx : s.session = none) : t.session = none := by
  have hs := h.session
  rw [hx] at hs
  exact Option.map_eq_none_iff.1 hs

theorem Since.aside (h : Since s t told) (hk : Kept t u)
    (hx : ∀ n, t.session.map Session.number = some n → s.session.map Session.number = some n) :
    Since s u told := by
  obtain ⟨new, hu, hn⟩ := hk.told
  refine ⟨hk.controls.trans h.controls, hk.answers.trans h.answers, hk.begun.trans h.begun,
    hk.listening.trans h.listening, h.tells.trans ⟨new, hu, fun m e hm => hx m (hn m e hm)⟩⟩

theorem Since.quiet (h : Since s t told) (hk : Kept t u) (hx : t.session = none) :
    Since s u told :=
  h.aside hk fun n hn => by rw [hx] at hn; cases hn

theorem Since.reclaim {x : Session} (h : Since s t []) (hx : t.session = some x)
    (ha : x.announced = true) (hn : t.session.map Session.number = s.session.map Session.number)
    (hc : t.closing = s.closing) (hl : l.call? = some a) :
    Since s (t.reclaim x a) s.closing := by
  have hg := reclaim_gone (s := t) x a
  refine ⟨?_, ?_, hg.begun.trans h.begun, ?_, h.tells.trans ?_⟩
  · rw [controls_reclaim hx ha, h.controls, List.append_nil, hc]
  · rw [answers_reclaim x hl, h.answers]
  · rw [listening_reclaim, h.listening]
  · obtain ⟨new, hu, hnew⟩ := hg.told
    refine ⟨new, hu, fun m e hm => ?_⟩
    rw [← hn, hx, hnew m e hm, Option.map_some]

def OwnerStep (s t : State) : Owner → Prop
  | .joining a => ∃ x, s.session = some x ∧ t = s.reclaim x a
  | .preparing settings => PrepareStep s settings t
  | .spawning _ => ∃ x y, s.session = some x ∧ t.owner.launches = true ∧ Worked s x t y
  | .announcing => ∃ x, s.session = some x ∧ t = s.announce x
  | _ => False

theorem LifeStep.aside_or (hc : LifeStep s l t) (hl : l.call? = none) :
    Aside s t ∨ OwnerStep s t s.owner := by
  cases hc with
  | aside _ _ _ h => exact .inl h
  | rejected => cases hl
  | passed _ a h | asked _ a x h => rw [hl] at h; cases h
  | reclaimed a x ho hx => rw [ho]; exact .inr ⟨x, hx, rfl⟩
  | prepared settings _ ho h => rw [ho]; exact .inr h
  | spawned w _ x y ho hx ht h => rw [ho]; exact .inr ⟨x, y, hx, ht, h⟩
  | announced x ho hx => rw [ho]; exact .inr ⟨x, hx, rfl⟩

theorem LifeStep.listening (hc : LifeStep s l t) : t.listening = s.listening := by
  cases hc with
  | aside _ _ _ h => exact h.kept.listening
  | rejected | asked => rfl
  | passed => exact goOn_listening
  | reclaimed a x => exact listening_reclaim x a
  | prepared _ _ _ h => cases h <;> rfl
  | spawned _ _ _ _ _ _ _ h => exact h.listening
  | announced => simp [announce, answer]

theorem During.aside (h : During s a t) (hk : Kept t u) : During s a u := by
  cases h with
  | joining ho hx hc h =>
    exact .joining (hk.owner.trans ho) (hk.number.trans hx) (hk.closing.trans hc)
      (h.aside hk fun n hn => hx ▸ hn)
  | preparing settings ha ho hx h =>
    exact .preparing settings ha (hk.owner.trans ho) (hk.none hx) (h.quiet hk hx)
  | launching settings p ha ho hx hc hn hl =>
    exact .launching settings p ha (hk.owner ▸ ho) (hk.session.trans hx) (hk.controls.trans hc)
      (hk.answers.trans hn) (hk.listening.trans hl)
  | rested ha ho hx h => exact .rested ha (hk.owner.trans ho) (hk.none hx) (h.quiet hk hx)
  | started settings p ha ho h =>
    exact .started settings p ha (hk.owner.trans ho) ⟨hk.answers.trans h.answers,
      hk.controls.trans h.controls, hk.session.trans h.session⟩
  | failed settings e ha ho h =>
    obtain ⟨new, hu, hn⟩ := hk.told
    refine .failed settings e ha (hk.owner.trans ho) ⟨h.reason, hk.answers.trans h.answers,
      hk.controls.trans h.controls, hk.none h.session, h.tells.trans ⟨new, hu, fun m e hm => ?_⟩⟩
    have := hn m e hm
    rw [h.session] at this; cases this
  | crashed settings ha ho => exact .crashed settings ha (hk.owner.trans ho)

/-- Until the next call it stays what it has come to, stage by stage. -/
theorem During.step (h : During s a t) (hf : t.Fits t.owner) (hc : LifeStep t l u)
    (hl : l.call? = none) : During s a u := by
  rcases hc.aside_or hl with hk | hc
  · exact h.aside hk.kept
  cases h with
  | joining ho hx hcl h =>
    rw [ho] at hc hf
    obtain ⟨x, hx', rfl⟩ := hc
    have ha := (hf.joining.1.busy hx').2
    cases a with
    | rest =>
      exact .rested rfl rfl (reclaim_gone x _).session (h.reclaim hx' ha hx hcl (l := .stop) rfl)
    | start settings =>
      exact .preparing settings rfl rfl (reclaim_gone x _).session
        (h.reclaim hx' ha hx hcl (l := .start settings) rfl)
    | fail => exact hf.elim
  | preparing settings ha ho hx h =>
    rw [ho] at hc
    cases hc with
    | setUp audio localizer capture effects encoder rig =>
      exact .launching settings _ ha rfl (by rw [← h.begun]; rfl) h.controls h.answers h.listening
    | refused e rig he =>
      refine .failed settings e ha rfl ⟨he, ?_, h.controls, hx, h.tells.answer _⟩
      rw [answers_answer, ← h.answers]; rfl
    | overflowed => exact .crashed settings ha rfl
  | launching settings p ha ho hx hcs hn hl =>
    cases how : t.owner with
    | spawning w =>
      rw [how] at hc
      obtain ⟨x, y, hx', hlaunch, hw⟩ := hc
      refine .launching settings p ha hlaunch ?_ (hw.told.controls.trans hcs)
        (hw.told.answers.trans hn) (hw.listening.trans hl)
      rw [hw.session, Option.map_some, hw.title, ← hx, hx', Option.map_some]
    | announcing =>
      rw [how] at hc
      obtain ⟨x, hx', rfl⟩ := hc
      rw [hx', Option.map_some, Session.title, Option.some.injEq, Prod.mk.injEq,
        Prod.mk.injEq] at hx
      obtain ⟨hnum, hparams, -⟩ := hx
      refine .started settings p ha (by simp [announce, answer]) ⟨?_, ?_, ?_⟩
      · rw [announce, answers_answer, answers_tell, ← hn]; rfl
      · rw [controls_announce, hcs, hnum, hparams, heard_congr hl]
      · rw [session_announce, Option.map_some, Session.title, hnum, hparams]
    | _ => rw [how] at ho; cases ho
  | rested ha ho | started settings p ha ho | failed settings e ha ho | crashed settings ha ho =>
    rw [ho] at hc
    exact hc.elim

/-- A call begins, unless it is refused because a session runs. -/
theorem During.begin {rig : Rig} (hc : LifeStep { s with rig } l t) (hl : l.call? = some a)
    (hr : a ≠ .rest → s.running = false) : During s a t := by
  have hsince : Since s s [] := .refl s
  cases hc with
  | aside _ _ h => rw [hl] at h; cases h
  | rejected settings ho hrun =>
    cases hl
    have hstopped : s.running = false := hr nofun
    exact absurd (hstopped.symm.trans hrun) nofun
  | passed _ b h ho hx =>
    obtain rfl := Option.some.inj (hl.symm.trans h)
    have hclosed : s.closing = [] := closing_of_none hx
    cases l with
    | start settings =>
      cases hl
      refine .preparing settings rfl rfl hx ?_
      rw [hclosed]
      exact ⟨hsince.controls, rfl, rfl, rfl, .of_eq rfl⟩
    | stop =>
      cases hl
      refine .rested rfl rfl hx ?_
      rw [hclosed]
      exact ⟨hsince.controls, rfl, rfl, rfl, .of_eq rfl⟩
    | _ => cases hl
  | asked _ b x h ho hx =>
    obtain rfl := Option.some.inj (hl.symm.trans h)
    have hx : s.session = some x := hx
    refine .joining rfl ?_ ?_ ⟨hsince.controls, rfl, rfl, rfl, .of_eq rfl⟩
    · rw [hx]; rfl
    · simp only [closing, hx]; rfl
  | reclaimed | prepared | spawned | announced => cases hl

/-- A start that has returned has begun a session or failed. -/
theorem During.start_returned {settings : StreamSettings} (h : During s (.start settings) t)
    (ho : t.owner = .idle) : (∃ p, Started s t p) ∨ ∃ e, Failed s t e := by
  cases h with
  | started _ p _ _ h => exact .inl ⟨p, h⟩
  | failed _ e _ _ h => exact .inr ⟨e, h⟩
  | launching _ _ _ hl => rw [ho] at hl; cases hl
  | rested ha => cases ha
  | joining hj | preparing _ _ hj | crashed _ _ hj => rw [ho] at hj; cases hj

theorem During.stop_returned (h : During s .rest t) (ho : t.owner = .idle) :
    t.session = none ∧ Since s t s.closing := by
  cases h with
  | rested _ _ hx h => exact ⟨hx, h⟩
  | joining hj => rw [ho] at hj; cases hj
  | preparing _ ha | launching _ _ ha | started _ _ ha | failed _ _ ha | crashed _ ha => cases ha

/-- What a call comes to that begins in `s`, in whatever way it and the threads go on. -/
theorem during_of_course {inside : List Label} (hs : s.Sound) (hl : l.call? = some a)
    (hr : a ≠ .rest → s.running = false) (h : Course s (l :: inside) t)
    (hi : ∀ k ∈ inside, k.call? = none) : During s a t := by
  cases h with
  | cons rig hstarve ht h =>
    have hs' := (hs.equip rig).step hstarve ht
    have hbegin : During s a _ := .begin (life_cases (hs.equip rig).numbered hstarve ht) hl hr
    refine (h.induction (P := fun t => t.Sound ∧ During s a t) ?_ ⟨hs', hbegin⟩).2
    rintro k hk t rig u hstarve ht ⟨hs, hd⟩
    have hd : During s a { t with rig } := hd.aside (Aside.equipped rig).kept
    exact ⟨(hs.equip rig).step hstarve ht, hd.step (hs.equip rig).fits
      (life_cases (hs.equip rig).numbered hstarve ht) (hi k hk)⟩

end During

/-! ## Starts and stops in any order -/

section Laws
variable {rig : Rig} {listening : Bool} {ls : List Label} {s : State}

theorem Vacant.stop (h : Vacant s) (ho : s.owner = .idle) : s.step .stop = some s := by
  obtain ⟨rig, listening, running, session, owner, begun, trace, streams, codecs⟩ := s
  obtain ⟨rfl, rfl, rfl, rfl⟩ := h
  obtain rfl : owner = .idle := ho
  rfl

/-- A streamer is started and stopped in any order, on hardware that does whatever it does. Starts
and stops alternate, each stop with the parameters of its start, and behind the stop of a session
nothing is told of it. Between calls, a session that is there has its stop still to come. A start
while it runs is refused and changes nothing. Every other start begins a session, or it fails: then
the stop of a session that had ended by itself is all that is told but by that session, and nothing
is left open. After a stop it is the same, and stopping again changes nothing. A call in progress
comes to its end. -/
theorem start_stop_laws (h : Course (State.new rig listening) ls s) :
    Alternating s.controls ∧ Hushed s.trace ∧
    (s.owner = .idle →
      (∀ x, s.session = some x → s.closing = s.heard [(x.number, ⟨false, x.params⟩)]) ∧
      (s.running = true → ∀ settings,
        s.step (.start settings) = some (s.answer (.error .alreadyRunning))) ∧
      (s.running = false → ∀ settings inside t, Course s (.start settings :: inside) t →
        (∀ l ∈ inside, l.call? = none) → t.owner = .idle →
          (∃ p, Started s t p) ∨ ∃ e, Failed s t e ∧ Vacant t) ∧
      (∀ inside t, Course s (.stop :: inside) t → (∀ l ∈ inside, l.call? = none) →
        t.owner = .idle → Since s t s.closing ∧ Vacant t ∧ t.step .stop = some t)) ∧
    s.Returning := by
  have hable := h.able (able_new rig listening)
  have hs := hable.sound
  refine ⟨alternating_of_paired hs.paired, hs.hushed, fun ho => ⟨?_, ?_, ?_, ?_⟩,
    hable.returning⟩
  · intro x hx
    exact closing_of_announced hx ((hs.idle ho).busy hx).2
  · intro hr settings
    simp [step, ho, beginStart, hr]
  · intro hr settings inside t ht hi hot
    have hst := ht.sound hs
    rcases (during_of_course hs rfl (fun _ => hr) ht hi).start_returned hot with hd | ⟨e, hd⟩
    · exact .inl hd
    · exact .inr ⟨e, hd, (hst.idle hot).vacant hd.session⟩
  · intro inside t ht hi hot
    have hst := ht.sound hs
    obtain ⟨hx, hd⟩ := (during_of_course hs rfl (fun h => absurd rfl h) ht hi).stop_returned hot
    have hv := (hst.idle hot).vacant hx
    exact ⟨hd, hv, hv.stop hot⟩

end Laws

/-- A device that fails at the first period. -/
def sampleEmptyRig : Rig := { sampleRig with device := ⟨none, [], false⟩ }

/-- A codec that cannot be opened. -/
def sampleRefusingRig : Rig := { sampleEmptyRig with codec := .scripted 2 0 none true }

/-- A session begins and ends by itself, and the codec is exchanged. -/
def sampleLoss : List Label :=
  [.start sampleSettings, .owner, .owner, .owner, .owner, .producer, .producer, .producer,
    .producer, .encoder, .equip sampleRefusingRig]

/-- The second start tells the stop of the first session, and then fails. -/
theorem start_stop_laws_sample : ∃ s t e,
    Course (State.new sampleEmptyRig true) sampleLoss s ∧ s.running = false ∧
      (s.controls.map fun c => c.2.start) = [true] ∧
      Course s [.start sampleSettings, .owner, .owner] t ∧ Failed s t e ∧ Vacant t ∧
      (t.controls.map fun c => c.2.start) = [true, false] := by
  have hrun : ((State.new sampleEmptyRig true).steps sampleLoss).any (fun s =>
      decide (s.owner = .idle ∧ s.running = false ∧
        (s.controls.map fun c => c.2.start) = [true]) &&
      (s.steps [.start sampleSettings, .owner, .owner]).any fun t =>
        decide (t.owner = .idle ∧ t.session = none ∧
          (t.controls.map fun c => c.2.start) = [true, false])) = true := by
    decide +kernel
  simp only [Option.any_eq_true, Bool.and_eq_true, decide_eq_true_eq] at hrun
  obtain ⟨s, hs, ⟨ho, hr, hc⟩, t, ht, hot, hx, hct⟩ := hrun
  have hloss : Course (State.new sampleEmptyRig true) sampleLoss s :=
    course_of_steps (by simp [sampleLoss, Label.starves]) hs
  have hstart : Course s [.start sampleSettings, .owner, .owner] t :=
    course_of_steps (by simp [Label.starves]) ht
  obtain ⟨-, -, hidle, -⟩ := start_stop_laws hloss
  obtain ⟨-, -, hother, -⟩ := hidle ho
  rcases hother hr _ _ t hstart (by simp [Label.call?]) hot with ⟨p, hp⟩ | ⟨e, he, hv⟩
  · have := hp.session
    rw [hx] at this; cases this
  · exact ⟨s, t, e, hloss, hr, hc, hstart, he, hv, hct⟩

end State

end MicStream
