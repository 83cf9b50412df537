import MicStream.Proofs.Stream.Announcements
import MicStream.Proofs.Stream.Work
/-!
# Calls return

The owner waits for nothing but the threads of a session. Each of them has
been spawned when it is waited for, and it has been asked to end (`Waited`), so
as long as it runs it has a step, unless the device keeps it waiting; and all
steps together are bounded by the work that is left. All else the owner does by
itself, in a few steps (`Owner.left`).

Results:
* `Waited.joining`: while the owner waits, somebody has a step.
* `works_le`: and there are only so many of them.
* `Able.returns`: so a call returns.
-/
namespace MicStream

/-- Steps of the owner up to the return of its call, if nobody keeps it waiting. -/
def Owner.left : Owner → Nat
  | .idle | .crashed => 0
  | .announcing => 1
  | .spawning .localizer => 2
  | .spawning .encoder => 3
  | .spawning .producer => 4
  | .preparing _ => 5
  | .joining _ => 6

namespace State

/-- A thread of session `x` that has been spawned has begun, and all of them were asked to end when
the owner waits for them. -/
structure Waited (s : State) (x : Session) : Prop where
  producer : s.owner ≠ .spawning .producer → x.producer.stage ≠ .ready
  encoder : s.owner ≠ .spawning .producer → s.owner ≠ .spawning .encoder →
    x.encoder.stage ≠ .ready
  localizer : (∀ w, s.owner ≠ .spawning w) → ∀ m, x.localizer = some m → m.stage ≠ .ready
  signalled : ∀ a, s.owner = .joining a → x.signalled = true

section Waited
variable {s t : State} {x y : Session} {l : Label} {ls : List Label}

theorem Waited.keep (h : Waited s x) (ho : t.owner = s.owner) (hg : y.signalled = x.signalled)
    (hp : x.producer.stage ≠ .ready → y.producer.stage ≠ .ready)
    (he : x.encoder.stage ≠ .ready → y.encoder.stage ≠ .ready)
    (hl : (∀ m, x.localizer = some m → m.stage ≠ .ready) →
      ∀ m, y.localizer = some m → m.stage ≠ .ready) : Waited t y := by
  refine ⟨?_, ?_, ?_, ?_⟩
  · rw [ho]; exact fun h1 => hp (h.producer h1)
  · rw [ho]; exact fun h1 h2 => he (h.encoder h1 h2)
  · rw [ho]; exact fun h1 => hl (h.localizer h1)
  · rw [ho, hg]; exact h.signalled

/-- When nothing is being spawned, all threads have begun. -/
theorem Waited.began (h : Waited s x) (ho : ∀ w, s.owner ≠ .spawning w) :
    x.producer.stage ≠ .ready ∧ x.encoder.stage ≠ .ready ∧
      ∀ m, x.localizer = some m → m.stage ≠ .ready :=
  ⟨h.producer (ho _), h.encoder (ho _) (ho _), h.localizer ho⟩

theorem Waited.spawn (h : Waited s x) {w : Worker} (ho : s.owner = .spawning w)
    (hy : (s.spawn x w).session = some y) : Waited (s.spawn x w) y := by
  cases w with
  | producer =>
    cases hy
    exact ⟨fun _ h => (by cases h), fun _ h => absurd rfl h, fun h => absurd rfl (h _),
      fun _ h => by cases h⟩
  | encoder =>
    cases hy
    refine ⟨fun _ => h.producer (by simp [ho]), fun _ _ h => (by cases h), fun hw m hm => ?_, ?_⟩
    · have hm : x.localizer = some m := hm
      refine absurd ?_ (hw .localizer)
      simp [State.spawn, hm]
    · intro a ha
      simp only [State.spawn] at ha
      split at ha <;> cases ha
  | localizer =>
    cases hy
    refine ⟨fun _ => h.producer (by simp [ho]), fun _ _ => h.encoder (by simp [ho]) (by simp [ho]),
      fun _ m hm => ?_, fun _ h => by cases h⟩
    obtain ⟨k, -, rfl⟩ := Option.map_eq_some_iff.1 hm
    intro hr
    cases hr

theorem SessionStep.waited (hc : SessionStep s x l t) (hl : l.starves = false)
    (hx : s.session = some x) (h : Waited s x) (hy : t.session = some y) : Waited t y := by
  cases hc with
  | letGo | refused =>
    obtain rfl := Option.some.inj (hx.symm.trans hy)
    exact h.keep rfl rfl id id id
  | restarted _ ho | stopped ho =>
    simp only [signal, hx] at hy ⊢
    cases hy
    obtain ⟨hp, he, hm⟩ := h.began (by simp [ho])
    exact ⟨fun _ => hp, fun _ _ => he, fun _ => hm, fun _ _ => rfl⟩
  | reclaimed a => rw [(reclaim_gone x a).session] at hy; cases hy
  | spawned w ho => exact h.spawn ho hy
  | announced ho =>
    obtain rfl := Option.some.inj (hy.symm.trans (session_announce x))
    obtain ⟨hp, he, hm⟩ := h.began (by simp [ho])
    refine ⟨fun _ => hp, fun _ _ => he, fun _ => hm, fun a ha => ?_⟩
    simp [announce, answer] at ha
  | spawnFailed => cases hl
  | producer _ hc =>
    obtain ⟨hs, ho, he, hm⟩ := hc.started hy
    obtain ⟨-, z, hw⟩ := hc.worked
    obtain rfl := Option.some.inj (hy.symm.trans hw.session)
    exact h.keep ho hw.alike.signalled (fun _ => hs) (by rw [he]; exact id) (by rw [hm]; exact id)
  | encoder _ hc =>
    obtain ⟨hs, ho, hp, hm⟩ := hc.started hy
    obtain ⟨-, z, hw⟩ := hc.worked
    obtain rfl := Option.some.inj (hy.symm.trans hw.session)
    exact h.keep ho hw.alike.signalled (by rw [hp]; exact id) (fun _ => hs) (by rw [hm]; exact id)
  | localizer _ hc =>
    obtain ⟨hs, ho, hp, he⟩ := hc.started hy
    obtain ⟨-, z, hw⟩ := hc.worked
    obtain rfl := Option.some.inj (hy.symm.trans hw.session)
    exact h.keep ho hw.alike.signalled (by rw [hp]; exact id) (by rw [he]; exact id) fun _ => hs
  | encoderQuit =>
    cases hy
    exact h.keep rfl rfl id (fun _ h => by cases h) id
  | localizerQuit m =>
    cases hy
    refine h.keep rfl rfl id id fun _ k hk hr => ?_
    cases hk
    cases hr

/-- A session that is there after a step was set up in it, or was there before. -/
theorem session_cases (hn : s.Numbered) (ht : s.step l = some t) (hy : t.session = some y) :
    (∃ settings audio localizer capture encoder p a, t.owner = .spawning .producer ∧
      Encoder.new.init p a = (encoder, .ok ()) ∧
      y = s.setUp settings audio localizer capture encoder) ∨
    ∃ x, s.session = some x ∧ ((y = x ∧ t.owner = s.owner) ∨ SessionStep s x l t) := by
  cases hx : s.session with
  | none =>
    rcases step_of_none hx ht with ⟨settings, -, rfl⟩ | ⟨h1, -, -⟩
    · have hc := prepare_cases s settings
      generalize s.prepare settings = t at hc hy
      cases hc with
      | setUp audio localizer capture effects encoder rig ha hc he =>
        cases hy
        exact .inl ⟨settings, audio, localizer, capture, encoder, _, _, rfl, he, rfl⟩
      | _ =>
        have hy : s.session = some y := hy
        rw [hx] at hy; cases hy
    · rw [h1] at hy; cases hy
  | some x =>
    refine .inr ⟨x, rfl, ?_⟩
    rcases hn.step_of_some hx ht with ⟨-, rig, rfl⟩ | ⟨a, rfl⟩ | ⟨z, hc, -⟩
    · exact .inl ⟨(Option.some.inj (hx.symm.trans hy)).symm, rfl⟩
    · rw [(reclaim_gone x a).session] at hy; cases hy
    · exact .inr hc

/-! ## A streamer whose calls return -/

/-- All is well with a streamer, and its session lets nobody wait in vain. -/
structure Able (s : State) : Prop where
  sound : s.Sound
  waited : ∀ x, s.session = some x → s.Waited x
  sized : ∀ x, s.session = some x → x.Sized

theorem able_new (rig : Rig) (listening : Bool) : (State.new rig listening).Able :=
  ⟨sound_new rig listening, fun _ h => (by cases h), fun _ h => (by cases h)⟩

theorem Able.equip (h : s.Able) (rig : Rig) : Able { s with rig } :=
  ⟨h.sound.equip rig, fun x hx => (h.waited x hx).keep rfl rfl id id id, h.sized⟩

theorem Able.step (h : s.Able) (hl : l.starves = false) (ht : s.step l = some t) : t.Able := by
  refine ⟨h.sound.step hl ht, fun y hy => ?_, fun y hy => ?_⟩
  · rcases session_cases h.sound.numbered ht hy with
      ⟨_, _, _, _, _, _, _, ho, -, rfl⟩ | ⟨x, hx, ⟨rfl, ho⟩ | hc⟩
    · exact ⟨fun h => absurd ho h, fun h => absurd ho h, fun h => absurd ho (h _),
        fun _ h => by rw [ho] at h; cases h⟩
    · exact (h.waited y hx).keep ho rfl id id id
    · exact hc.waited hl hx (h.waited x hx) hy
  · rcases session_cases h.sound.numbered ht hy with
      ⟨settings, _, _, _, _, _, _, -, he, rfl⟩ | ⟨x, hx, ⟨rfl, -⟩ | hc⟩
    · obtain ⟨n, hn, rfl⟩ := Encoder.init_ok he
      exact ⟨Fifo.bounded_bounded _, Fifo.bounded_bounded _, hn⟩
    · exact h.sized y hx
    · exact hc.sized hl hx (h.sized x hx) hy

theorem Course.able (h : Course s ls t) (hs : s.Able) : t.Able :=
  h.induction (fun _ _ _ rig _ hl ht hs => (hs.equip rig).step hl ht) hs

/-! ## Every thread has a step -/

theorem producerStep_isSome (hr : x.producer.stage ≠ .ready) (hf : x.producer.stage ≠ .finished)
    (hd : s.rig.device.held = false) : (s.producerStep x).isSome := by
  unfold producerStep
  dsimp only
  split
  · rename_i hs; exact absurd hs hr
  · rfl
  · unfold State.read
    split
    · rw [hd]; rfl
    · rfl
  · split <;> rfl
  · split <;> rfl
  · rfl
  · rfl
  · rename_i hs; exact absurd hs hf

/-- While the owner waits a thread has a step, or all have ended and the owner has one. -/
theorem Waited.joining (h : Waited s x) (hx : s.session = some x) {a : Afterwards}
    (ho : s.owner = .joining a) (hd : s.rig.device.held = false) :
    (s.step .owner).isSome ∨ ∃ l, l.works = true ∧ (s.step l).isSome := by
  obtain ⟨hp, he, hm⟩ := h.began (by simp [ho])
  have hg := h.signalled a ho
  by_cases hpf : x.producer.stage = .finished
  · cases hes : x.encoder.stage with
    | ready => exact absurd hes he
    | waiting =>
      exact .inr ⟨.encoderQuits, rfl, by simp [step, hx, State.encoderQuits, hes, hg]⟩
    | coding => exact .inr ⟨.encoder, rfl, by simp [step, hx, encoderStep, hes]⟩
    | finished =>
      cases hml : x.localizer with
      | none => exact .inl (by simp [step, ownerStep, ho, hx, Session.ended, hpf, hes, hml])
      | some m =>
        cases hms : m.stage with
        | ready => exact absurd hms (hm m hml)
        | waiting =>
          exact .inr ⟨.localizerQuits, rfl,
            by simp [step, hx, State.localizerQuits, hml, hms, hg]⟩
        | holding f => exact .inr ⟨.localizer, rfl, by simp [step, hx, localizerStep, hml, hms]⟩
        | finished =>
          exact .inl (by simp [step, ownerStep, ho, hx, Session.ended, hpf, hes, hml, hms])
  · refine .inr ⟨.producer, rfl, ?_⟩
    simp only [step, hx, Option.bind_some]
    exact producerStep_isSome hp hpf hd

end Waited

/-! ## The end of a call -/

section Returning
variable {s t : State} {a : Afterwards} {l : Label} {inside : List Label}

/-- The steps that the threads of the session have before them, at most. -/
def work (s : State) : Nat := (s.session.map Session.work).getD 0

/-- Each step of a thread that is waited for leaves less to do. -/
theorem work_step (hs : s.Able) (ho : s.owner = .joining a) (hl : l.works = true)
    (ht : s.step l = some t) :
    t.owner = .joining a ∧ t.work < s.work ∧ t.rig.device.held = s.rig.device.held := by
  have hf := hs.sound.fits
  rw [ho] at hf
  obtain ⟨⟨x, hb, -⟩, hr⟩ := hf.joining
  obtain ⟨hcall, hstarve, hequip⟩ := Label.plain_of_works hl
  have hc := step_cases hequip (fun _ h => by rw [ho] at h; cases h) hb.session ht
  have hlife := hc.life hb.session hstarve
  cases hlife with
  | aside _ _ _ ha =>
    obtain ⟨y, hy, -⟩ : ∃ y, t.session = some y ∧ y.title = x.title := by
      have hk := ha.kept.session
      rw [hb.session, Option.map_some] at hk
      exact Option.map_eq_some_iff.1 hk
    have hlt := hc.work_lt hl (hs.sized x hb.session) hr hy
    refine ⟨ha.kept.owner.trans ho, ?_, hc.held hl⟩
    simpa [work, hb.session, hy] using hlt
  | passed _ b h | asked _ b z h => rw [hcall] at h; cases h
  | _ => cases hl

/-- While the owner waits only so many steps of threads are left, whatever the hardware does. -/
theorem works_le (h : Course s inside t) (hs : s.Able) (ho : s.owner = .joining a)
    (hi : ∀ l ∈ inside, l.works = true ∨ l = .letGo) :
    inside.countP Label.works + t.work ≤ s.work := by
  induction h with
  | nil => simp
  | @cons s t u l ls rig hl ht _ ih =>
    have hrest : ∀ l ∈ ls, l.works = true ∨ l = .letGo := fun l hm => hi l (by simp [hm])
    have hable := (hs.equip rig).step hl ht
    rcases hi l (by simp) with hworks | rfl
    · obtain ⟨hot, hlt, -⟩ := work_step (hs.equip rig) ho hworks ht
      have hlt : t.work < s.work := hlt
      have := ih hable hot hrest
      rw [List.countP_cons_of_pos hworks]
      omega
    · obtain rfl := Option.some.inj ht
      have := ih hable ho hrest
      rw [List.countP_cons_of_neg (by simp [Label.works])]
      exact this

/-- Each step of the owner brings its call closer to its return. -/
theorem ownerStep_left (h : s.ownerStep = some t) :
    t.owner.left < s.owner.left ∧ t.rig.device.held = s.rig.device.held := by
  unfold ownerStep at h
  split at h
  · rename_i settings ho
    cases h
    have hc := prepare_cases s settings
    generalize s.prepare settings = t at hc
    rw [ho]
    cases hc with
    | setUp _ _ _ _ _ rig _ _ _ hr => exact ⟨by simp [Owner.left], by rw [hr.1]⟩
    | refused e rig he hr => exact ⟨by simp [answer, Owner.left], by rw [answer, hr]⟩
    | overflowed => exact ⟨by simp [Owner.left], rfl⟩
  · rename_i a x ho hx
    split at h
    · cases h
      have hgo : ∀ u : State, (u.goOn a).owner.left ≤ 5 := fun u => by
        cases a <;> simp [goOn, answer, Owner.left]
      rw [ho]
      refine ⟨Nat.lt_succ_of_le (hgo _), ?_⟩
      unfold reclaim
      dsimp only
      rw [goOn_rig]
      split
      · rw [tell_rig]
      · rfl
    · cases h
  · rename_i w x ho hx
    cases h
    rw [ho]
    cases w with
    | encoder =>
      refine ⟨?_, rfl⟩
      simp only [spawn]
      split <;> simp [Owner.left]
    | _ => exact ⟨by simp [spawn, Owner.left], rfl⟩
  · rename_i x ho hx
    cases h
    rw [ho]
    simp [announce, answer, Owner.left]
  · cases h

/-- While a call is in progress the owner has a step, or it waits and a thread has one. -/
theorem Able.enabled (h : s.Able) (hi : s.owner ≠ .idle) (hc : s.owner ≠ .crashed)
    (hj : (∀ a, s.owner ≠ .joining a) ∨ s.rig.device.held = false) :
    (s.step .owner).isSome ∨
      ∃ a l, s.owner = .joining a ∧ l.works = true ∧ (s.step l).isSome := by
  have hf := h.sound.fits
  cases how : s.owner with
  | idle => exact absurd how hi
  | crashed => exact absurd how hc
  | joining a =>
    rw [how] at hf
    obtain ⟨x, hb, -⟩ := hf.joining.1
    have hd := hj.resolve_left fun hj => hj a how
    rcases (h.waited x hb.session).joining hb.session how hd with hown | ⟨l, hl, hs⟩
    · exact .inl hown
    · exact .inr ⟨a, l, rfl, hl, hs⟩
  | preparing settings => exact .inl (by simp [State.step, ownerStep, how])
  | spawning w | announcing =>
    rw [how] at hf
    obtain ⟨x, hb, -⟩ := hf
    exact .inl (by simp [State.step, ownerStep, how, hb.session])

/-- A call returns, unless the device keeps its reader waiting. -/
theorem Able.returns {s : State} (h : s.Able) (hd : s.rig.device.held = false) :
    ∃ inside t, s.steps inside = some t ∧ (∀ l ∈ inside, l = .owner ∨ l.works = true) ∧
      (t.owner = .idle ∨ t.owner = .crashed) := by
  by_cases hend : s.owner = .idle ∨ s.owner = .crashed
  · exact ⟨[], s, rfl, nofun, hend⟩
  · obtain ⟨hi, hc⟩ := not_or.1 hend
    rcases h.enabled hi hc (.inr hd) with hown | ⟨a, l, ho, hl, hsome⟩
    · obtain ⟨t, ht⟩ := Option.isSome_iff_exists.1 hown
      obtain ⟨hleft, hheld⟩ := ownerStep_left ht
      obtain ⟨inside, u, hu, hin, hret⟩ := (h.step rfl ht).returns (hheld.trans hd)
      exact ⟨.owner :: inside, u, steps_cons.2 ⟨t, ht, hu⟩,
        List.forall_mem_cons.2 ⟨.inl rfl, hin⟩, hret⟩
    · obtain ⟨t, ht⟩ := Option.isSome_iff_exists.1 hsome
      obtain ⟨hot, hless, hheld⟩ := work_step h ho hl ht
      have hsame : t.owner = s.owner := hot.trans ho.symm
      obtain ⟨inside, u, hu, hin, hret⟩ :=
        (h.step (Label.plain_of_works hl).2.1 ht).returns (hheld.trans hd)
      exact ⟨l :: inside, u, steps_cons.2 ⟨t, ht, hu⟩,
        List.forall_mem_cons.2 ⟨.inr hl, hin⟩, hret⟩
termination_by (s.owner.left, s.work)
decreasing_by
  · exact Prod.Lex.left _ _ hleft
  · rw [hsame]
    exact Prod.Lex.right _ hless

/-- A call in progress comes to its end. -/
structure Returning (s : State) : Prop where
  /-- The owner waits for the threads of a session only. -/
  owner : s.owner ≠ .idle → s.owner ≠ .crashed → (∀ a, s.owner ≠ .joining a) →
    (s.step .owner).isSome
  /-- While it waits, the threads make so many steps and no more, whatever the hardware does. -/
  threads : ∀ a, s.owner = .joining a → ∃ n, ∀ inside t, Course s inside t →
    (∀ l ∈ inside, l.works = true ∨ l = .letGo) → inside.countP Label.works ≤ n
  /-- So they can come to their end, unless the device keeps its reader waiting. -/
  returns : s.rig.device.held = false → ∃ inside t, s.steps inside = some t ∧
    (∀ l ∈ inside, l = .owner ∨ l.works = true) ∧ (t.owner = .idle ∨ t.owner = .crashed)

theorem Able.returning (h : s.Able) : s.Returning where
  owner hi hc hj := by
    rcases h.enabled hi hc (.inl hj) with hown | ⟨a, l, ho, -⟩
    · exact hown
    · exact absurd ho (hj a)
  threads a ho := ⟨s.work, fun inside t hcourse hin =>
    Nat.le_trans (Nat.le_add_right _ _) (works_le hcourse h ho hin)⟩
  returns := h.returns

end Returning

end State

end MicStream
