import MicStream.Proofs.Stream.Run
/-!
# The localizer of a session

The localizer works through the frames that it took, one after the other, and
what it tells is what `Tracker.frames` tells of them. A session without
localization has no localizer, and none comes later.

Results:
* `localizer_aside`: what the other threads can do to the localizer.
* `LocalizerAt.step`: a step of the localizer itself.
* `localizer_of_run`: where the localizer is after any run.
-/
namespace MicStream

namespace Tracker

def after (t : Tracker) (fs : List Frame) : Tracker := fs.foldl (fun t f => (t.track f).2) t

theorem after_concat (t : Tracker) (fs : List Frame) (f : Frame) :
    t.after (fs ++ [f]) = ((t.after fs).track f).2 := by
  simp [after]

theorem frames_append : ∀ (fs gs : List Frame) (t : Tracker),
    t.frames (fs ++ gs) = t.frames fs ++ (t.after fs).frames gs
  | [], _, _ => rfl
  | f :: fs, gs, t => by
    simp only [List.cons_append, frames, frames_append fs gs, List.append_assoc]
    rfl

theorem frames_concat (t : Tracker) (fs : List Frame) (f : Frame) :
    t.frames (fs ++ [f]) = t.frames fs ++ ((t.after fs).track f).1.toList := by
  rw [frames_append]; simp [frames]

end Tracker

def LocalizerThread.held (l : LocalizerThread) : List Frame :=
  match l.stage with
  | .holding f => [f]
  | _ => []

theorem LocalizerThread.held_of_waiting (l : LocalizerThread) (h : l.stage = .waiting) :
    l.held = [] := by
  unfold held
  rw [h]

theorem LocalizerThread.held_of_holding (l : LocalizerThread) {f : Frame}
    (h : l.stage = .holding f) : l.held = [f] := by
  unfold held
  rw [h]

namespace State

/-! ## Steps of the other threads -/

/-- What a step of another thread does to a localizer, if there is one. -/
inductive LocalizerAside (o o' : Option LocalizerThread) : Prop where
  | same (h : o' = o)
  | moved (l : LocalizerThread) (stage : LocalizerStage) (h : o = some l)
      (h' : o' = some { l with stage }) (hs : l.stage = .ready ∨ l.stage = .waiting)
      (hs' : stage = .waiting ∨ stage = .finished)

section Aside
variable {s s' : State} {x y : Session}

theorem localizer_spawn (h : Launching s x) (w : Worker) (ho : s.owner = .spawning w)
    (hy : (s.spawn x w).session = some y) : LocalizerAside x.localizer y.localizer := by
  cases w with
  | localizer =>
    cases hy
    cases hl : x.localizer with
    | none => exact .same rfl
    | some l => exact .moved l .waiting rfl rfl (.inl (h.localizer _ ho l hl)) (.inl rfl)
  | _ => cases hy; exact .same rfl

theorem localizer_abandon (hy : (s.abandon x).session = some y) :
    LocalizerAside x.localizer y.localizer := by
  unfold abandon at hy
  cases hl : x.localizer with
  | none => refine .same ?_; cases hy; simp [hl]
  | some l =>
    by_cases hs : l.stage = .ready
    · refine .moved l .finished rfl ?_ (.inl hs) (.inr rfl)
      cases hy; simp [hl, hs]
    · refine .same ?_
      cases hy; simp [hl, hs]

theorem abandon_sightings (n : Nat) : (s.abandon x).sightings n = s.sightings n := by
  unfold abandon
  split <;> split <;> rfl

/-- The other threads tell no sightings and take nothing from the queue of the localizer. -/
theorem localizer_aside {l : Label} (hl : l ≠ .localizer) (hh : Launching s x)
    (hx : s.session = some x) (hc : SessionStep s x l s') (hy : s'.session = some y) :
    LocalizerAside x.localizer y.localizer ∧ (∀ n, s'.sightings n = s.sightings n) ∧
      s.taking .localizer l = [] := by
  cases hc with
  | letGo =>
    obtain rfl : x = y := by simpa [hx] using hy
    exact ⟨.same rfl, fun _ => rfl, rfl⟩
  | refused =>
    obtain rfl : x = y := by simpa [hx, answer] using hy
    exact ⟨.same rfl, fun _ => rfl, rfl⟩
  | restarted settings =>
    simp only [signal, hx] at hy ⊢
    cases hy
    exact ⟨.same rfl, fun _ => rfl, rfl⟩
  | stopped =>
    simp only [signal, hx] at hy ⊢
    cases hy
    exact ⟨.same rfl, fun _ => rfl, rfl⟩
  | reclaimed a => rw [(reclaim_gone (s := s) x a).session] at hy; cases hy
  | spawned w ho =>
    refine ⟨localizer_spawn hh w ho hy, fun _ => ?_, rfl⟩
    cases w <;> rfl
  | announced =>
    simp only [announce, answer, tell_session] at hy
    cases hy
    exact ⟨.same rfl, fun n => sightings_tell_control _ _, rfl⟩
  | spawnFailed w cause =>
    obtain ⟨z, hz⟩ : ∃ z, (s.abandon x).session = some z := ⟨_, rfl⟩
    have ha : LocalizerAside x.localizer z.localizer := localizer_abandon hz
    simp only [signal, hz] at hy ⊢
    cases hy
    exact ⟨ha, fun n => abandon_sightings n, rfl⟩
  | producer _ hc =>
    obtain ⟨r, d, q, p, -, rfl⟩ := hc.shape
    cases hy; exact ⟨.same rfl, fun _ => rfl, rfl⟩
  | encoder _ hc =>
    cases hc with
    | coded p c n =>
      rw [tellAny_session] at hy
      cases hy
      refine ⟨.same rfl, fun n => ?_, rfl⟩
      cases p with
      | none => rfl
      | some p => exact sightings_tell_packet _ _
    | _ => cases hy; exact ⟨.same rfl, fun _ => rfl, rfl⟩
  | encoderQuit => cases hy; exact ⟨.same rfl, fun _ => rfl, rfl⟩
  | localizer => exact absurd rfl hl
  | localizerQuit l ho hs =>
    cases hy
    exact ⟨.moved l .finished ho rfl (.inr hs) (.inr rfl), fun _ => rfl, rfl⟩

end Aside

/-! ## Where the localizer is in its frames -/

/-- Where the localizer of session `y` is in the frames `fs` that it took, if it was `o` when the
session was set up: it has worked on those that are `done`, and told what came of them. -/
inductive LocalizerAt (o : Option LocalizerThread) (fs : List Frame) (s : State) (y : Session) :
    Prop where
  | off (ho : o = none) (hy : y.localizer = none) (hs : s.sightings y.number = []) (hf : fs = [])
  | on (l₀ l : LocalizerThread) (done : List Frame) (ho : o = some l₀) (hy : y.localizer = some l)
      (ht : s.listening = true → l.tracker = l₀.tracker.after done)
      (hs : s.sightings y.number = s.heard (l₀.tracker.frames done)) (hf : fs = done ++ l.held)

section LocalizerAt
variable {o : Option LocalizerThread} {fs : List Frame} {s s' : State} {x y : Session}

theorem LocalizerAt.aside (h : LocalizerAt o fs s x) (ha : LocalizerAside x.localizer y.localizer)
    (hn : y.number = x.number) (hl : s'.listening = s.listening)
    (hp : ∀ n, s'.sightings n = s.sightings n) : LocalizerAt o fs s' y := by
  cases h with
  | off ho hy hs hf =>
    cases ha with
    | same e => exact .off ho (e.trans hy) (by rw [hp, hn, hs]) hf
    | moved l stage he => rw [hy] at he; cases he
  | on l₀ l done ho hy ht hs hf =>
    cases ha with
    | same e =>
      exact .on l₀ l done ho (e.trans hy) (hl ▸ ht) (by rw [hp, hn, hs, heard_congr hl]) hf
    | moved l' stage he he' hst hst' =>
      obtain rfl : l = l' := Option.some.inj (hy.symm.trans he)
      refine .on l₀ _ done ho he' (hl ▸ ht) (by rw [hp, hn, hs, heard_congr hl]) ?_
      have hnone : l.held = [] := by
        unfold LocalizerThread.held
        rcases hst with hst | hst <;> rw [hst]
      have hnone' : ({ l with stage } : LocalizerThread).held = [] := by
        unfold LocalizerThread.held
        rcases hst' with rfl | rfl <;> rfl
      rw [hf, hnone, hnone']

theorem taking_localizer {l : LocalizerThread} (hx : s.session = some x)
    (hl : x.localizer = some l) : s.taking .localizer .localizer =
      if l.stage = .waiting then
        (x.queues.localize.receive.1.toOption.map SharedFrame.frame).toList
      else [] := by
  simp [taking, hx, hl]

theorem LocalizerAt.step (h : LocalizerAt o fs s x) (hx : s.session = some x)
    (hc : LocalizerStep s x s') (hw : Within s x s' y) :
    LocalizerAt o (fs ++ s.taking .localizer .localizer) s' y := by
  have hy := hw.session
  cases h with
  | off ho hn =>
    cases hc with
    | took l a q he | ended l he | located l f v t he | ignored l f he => rw [hn] at he; cases he
  | on l₀ l done ho he ht hs hf =>
    rw [taking_localizer hx he]
    cases hc with
    | took l' a q he' hst hq =>
      obtain rfl : l = l' := Option.some.inj (he.symm.trans he')
      cases hy
      refine .on l₀ _ done ho rfl ht hs ?_
      rw [hf, l.held_of_waiting hst, if_pos hst, hq]
      simp [Received.toOption, LocalizerThread.held]
    | ended l' he' hst hq =>
      obtain rfl : l = l' := Option.some.inj (he.symm.trans he')
      cases hy
      refine .on l₀ _ done ho rfl ht hs ?_
      rw [hf, l.held_of_waiting hst, if_pos hst, hq]
      simp [Received.toOption, LocalizerThread.held]
    | located l' f v t he' hst hno htrack =>
      obtain rfl : l = l' := Option.some.inj (he.symm.trans he')
      rw [tellAny_session] at hy
      cases hy
      have ht := ht hno
      refine .on l₀ _ (done ++ [f]) ho rfl ?_ ?_ ?_
      · intro _
        rw [Tracker.after_concat, ← ht, htrack]
      · rw [heard_congr (tellAny_listening _ _ _), Tracker.frames_concat, heard_append, ← ht,
          htrack]
        refine (sightings_tellAny_sighting v).trans ?_
        exact congrArg (· ++ _) hs
      · rw [hf, l.held_of_holding hst, if_neg (by simp [hst])]
        simp [LocalizerThread.held]
    | ignored l' f he' hst hno =>
      obtain rfl : l = l' := Option.some.inj (he.symm.trans he')
      cases hy
      refine .on l₀ _ (done ++ [f]) ho rfl ?_ ?_ ?_
      · intro hl
        have hl : s.listening = true := hl
        rw [hno] at hl; cases hl
      · rw [heard_of_silence hno] at hs
        exact hs.trans (heard_of_silence hno _).symm
      · rw [hf, l.held_of_holding hst, if_neg (by simp [hst])]
        simp [LocalizerThread.held]

end LocalizerAt

/-! ## Any run of a session -/

section Run
variable {s₀ s : State} {settings : StreamSettings} {x y : Session} {ls : List Label}

theorem SetUp.localizer (h : SetUp s₀ settings x) :
    (x.localizer = none ↔ settings.localization = false) ∧
      ∀ l, x.localizer = some l → l.stage = .ready := by
  obtain ⟨s, audio, localizer, capture, encoder, hp⟩ := h.prepared
  obtain rfl := hp.session
  refine ⟨?_, ?_⟩
  · have ha := hp.resolved
    unfold StreamSettings.resolve? at ha
    cases hloc : settings.localization with
    | true =>
      rw [hloc] at ha
      simp only [if_true, Option.map_eq_some_iff, Prod.mk.injEq] at ha
      obtain ⟨l, -, -, rfl⟩ := ha
      simp [State.setUp]
    | false =>
      rw [hloc] at ha
      simp only [Bool.false_eq_true, if_false, Option.some.injEq, Prod.mk.injEq] at ha
      rw [← ha.2]
      simp [State.setUp]
  · intro l hl
    obtain ⟨v, -, rfl⟩ := Option.map_eq_some_iff.1 hl
    rfl

/-- Where the localizer is after any run of its session. -/
theorem localizer_of_run (h : SessionRun s₀ settings x ls s y) :
    LocalizerAt x.localizer (s₀.taken .localizer ls) s y := by
  obtain ⟨-, hready⟩ := h.setUp.localizer
  have hnone := h.setUp.untold.2
  refine h.induction (Q := fun ls s y => LocalizerAt x.localizer (s₀.taken .localizer ls) s y) ?_ ?_
  · cases hl : x.localizer with
    | none => exact .off rfl hl hnone rfl
    | some l =>
      refine .on l l [] rfl hl (fun _ => rfl) (hnone.trans heard_nil.symm) ?_
      simp [taken, LocalizerThread.held, hready l hl]
  · intro ls l s y s' y' hrun hat hc hw
    rw [taken_concat _ _ hrun.steps]
    by_cases he : l = .localizer
    · subst he
      cases hc with
      | localizer _ hc => exact hat.step hrun.session hc hw
    · obtain ⟨ha, hp, htk⟩ := localizer_aside he hrun.launching hrun.session hc hw.session
      rw [htk, List.append_nil]
      exact hat.aside ha hw.number hw.listening hp

end Run

end State

end MicStream
