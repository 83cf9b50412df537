import MicStream.Proofs.Localization.Smoothing
import MicStream.Proofs.Stream.LocalizerThread
/-!
# What frames become sightings

A tracker reports on its frames one by one. A report is made of the localizer
and of the common part of the first four channels; neither what else a frame
holds nor what the frame before left in the buffers is part of it. The gate
looks at a report after the localizer has moved on.

Results:
* `track_eq`: one frame, without the buffers.
* `track_trim`, `reports_buffers`: what does not matter to a report.
* `track_gate`: the gate withholds reports and changes nothing else.
* `tracking_laws`: all of it, for any sequence of frames.
-/
namespace MicStream

theorem Quad.usable_of_length {α : Type} {q : Quad (List α)} {n : Nat}
    (h : ∀ c ∈ q.toList, c.length = n) : Localizer.usable q n = n ∧ q.map (List.take n) = q := by
  obtain ⟨a, b, c, d⟩ := q
  simp only [toList, List.mem_cons, List.not_mem_nil, or_false, forall_eq_or_imp, forall_eq] at h
  obtain ⟨ha, hb, hc, hd⟩ := h
  constructor
  · simp [Localizer.usable, toList, ha, hb, hc, hd]
  · simp [map, List.take_of_length_le, ha.le, hb.le, hc.le, hd.le]

namespace Tracker

/-! ## One frame -/

def channels (q : Quad (List Int16)) : Quad (List Float32) :=
  q.map fun c => signal (c.take (common q))

theorem zipWith_refill (buffers : Quad (List Float32)) (q : Quad (List Int16)) :
    buffers.zipWith (refill (common q)) q = channels q := by
  simp [Quad.zipWith, refill, channels, Quad.map]

theorem common_le (q : Quad (List Int16)) : ∀ c ∈ q.toList, common q ≤ c.length := by
  simp only [common, Quad.toList, List.foldl, List.mem_cons, List.not_mem_nil, or_false,
    forall_eq_or_imp, forall_eq]
  omega

theorem length_channels (q : Quad (List Int16)) :
    ∀ c ∈ (channels q).toList, c.length = common q := by
  have h := common_le q
  simp only [channels, Quad.map, Quad.toList, signal, List.mem_cons, List.not_mem_nil, or_false,
    forall_eq_or_imp, forall_eq, List.length_map, List.length_take] at h ⊢
  omega

/-- What the localizer makes of four channels. -/
def heard (t : Tracker) (q : Quad (List Int16)) : Option (Estimate Float32) × Localizer Float32 :=
  t.localizer.localize (channels q) (common q)

theorem setup_heard (t : Tracker) (q : Quad (List Int16)) :
    (t.heard q).2.setup = t.localizer.setup := by
  simp only [heard, Localizer.localize_eq t.localizer ⟨channels q, common q⟩,
    Localizer.setup_next]

theorem confidence_heard {t : Tracker} {q : Quad (List Int16)} {e : Estimate Float32}
    (h : (t.heard q).1 = some e) :
    e.confidence = Localizer.confidence (Localizer.peaks t.localizer.setup (channels q)) := by
  rw [heard, Localizer.localize_eq t.localizer ⟨channels q, common q⟩] at h
  dsimp only at h
  obtain ⟨p, hp, rfl⟩ := Option.map_eq_some_iff.1 h
  obtain ⟨r, hr, rfl⟩ := Option.map_eq_some_iff.1 hp
  obtain ⟨hu, ht⟩ := Quad.usable_of_length (length_channels q)
  simp only [Localizer.heard?, hu, ht] at hr
  split at hr
  · cases hr
  · obtain ⟨d, -, rfl⟩ := Option.map_eq_some_iff.1 hr
    rfl

/-- One frame of at least four channels, without the buffers. -/
theorem track_eq {t : Tracker} {f : Frame} {q : Quad (List Int16)} (h : Quad.ofList? f = some q) :
    t.track f =
      (((t.heard q).1.filter (admits { t with localizer := (t.heard q).2 })).map
          fun e => sighting e (channels q),
        { t with localizer := (t.heard q).2, buffers := channels q }) := by
  simp only [track, h, zipWith_refill, heard]
  rcases t.localizer.localize (channels q) (common q) with ⟨e, l⟩
  rfl

theorem ofList_eq_some {f : Frame} (h : 4 ≤ f.length) : ∃ q, Quad.ofList? f = some q := by
  rcases f with _ | ⟨a, _ | ⟨b, _ | ⟨c, _ | ⟨d, f⟩⟩⟩⟩ <;>
    first | exact ⟨_, rfl⟩ | (simp only [List.length_cons, List.length_nil] at h; omega)

theorem localizer_setup_track (t : Tracker) (f : Frame) :
    (t.track f).2.localizer.setup = t.localizer.setup := by
  cases hq : Quad.ofList? f with
  | none => simp [track, hq]
  | some q => rw [track_eq hq, ← t.setup_heard q]

theorem gate_track (t : Tracker) (f : Frame) : (t.track f).2.gate = t.gate := by
  cases hq : Quad.ofList? f with
  | none => simp [track, hq]
  | some q => rw [track_eq hq]

/-- A sighting has the loudness of the frame and what its correlations say of it. -/
theorem of_track {t : Tracker} {f : Frame} {v : Sighting} (h : (t.track f).1 = some v) :
    ∃ q, Quad.ofList? f = some q ∧ v.loudness = loudness (channels q) ∧
      v.confidence = Localizer.confidence (Localizer.peaks t.localizer.setup (channels q)) := by
  cases hq : Quad.ofList? f with
  | none => simp [track, hq] at h
  | some q =>
    rw [track_eq hq] at h
    dsimp only at h
    obtain ⟨e, he, rfl⟩ := Option.map_eq_some_iff.1 h
    have he : (t.heard q).1 = some e := (Option.filter_eq_some_iff.1 he).1
    exact ⟨q, rfl, rfl, confidence_heard he⟩

/-! ## What does not matter -/

/-- The first four channels of a frame, each cut to the shortest of them. -/
def trim (f : Frame) : Frame :=
  (f.take 4).map (List.take (((f.take 4).map List.length).min?.getD 0))

theorem ofList_trim {f : Frame} {q : Quad (List Int16)} (h : Quad.ofList? f = some q) :
    Quad.ofList? (trim f) = some (q.map (List.take (common q))) := by
  rcases f with _ | ⟨a, _ | ⟨b, _ | ⟨c, _ | ⟨d, f⟩⟩⟩⟩ <;> cases h
  simp [trim, Quad.ofList?, Quad.map, common, Quad.toList]

theorem heard_trim (t : Tracker) (q : Quad (List Int16)) :
    channels (q.map (List.take (common q))) = channels q ∧
      t.heard (q.map (List.take (common q))) = t.heard q := by
  have hcommon : common (q.map (List.take (common q))) = common q := by
    have h := common_le q
    simp only [Quad.toList, List.mem_cons, List.not_mem_nil, or_false, forall_eq_or_imp,
      forall_eq] at h
    generalize common q = n at h
    simp only [common, Quad.map, Quad.toList, List.foldl, List.length_take]
    omega
  have hchannels : channels (q.map (List.take (common q))) = channels q := by
    rw [channels, hcommon]
    simp only [channels, Quad.map, List.take_take, Nat.min_self]
  exact ⟨hchannels, by rw [heard, hcommon, hchannels, heard]⟩

theorem track_trim (t : Tracker) (f : Frame) : t.track (trim f) = t.track f := by
  by_cases hf : f.length < 4
  · have ht : (trim f).length < 4 := by simp [trim, hf]
    rw [track_of_few_channels hf, track_of_few_channels ht]
  · obtain ⟨q, hq⟩ := ofList_eq_some (Nat.le_of_not_lt hf)
    rw [track_eq hq, track_eq (ofList_trim hq), (t.heard_trim q).1, (t.heard_trim q).2]

/-- The buffers do not matter to a report, and only a frame that is passed over leaves them. -/
theorem track_buffers (t : Tracker) (buffers : Quad (List Float32)) (f : Frame) :
    ∃ buffers', { t with buffers }.track f =
      ((t.track f).1, { (t.track f).2 with buffers := buffers' }) := by
  by_cases hf : f.length < 4
  · exact ⟨buffers, by rw [track_of_few_channels hf, track_of_few_channels hf]⟩
  · obtain ⟨q, hq⟩ := ofList_eq_some (Nat.le_of_not_lt hf)
    refine ⟨channels q, ?_⟩
    rw [track_eq hq, track_eq hq]
    have hh : { t with buffers }.heard q = t.heard q := rfl
    rw [hh]
    generalize t.heard q = r
    rfl

def passes (t : Tracker) (v : Sighting) : Bool :=
  !decide (v.confidence < t.localizer.setup.minConfidence)

/-- The gate withholds reports and changes nothing else. -/
theorem track_gate (t : Tracker) (f : Frame) :
    { t with gate := true }.track f =
      (({ t with gate := false }.track f).1.filter t.passes,
        { ({ t with gate := false }.track f).2 with gate := true }) := by
  cases hq : Quad.ofList? f with
  | none => simp [track, hq]
  | some q =>
    rw [track_eq hq, track_eq hq]
    have hh (g : Bool) : heard { t with gate := g } q = t.heard q := rfl
    rw [hh true, hh false]
    have hs := t.setup_heard q
    generalize t.heard q = r at hs ⊢
    obtain ⟨_ | e, l⟩ := r
    · rfl
    · dsimp only at hs ⊢
      -- without the gate every estimate is admitted
      have hopen : admits ⟨l, false, t.buffers⟩ e = true := rfl
      have hshut : admits ⟨l, true, t.buffers⟩ e = t.passes (sighting e (channels q)) := by
        rw [passes, ← hs]
        rfl
      simp only [Option.filter_some, hopen, hshut, if_true, Option.map_some]
      split <;> rfl

/-! ## Any sequence of frames -/

def reports : Tracker → List Frame → List (Option Sighting)
  | _, [] => []
  | t, f :: fs => (t.track f).1 :: reports (t.track f).2 fs

theorem frames_eq : ∀ (fs : List Frame) (t : Tracker), t.frames fs = (t.reports fs).filterMap id
  | [], _ => rfl
  | f :: fs, t => by
    rw [frames, frames_eq fs, reports]
    cases (t.track f).1 <;> rfl

theorem length_reports : ∀ (fs : List Frame) (t : Tracker), (t.reports fs).length = fs.length
  | [], _ => rfl
  | f :: fs, t => by rw [reports, List.length_cons, length_reports fs, List.length_cons]

theorem getElem?_reports : ∀ (fs : List Frame) (t : Tracker) (i : Nat),
    (t.reports fs)[i]? = fs[i]?.map fun f => ((t.after (fs.take i)).track f).1
  | [], _, _ => by simp [reports]
  | f :: fs, t, 0 => by simp [reports, after]
  | f :: fs, t, i + 1 => by
    rw [reports, List.getElem?_cons_succ, getElem?_reports fs, List.getElem?_cons_succ,
      List.take_succ_cons]
    rfl

theorem setup_after (fs : List Frame) (t : Tracker) :
    (t.after fs).localizer.setup = t.localizer.setup := by
  induction fs generalizing t with
  | nil => rfl
  | cons f fs ih => exact (ih _).trans (t.localizer_setup_track f)

def wide (f : Frame) : Bool := decide (4 ≤ f.length)

/-- Frames with too few channels might as well not have been there. -/
theorem frames_wide : ∀ (fs : List Frame) (t : Tracker),
    t.frames (fs.filter wide) = t.frames fs ∧ t.after (fs.filter wide) = t.after fs
  | [], _ => ⟨rfl, rfl⟩
  | f :: fs, t => by
    by_cases hf : 4 ≤ f.length
    · rw [List.filter_cons_of_pos (by simpa [wide] using hf)]
      obtain ⟨hfs, ha⟩ := frames_wide fs (t.track f).2
      exact ⟨by rw [frames, frames, hfs], ha⟩
    · have ht := track_of_few_channels (t := t) (Nat.lt_of_not_le hf)
      obtain ⟨hfs, ha⟩ := frames_wide fs t
      rw [List.filter_cons_of_neg (by simpa [wide] using hf), hfs, ha]
      constructor
      · rw [frames, ht]; rfl
      · rw [after, after, List.foldl_cons, ht]

theorem reports_trim : ∀ (fs : List Frame) (t : Tracker), t.reports (fs.map trim) = t.reports fs
  | [], _ => rfl
  | f :: fs, t => by rw [List.map_cons, reports, track_trim, reports_trim fs, reports]

theorem reports_buffers : ∀ (fs : List Frame) (t : Tracker) (buffers : Quad (List Float32)),
    reports { t with buffers } fs = t.reports fs
  | [], _, _ => rfl
  | f :: fs, t, buffers => by
    obtain ⟨buffers', h⟩ := t.track_buffers buffers f
    rw [reports, h, reports, reports_buffers fs]

theorem reports_gate : ∀ (fs : List Frame) (t : Tracker),
    reports { t with gate := true } fs =
      (reports { t with gate := false } fs).map (Option.filter t.passes)
  | [], _ => rfl
  | f :: fs, t => by
    have hs := localizer_setup_track { t with gate := false } f
    have hg := gate_track { t with gate := false } f
    rw [reports, track_gate, reports, List.map_cons]
    generalize track { t with gate := false } f = r at hs hg ⊢
    obtain ⟨v, l, g, b⟩ := r
    dsimp only at hs hg ⊢
    subst hg
    have hp : passes ⟨l, false, b⟩ = t.passes := by
      funext v
      rw [passes, hs, passes]
    rw [reports_gate fs ⟨l, false, b⟩, hp]

/-- What is told with the gate is what passes of what is told without. -/
theorem frames_gate (fs : List Frame) (t : Tracker) :
    frames { t with gate := true } fs = (frames { t with gate := false } fs).filter t.passes := by
  rw [frames_eq, frames_eq, reports_gate, List.filterMap_map, List.filter_filterMap]
  rfl

theorem new_of_setUp {s₀ : State} {settings : StreamSettings} {x : Session}
    (h : State.SetUp s₀ settings x) {l : LocalizerThread} (hl : x.localizer = some l) :
    ∃ v, l.tracker = new v settings.gateLowConfidence := by
  obtain ⟨s, audio, localizer, capture, encoder, hp⟩ := h.prepared
  obtain rfl := hp.session
  obtain ⟨v, -, rfl⟩ := Option.map_eq_some_iff.1 hl
  exact ⟨v, rfl⟩

/-- For any tracker and frames of any shape: there is one report for each frame, in order, and a
frame of fewer than four channels has none and leaves no trace. Reports stay the same if every frame
is trimmed to the common part of its first four channels, and whatever the buffers held before; the
loudness and the confidence are those of that part of the frame alone. The gate lets pass just those
sightings that are not below the least confidence and changes no later one. What a session with a
localizer tells is what its tracker makes of the frames that it has worked on. -/
theorem tracking_laws (t : Tracker) (fs : List Frame) :
    (t.frames fs = (t.reports fs).filterMap id ∧ (t.reports fs).length = fs.length ∧
      ∀ (i : Nat) (f : Frame), fs[i]? = some f →
        (t.reports fs)[i]? = some ((t.after (fs.take i)).track f).1) ∧
    ((∀ (i : Nat) (f : Frame), fs[i]? = some f → f.length < 4 →
        (t.reports fs)[i]? = some none) ∧
      t.frames (fs.filter wide) = t.frames fs ∧ t.after (fs.filter wide) = t.after fs) ∧
    (t.reports (fs.map trim) = t.reports fs ∧
      (∀ buffers, reports { t with buffers } fs = t.reports fs) ∧
      ∀ (i : Nat) (f : Frame) (v : Sighting), fs[i]? = some f → (t.reports fs)[i]? = some (some v) →
        ∃ q, Quad.ofList? f = some q ∧ v.loudness = loudness (channels q) ∧
          v.confidence = Localizer.confidence (Localizer.peaks t.localizer.setup (channels q))) ∧
    (reports { t with gate := true } fs =
        (reports { t with gate := false } fs).map (Option.filter t.passes) ∧
      frames { t with gate := true } fs =
        (frames { t with gate := false } fs).filter t.passes) ∧
    ∀ (s₀ s : State) (settings : StreamSettings) (x y : Session) (ls : List Label)
      (l₀ : LocalizerThread), State.SessionRun s₀ settings x ls s y → x.localizer = some l₀ →
      (∃ v, l₀.tracker = new v settings.gateLowConfidence) ∧
      ∃ l worked, y.localizer = some l ∧ s₀.taken .localizer ls = worked ++ l.held ∧
        s.sightings y.number = s.heard (l₀.tracker.frames worked) := by
  have hreport (i : Nat) (f : Frame) (hf : fs[i]? = some f) :
      (t.reports fs)[i]? = some ((t.after (fs.take i)).track f).1 := by
    rw [getElem?_reports, hf, Option.map_some]
  refine ⟨⟨frames_eq fs t, length_reports fs t, hreport⟩, ⟨fun i f hf hfew => ?_, frames_wide fs t⟩,
    ⟨reports_trim fs t, reports_buffers fs t, fun i f v hf hv => ?_⟩,
    ⟨reports_gate fs t, frames_gate fs t⟩, fun s₀ s settings x y ls l₀ h hl => ?_⟩
  · rw [hreport i f hf, track_of_few_channels hfew]
  · rw [hreport i f hf, Option.some.injEq] at hv
    rw [← setup_after (fs.take i) t]
    exact of_track hv
  · refine ⟨new_of_setUp h.setUp hl, ?_⟩
    cases State.localizer_of_run h with
    | off ho => rw [hl] at ho; cases ho
    | on l₁ l worked ho hy _ hs hf =>
      obtain rfl := Option.some.inj (hl.symm.trans ho)
      exact ⟨l, worked, hy, hf, hs⟩

end Tracker

end MicStream
