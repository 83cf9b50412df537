import MicStream.Localization.Localizer
import MicStream.Proofs.Localization.Exact
/-!
# Directions over successive frames

A frame by itself speaks for a direction or for none (`heard?`); what a
localizer reports is that direction smoothed with those reported before. The
smoothing state moves exactly when a direction is reported, so a frame that
speaks for none might as well not have been there.

Results:
* `localize_eq`: a call in terms of what the frame speaks for.
* `Steady.after`, `Steady.findings`: over the reals all directions are unit
  vectors or zero.
* `findings_append`: what was found before is behind in the state alone.
* `smoothing_laws`: what smoothing does to any sequence of frames.
-/
namespace MicStream

/-- One call of a localizer: the channels, and the number of samples to look at. -/
structure Hearing (α : Type) where
  channels : Quad (List α)
  samples : Nat

namespace Localizer

section Any
variable {α : Type} [Add α] [Sub α] [Mul α] [Div α] [Neg α] [LT α] [DecidableLT α]
  [OfNat α 0] [OfNat α 1] [OfScientific α] [Scalar α]

/-- The direction that a frame speaks for, and how sure of it the correlations are. -/
def heard? (s : ArraySetup α) (f : Hearing α) : Option (Vec3 α × α) :=
  let length := usable f.channels f.samples
  if length = 0 then none
  else
    let found := peaks s (f.channels.map (List.take length))
    (solve s ⟨delayOf s found.r1, delayOf s found.r2, delayOf s found.r3⟩).map fun v =>
      (v.normalize, confidence found)

def finding (l : Localizer α) (f : Hearing α) : Option (Vec3 α × α) :=
  (heard? l.setup f).map fun p => ((smooth l.setup l.heading p.1).1, p.2)

def next (l : Localizer α) (f : Hearing α) : Localizer α :=
  match heard? l.setup f with
  | none => l
  | some p => { l with heading := (smooth l.setup l.heading p.1).2 }

theorem localize_eq (l : Localizer α) (f : Hearing α) :
    l.localize f.channels f.samples =
      ((l.finding f).map fun p => estimate p.1 p.2, l.next f) := by
  unfold localize finding next heard?
  by_cases hlength : usable f.channels f.samples = 0
  · simp [hlength]
  · simp only [hlength, if_false, direction?]
    cases solve l.setup _ with
    | none => rfl
    | some v => rfl

def estimates : Localizer α → List (Hearing α) → List (Option (Estimate α))
  | _, [] => []
  | l, f :: fs =>
    (l.localize f.channels f.samples).1 :: estimates (l.localize f.channels f.samples).2 fs

def after (l : Localizer α) (fs : List (Hearing α)) : Localizer α :=
  fs.foldl (fun l f => (l.localize f.channels f.samples).2) l

def findings : Localizer α → List (Hearing α) → List (Option (Vec3 α × α))
  | _, [] => []
  | l, f :: fs => l.finding f :: findings (l.next f) fs

variable {l : Localizer α} {f : Hearing α}

@[simp] theorem setup_next (l : Localizer α) (f : Hearing α) : (l.next f).setup = l.setup := by
  unfold next; split <;> rfl

theorem after_cons (l : Localizer α) (f : Hearing α) (fs : List (Hearing α)) :
    l.after (f :: fs) = (l.next f).after fs := by
  rw [after, List.foldl_cons, localize_eq]
  rfl

theorem estimates_eq : ∀ (fs : List (Hearing α)) (l : Localizer α),
    l.estimates fs = (l.findings fs).map (Option.map fun p => estimate p.1 p.2)
  | [], _ => rfl
  | f :: fs, l => by
    rw [estimates, localize_eq, findings, List.map_cons, estimates_eq fs]

theorem length_findings : ∀ (fs : List (Hearing α)) (l : Localizer α),
    (l.findings fs).length = fs.length
  | [], _ => rfl
  | f :: fs, l => by rw [findings, List.length_cons, length_findings fs, List.length_cons]

/-- What was found before is behind in the state alone. -/
theorem findings_append : ∀ (fs gs : List (Hearing α)) (l : Localizer α),
    l.findings (fs ++ gs) = l.findings fs ++ (l.after fs).findings gs
  | [], _, _ => rfl
  | f :: fs, gs, l => by
    rw [List.cons_append, findings, findings_append fs gs, findings, after_cons, List.cons_append]

theorem next_of_none (h : (l.localize f.channels f.samples).1 = none) : l.next f = l := by
  rw [localize_eq, Option.map_eq_none_iff, finding, Option.map_eq_none_iff] at h
  unfold next
  rw [h]

/-- Without smoothing a call reports what the frame speaks for, and no state is kept. -/
theorem finding_of_plain (h : l.setup.smoothing = false) :
    l.finding f = heard? l.setup f ∧ l.next f = l := by
  have hs : ∀ v, smooth l.setup l.heading v = (v, l.heading) := by
    intro v
    simp [smooth, h]
  constructor
  · simp [finding, hs]
  · unfold next
    split
    · rfl
    · simp [hs]

/-- Without smoothing the frames are looked at one by one. -/
theorem findings_of_plain (h : l.setup.smoothing = false) : ∀ fs : List (Hearing α),
    l.findings fs = fs.map (heard? l.setup)
  | [] => rfl
  | f :: fs => by
    rw [findings, (finding_of_plain h).1, (finding_of_plain h).2, findings_of_plain h fs,
      List.map_cons]

def plain (l : Localizer α) : Localizer α := { l with setup := { l.setup with smoothing := false } }

end Any

/-! ## Exact arithmetic -/

section Exact
variable {l : Localizer ℝ} {f : Hearing ℝ}

/-- The smoothed direction, which points along the first axis until one was found. -/
def smoothed (l : Localizer ℝ) : Vec3 ℝ := l.heading.getD ⟨1, 0, 0⟩

/-- A direction that was found before is a unit vector or zero. -/
def Steady (l : Localizer ℝ) : Prop := ∀ v, l.heading = some v → v.IsHeading

theorem isHeading_heard {v : Vec3 ℝ} {c : ℝ} (h : heard? l.setup f = some (v, c)) :
    v.IsHeading := by
  unfold heard? at h
  dsimp only at h
  split at h
  · cases h
  · obtain ⟨w, -, hw⟩ := Option.map_eq_some_iff.1 h
    cases hw
    exact Vec3.isHeading_normalize w

theorem Steady.smooth (h : l.Steady) {v : Vec3 ℝ} (hv : v.IsHeading) :
    (smooth l.setup l.heading v).1.IsHeading ∧
      ∀ w, (Localizer.smooth l.setup l.heading v).2 = some w → w.IsHeading := by
  unfold Localizer.smooth
  split
  · cases hh : l.heading with
    | none =>
      refine ⟨hv, fun w hw => ?_⟩
      cases hw; exact hv
    | some old =>
      refine ⟨Vec3.isHeading_normalize _, fun w hw => ?_⟩
      cases hw; exact Vec3.isHeading_normalize _
  · exact ⟨hv, h⟩

theorem Steady.next (h : l.Steady) : (l.next f).Steady := by
  unfold Localizer.next
  cases hf : heard? l.setup f with
  | none => exact h
  | some p => exact (h.smooth (isHeading_heard hf)).2

theorem Steady.after : ∀ {fs : List (Hearing ℝ)} {l : Localizer ℝ}, l.Steady → (l.after fs).Steady
  | [], _, h => h
  | f :: fs, l, h => by
    rw [after_cons]
    exact h.next.after

theorem Steady.finding (h : l.Steady) {p : Vec3 ℝ × ℝ} (hp : l.finding f = some p) :
    p.1.IsHeading := by
  obtain ⟨q, hq, rfl⟩ := Option.map_eq_some_iff.1 hp
  exact (h.smooth (isHeading_heard hq)).1

theorem Steady.findings : ∀ {fs : List (Hearing ℝ)} {l : Localizer ℝ}, l.Steady →
    ∀ p, some p ∈ l.findings fs → p.1.IsHeading
  | [], _, _, _, hp => nomatch hp
  | f :: fs, l, h, p, hp => by
    rcases List.mem_cons.1 hp with hp | hp
    · exact h.finding hp.symm
    · exact h.next.findings p hp

/-- With all weight on the newest direction nothing is smoothed. -/
theorem findings_of_one (ha : l.setup.alpha = 1) : ∀ (fs : List (Hearing ℝ)),
    l.findings fs = fs.map (heard? l.setup) := by
  intro fs
  induction fs generalizing l with
  | nil => rfl
  | cons f fs ih =>
    have hsmooth : ∀ v : Vec3 ℝ, v.IsHeading → (smooth l.setup l.heading v).1 = v := by
      intro v hv
      unfold smooth
      split
      · cases l.heading with
        | none => rfl
        | some old =>
          dsimp only
          rw [ha, Vec3.blend_one, Vec3.normalize_of_isHeading hv]
      · rfl
    have hfind : l.finding f = heard? l.setup f := by
      unfold finding
      cases hf : heard? l.setup f with
      | none => rfl
      | some p => rw [Option.map_some, hsmooth p.1 (isHeading_heard hf)]
    rw [findings, hfind, ih (l := l.next f) (by rw [setup_next]; exact ha), setup_next,
      List.map_cons]

/-- With all weight on the old direction it stays for good. -/
theorem findings_of_zero (hs : l.setup.smoothing = true) (ha : l.setup.alpha = 0) {v : Vec3 ℝ}
    (hv : v.IsHeading) (hl : l.heading = some v) : ∀ (fs : List (Hearing ℝ)) (p : Vec3 ℝ × ℝ),
      some p ∈ l.findings fs → p.1 = v := by
  have hsmooth : ∀ w, smooth l.setup l.heading w = (v, some v) := by
    intro w
    simp only [smooth, hs, if_true, hl]
    rw [ha, Vec3.blend_zero, Vec3.normalize_of_isHeading hv]
  have hnext : ∀ f, l.next f = l := by
    intro f
    unfold next
    split
    · rfl
    · rw [hsmooth, ← hl]
  intro fs
  induction fs with
  | nil => intro p hp; cases hp
  | cons f fs ih =>
    intro p hp
    rw [findings, hnext] at hp
    rcases List.mem_cons.1 hp with hp | hp
    · obtain ⟨q, -, rfl⟩ := Option.map_eq_some_iff.1 hp.symm
      rw [hsmooth]
    · exact ih p hp

/-- So the direction that is found first is found ever after. -/
theorem findings_of_zero_fresh (hs : l.setup.smoothing = true) (ha : l.setup.alpha = 0)
    (hl : l.heading = none) : ∀ {fs : List (Hearing ℝ)} {first : Vec3 ℝ × ℝ}
      {later : List (Vec3 ℝ × ℝ)}, (l.findings fs).filterMap id = first :: later →
        ∀ p ∈ later, p.1 = first.1 := by
  intro fs
  induction fs with
  | nil => intro first later h; cases h
  | cons f fs ih =>
    intro first later h
    cases hf : heard? l.setup f with
    | none =>
      have hfind : l.finding f = none := by rw [finding, hf, Option.map_none]
      have hnext : l.next f = l := by unfold next; rw [hf]
      rw [findings, hfind, hnext, List.filterMap_cons_none rfl] at h
      exact ih h
    | some q =>
      have hfind : l.finding f = some q := by simp [finding, hf, smooth, hs, hl]
      have hnext : (l.next f).heading = some q.1 := by simp [next, hf, smooth, hs, hl]
      replace h : q :: ((l.next f).findings fs).filterMap id = first :: later := by
        rw [findings, hfind] at h
        exact h
      obtain ⟨rfl, rfl⟩ := List.cons.inj h
      intro p hp
      obtain ⟨o, ho, rfl⟩ := List.mem_filterMap.1 hp
      exact findings_of_zero (by rw [setup_next]; exact hs) (by rw [setup_next]; exact ha)
        (isHeading_heard hf) hnext fs p ho

/-- A localizer that has heard nothing is given any frames, in exact arithmetic. Each report gives
the angles of a direction found, which is a unit vector or zero, as is the smoothed direction. A
frame without a report leaves no trace. Without smoothing each report is that of its frame alone;
smoothing with all weight on the newest direction comes to the same, and with none on it every
report has the direction of the first. -/
theorem smoothing_laws {l : Localizer ℝ} (hl : l.heading = none) (fs : List (Hearing ℝ)) :
    l.estimates fs = (l.findings fs).map (Option.map fun p => estimate p.1 p.2) ∧
    ((l.after fs).smoothed.IsHeading ∧ ∀ p, some p ∈ l.findings fs → p.1.IsHeading) ∧
    (∀ f, ((l.after fs).localize f.channels f.samples).1 = none →
      ((l.after fs).localize f.channels f.samples).2 = l.after fs ∧
      ∀ later, l.estimates (fs ++ later) =
        (l.estimates (fs ++ f :: later)).eraseIdx fs.length) ∧
    (l.setup.smoothing = false →
      l.estimates fs = fs.map fun f => (l.localize f.channels f.samples).1) ∧
    (l.setup.smoothing = true → l.setup.alpha = 1 → l.estimates fs = l.plain.estimates fs) ∧
    (l.setup.smoothing = true → l.setup.alpha = 0 → ∀ first later,
      (l.findings fs).filterMap id = first :: later → ∀ p ∈ later, p.1 = first.1) := by
  have hsteady : l.Steady := fun v hv => by rw [hl] at hv; cases hv
  refine ⟨estimates_eq fs l, ⟨?_, hsteady.findings⟩, ?_, ?_, ?_, ?_⟩
  · unfold smoothed
    cases hh : (l.after fs).heading with
    | none =>
      right
      simp [Vec3.magnitude_eq]
    | some v => exact hsteady.after v hh
  · intro f hf
    have hnext := next_of_none hf
    refine ⟨?_, fun later => ?_⟩
    · rw [localize_eq]; exact hnext
    · have hlen : ((l.findings fs).map (Option.map fun p => estimate p.1 p.2)).length =
          fs.length := by
        rw [List.length_map, length_findings]
      simp only [estimates_eq, findings_append, findings, hnext, List.map_append, List.map_cons]
      rw [← hlen, List.eraseIdx_append_of_length_le (Nat.le_refl _), Nat.sub_self,
        List.eraseIdx_cons_zero]
  · intro hs
    rw [estimates_eq, findings_of_plain hs, List.map_map]
    apply List.map_congr_left
    intro f _
    rw [localize_eq, (finding_of_plain hs).1]
    rfl
  · intro _ ha
    rw [estimates_eq, estimates_eq, findings_of_one ha, findings_of_plain rfl]
    rfl
  · intro hs ha first later h
    exact findings_of_zero_fresh hs ha hl h

/-! A square array, to which sound comes from straight ahead and then from nowhere. -/

/-- Microphones on the corners of a square of two metres, with one sample in the time that sound
takes along an edge. Smoothing keeps the old direction. -/
noncomputable def sampleSetup : ArraySetup ℝ :=
  { ArraySetup.withLayout "square" ⟨⟨-1, 1, 0⟩, ⟨-1, -1, 0⟩, ⟨1, -1, 0⟩, ⟨1, 1, 0⟩⟩ with
    sampleRate := 1
    maxLag := 1
    soundSpeed := 2
    alpha := 0 }

/-- A frame of one sample, which two of the channels hear upside down. -/
def sampleOpposed : Hearing ℝ := ⟨⟨[1], [-1], [-1], [1]⟩, 1⟩

/-- A frame of one sample, which all channels hear alike. -/
def sampleAgreeing : Hearing ℝ := ⟨⟨[1], [1], [1], [1]⟩, 1⟩

theorem peak_sample {b : ℝ} (hb : b = 1 ∨ b = -1) :
    Correlation.peak [1] [b] 1 = if b = 1 then ⟨1, 0⟩ else ⟨0, -1⟩ := by
  have hfacing : Correlation.score [1] [b] 0 = b := by
    rcases hb with rfl | rfl <;>
      norm_num [Correlation.score, Correlation.scoreOf, Correlation.overlap, Correlation.total,
        Scalar.sqrt]
  have hapart : ∀ lag : Int, lag = 1 ∨ lag = -1 → Correlation.score [1] [b] lag = 0 := by
    rintro lag (rfl | rfl) <;>
      norm_num [Correlation.score, Correlation.scoreOf, Correlation.overlap, Correlation.total,
        Scalar.sqrt]
  have hlags : Correlation.lags 1 = [-1, 0, 1] := by decide
  simp only [Correlation.peak, Correlation.best?, hlags]
  rcases hb with rfl | rfl <;>
    norm_num [hfacing, hapart, Correlation.better, Scalar.ranks]

theorem isPlanar_sample : sampleSetup.isPlanar = true := by
  norm_num [ArraySetup.isPlanar, Layout.isPlanar, sampleSetup, ArraySetup.withLayout,
    Layout.tripleProduct, Vec3.dot, Vec3.cross, HSub.hSub, Sub.sub, Scalar.abs]

theorem solve_sample (a : ℝ) : solve sampleSetup ⟨a, a, 0⟩ = some ⟨0, -a, 0⟩ := by
  simp only [solve, isPlanar_sample, if_true]
  norm_num [Solver.planar, Solver.constraints, Solver.sum, sampleSetup, ArraySetup.withLayout,
    HSub.hSub, Sub.sub, Scalar.abs]
  constructor <;> ring

theorem delayOf_sample (c : ℝ) (lag : Int) : delayOf sampleSetup ⟨c, lag⟩ = -lag := by
  simp [delayOf, sampleSetup, Scalar.ofInt]

theorem heard_sample (f : Hearing ℝ) (lag : Int) (c : Triple ℝ)
    (hu : usable f.channels f.samples = 1)
    (hp : peaks sampleSetup (f.channels.map (List.take 1)) =
      ⟨⟨c.r1, lag⟩, ⟨c.r2, lag⟩, ⟨c.r3, 0⟩⟩)
    (hv : Vec3.IsHeading (⟨0, lag, 0⟩ : Vec3 ℝ)) :
    ∃ c, heard? sampleSetup f = some (⟨0, lag, 0⟩, c) := by
  have hsolve := solve_sample (-lag)
  rw [neg_neg] at hsolve
  refine ⟨confidence ⟨⟨c.r1, lag⟩, ⟨c.r2, lag⟩, ⟨c.r3, 0⟩⟩, ?_⟩
  simp only [heard?, hu, hp, delayOf_sample, Int.cast_zero, neg_zero, one_ne_zero, if_false, hsolve,
    Option.map_some, Vec3.normalize_of_isHeading hv]

theorem heard_opposed : ∃ c, heard? sampleSetup sampleOpposed = some (⟨0, -1, 0⟩, c) := by
  have hp : peaks sampleSetup (sampleOpposed.channels.map (List.take 1)) =
      ⟨⟨0, -1⟩, ⟨0, -1⟩, ⟨1, 0⟩⟩ := by
    have hsame := peak_sample (.inl rfl)
    have hother := peak_sample (.inr rfl)
    norm_num at hsame hother
    simp only [peaks, sampleOpposed, Quad.map, List.take, sampleSetup, hsame, hother]
  have h := heard_sample sampleOpposed (-1) ⟨0, 0, 1⟩ rfl hp (.inr (by simp [Vec3.magnitude_eq]))
  simpa using h

theorem heard_agreeing : ∃ c, heard? sampleSetup sampleAgreeing = some (Vec3.zero, c) := by
  have hp : peaks sampleSetup (sampleAgreeing.channels.map (List.take 1)) =
      ⟨⟨1, 0⟩, ⟨1, 0⟩, ⟨1, 0⟩⟩ := by
    have hsame := peak_sample (.inl rfl)
    norm_num at hsame
    simp only [peaks, sampleAgreeing, Quad.map, List.take, sampleSetup, hsame]
  have h := heard_sample sampleAgreeing 0 ⟨1, 1, 1⟩ rfl hp (.inl (by simp [Vec3.zero]))
  simpa [Vec3.zero] using h

/-- The second frame by itself speaks for no direction, but that of the first is reported. -/
theorem smoothing_laws_sample : ∃ (l : Localizer ℝ) (c₁ c₂ : ℝ), l.heading = none ∧
    heard? l.setup sampleAgreeing = some (Vec3.zero, c₂) ∧
    l.findings [sampleOpposed, sampleAgreeing] =
      [some (⟨0, -1, 0⟩, c₁), some (⟨0, -1, 0⟩, c₂)] := by
  obtain ⟨c₁, hopposed⟩ := heard_opposed
  obtain ⟨c₂, hagreeing⟩ := heard_agreeing
  let l : Localizer ℝ := ⟨sampleSetup, 1, none⟩
  have hfirst : l.finding sampleOpposed = some (⟨0, -1, 0⟩, c₁) := by
    have hsmoothing : sampleSetup.smoothing = true := rfl
    simp only [finding, l, hopposed, Option.map_some, smooth, hsmoothing, if_true]
  obtain ⟨v, hsecond⟩ : ∃ v, (l.next sampleOpposed).finding sampleAgreeing = some (v, c₂) := by
    unfold finding
    rw [setup_next, hagreeing]
    exact ⟨_, rfl⟩
  have hfindings : l.findings [sampleOpposed, sampleAgreeing] =
      [some (⟨0, -1, 0⟩, c₁), some (v, c₂)] := by
    simp only [findings, hfirst, hsecond]
  obtain ⟨-, -, -, -, -, hold⟩ :=
    smoothing_laws (l := l) rfl [sampleOpposed, sampleAgreeing]
  have hv := hold rfl rfl (⟨0, -1, 0⟩, c₁) [(v, c₂)] (by rw [hfindings]; rfl) (v, c₂) (by simp)
  exact ⟨l, c₁, c₂, rfl, hagreeing, by rw [hfindings, show v = _ from hv]⟩

end Exact

end Localizer

end MicStream
