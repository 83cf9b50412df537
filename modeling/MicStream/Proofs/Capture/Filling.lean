import Mathlib.Data.List.Basic
import MicStream.Capture.Fill
/-!
# A period read in pieces

A device may bring a period in any number of short reads, with errors between
them. Filling goes on after a read that brought frames and after an error that
was recovered from. It ends when the period is full, at a read without frames,
at an error that is not recovered from, and at the ninth error, of which
recovery is not told. Where it is by then follows from the reads that went on
alone (`Reached`), because each of them is offered what those before it left.

Results:
* `Reached.deliver`, `Reached.recover`: what one read adds.
* `Reached.ends`: a run from any reads that went on.
* `Ends.short`: an error comes before the period can be full.
* `fillPeriod_append`: what a device would answer later has no part in it.
* `period_of_reads`: when a period is filled, with what, and where it stops
  otherwise.
-/
namespace MicStream

namespace ReadOutcome

def samples : ReadOutcome → List Int16
  | .delivered samples _ => samples
  | .failed _ _ => []

def error? : ReadOutcome → Option String
  | .delivered _ _ => none
  | .failed error _ => some error

/-- The outcomes after which filling goes on. -/
inductive GoesOn : ReadOutcome → Prop where
  | frames (samples : List Int16) (count : Nat) : GoesOn (.delivered samples (count + 1))
  | recovered (error : String) : GoesOn (.failed error (.ok ()))

/-- The read wrote the frames that it reports and no more than there was room for. A failed read
writes nothing. -/
def Honest (channels room : Nat) : ReadOutcome → Prop
  | .delivered samples frames => samples.length = frames * channels ∧ samples.length ≤ room
  | .failed _ _ => True

end ReadOutcome

namespace FillState

def start (buffer : List Int16) : FillState := ⟨buffer, 0, [], []⟩

def samples (reads : List ReadOutcome) : List Int16 := reads.flatMap ReadOutcome.samples

def errors (reads : List ReadOutcome) : List String := reads.filterMap ReadOutcome.error?

/-- The part of a buffer that some reads left unfilled. -/
def rest (buffer : List Int16) (reads : List ReadOutcome) : List Int16 :=
  buffer.drop (samples reads).length

section Lists
variable {reads more : List ReadOutcome} {r : ReadOutcome} {buffer : List Int16}

@[simp] theorem samples_append : samples (reads ++ more) = samples reads ++ samples more :=
  List.flatMap_append

@[simp] theorem samples_singleton : samples [r] = r.samples := by simp [samples]

@[simp] theorem errors_append : errors (reads ++ more) = errors reads ++ errors more :=
  List.filterMap_append

@[simp] theorem errors_singleton : errors [r] = r.error?.toList := by
  cases h : r.error? <;> simp [errors, h]

@[simp] theorem length_rest :
    (rest buffer reads).length = buffer.length - (samples reads).length := by
  simp [rest]

theorem goesOn_concat (h : ∀ q ∈ reads, q.GoesOn) (hr : r.GoesOn) :
    ∀ q ∈ reads ++ [r], q.GoesOn := by
  intro q hq
  rcases List.mem_append.1 hq with hq | hq
  · exact h q hq
  · rw [List.mem_singleton.1 hq]
    exact hr

end Lists

/-- One more read is made after these: they all went on, and there is room left. -/
structure Asked (length : Nat) (reads : List ReadOutcome) : Prop where
  goesOn : ∀ r ∈ reads, r.GoesOn
  few : (errors reads).length ≤ maxRecoveries
  room : (samples reads).length < length

/-- Every read that is made is honest. -/
def Faithful (channels length : Nat) (reads : List ReadOutcome) : Prop :=
  ∀ before r later, reads = before ++ r :: later → Asked length before →
    r.Honest channels (length - (samples before).length)

/-- A period of which some reads were made that all went on. -/
structure Went (channels : Nat) (buffer : List Int16) (reads : List ReadOutcome)
    (st : FillState) : Prop where
  goesOn : ∀ r ∈ reads, r.GoesOn
  few : (errors reads).length ≤ maxRecoveries
  fits : (samples reads).length ≤ buffer.length
  /-- Each read that brought samples brought at least one frame. -/
  frames : reads.length * channels ≤ (samples reads).length + (errors reads).length * channels
  contents : st.buffer = samples reads ++ rest buffer reads
  filled : st.filled = (samples reads).length

/-- A period of which these reads were made and no other. -/
structure Reached (channels : Nat) (buffer : List Int16) (reads : List ReadOutcome)
    (st : FillState) : Prop extends Went channels buffer reads st where
  handed : st.handed.reverse = errors reads
  offered : st.offered.reverse =
    (List.range reads.length).map fun i => (rest buffer (reads.take i)).length

/-- How filling ends after reads that all went on, by the outcomes that are still to come: what
recovery was told, how many reads were made, and the result. -/
inductive Ends (length : Nat) (reads : List ReadOutcome) :
    List ReadOutcome → List String → Nat → Except FillError Nat → Prop where
  | full {later} (h : (samples reads).length = length) :
    Ends length reads later (errors reads) reads.length (.ok (errors reads).length)
  | noFrames {later} (h : (samples reads).length < length)
    (hnext : ∀ r ∈ later.head?, ∃ written, r = .delivered written 0) :
    Ends length reads later (errors reads) (reads.length + 1) (.error .noFrames)
  | ninth {error recovery later} (h : (samples reads).length < length)
    (hmany : (errors reads).length = maxRecoveries) :
    Ends length reads (.failed error recovery :: later) (errors reads) (reads.length + 1)
      (.error (.tooManyRecoveries maxRecoveries error))
  | notRecovered {error cause later} (h : (samples reads).length < length)
    (hfew : (errors reads).length < maxRecoveries) :
    Ends length reads (.failed error (.error cause) :: later) (errors reads ++ [error])
      (reads.length + 1) (.error (.notRecovered cause))

/-- A period that filling has ended of after these reads, and what came behind them. -/
structure Ended (channels : Nat) (buffer : List Int16) (reads later : List ReadOutcome)
    (st : FillState) (result : Except FillError Nat) : Prop
    extends Went channels buffer reads st where
  ends : Ends buffer.length reads later st.handed.reverse st.offered.length result
  offered : st.offered.reverse =
    (List.range st.offered.length).map fun i => (rest buffer ((reads ++ later).take i)).length

section Run
variable {channels : Nat} {buffer : List Int16} {reads later : List ReadOutcome} {st : FillState}

theorem went_start (channels : Nat) (buffer : List Int16) :
    Went channels buffer [] (start buffer) where
  goesOn := by simp
  few := Nat.zero_le _
  fits := Nat.zero_le _
  frames := by simp
  contents := rfl
  filled := rfl

theorem reached_start (channels : Nat) (buffer : List Int16) :
    Reached channels buffer [] (start buffer) :=
  ⟨went_start channels buffer, rfl, rfl⟩

namespace Reached

theorem room (h : Reached channels buffer reads st) :
    st.room = buffer.length - (samples reads).length := by
  have hfits := h.fits
  simp only [FillState.room, h.contents, h.filled, List.length_append, length_rest]
  omega

theorem length_handed (h : Reached channels buffer reads st) :
    st.handed.length = (errors reads).length := by
  rw [← h.handed, List.length_reverse]

theorem length_offered (h : Reached channels buffer reads st) :
    st.offered.length = reads.length := by
  rw [← List.length_reverse, h.offered, List.length_map, List.length_range]

theorem asked (h : Reached channels buffer reads st) (hroom : st.room ≠ 0) :
    Asked buffer.length reads := by
  have := h.room
  exact ⟨h.goesOn, h.few, by omega⟩

/-- What was offered does not hang on the reads that come later. -/
theorem earlier (h : Reached channels buffer reads st) (later : List ReadOutcome) :
    st.offered.reverse =
      (List.range reads.length).map fun i => (rest buffer ((reads ++ later).take i)).length := by
  rw [h.offered]
  apply List.map_congr_left
  intro i hi
  rw [List.take_append_of_le_length (Nat.le_of_lt (List.mem_range.1 hi))]

theorem offer (h : Reached channels buffer reads st) (later : List ReadOutcome) :
    (st.room :: st.offered).reverse =
      (List.range (reads.length + 1)).map fun i =>
        (rest buffer ((reads ++ later).take i)).length := by
  rw [List.reverse_cons, h.earlier later, List.range_succ, List.map_append, List.map_singleton,
    List.take_left, length_rest, h.room]

theorem deliver (h : Reached channels buffer reads st) {written : List Int16} {count : Nat}
    (hhonest : (ReadOutcome.delivered written (count + 1)).Honest channels st.room) :
    Reached channels buffer (reads ++ [.delivered written (count + 1)])
      (FillState.deliver { st with offered := st.room :: st.offered } written
        ((count + 1) * channels)) := by
  obtain ⟨hlength, hroom⟩ := hhonest
  have hleft := h.room
  have hfits := h.fits
  have hall : samples (reads ++ [.delivered written (count + 1)]) = samples reads ++ written := by
    simp [ReadOutcome.samples]
  have hnone : errors (reads ++ [.delivered written (count + 1)]) = errors reads := by
    simp [ReadOutcome.error?]
  refine ⟨⟨?_, ?_, ?_, ?_, ?_, ?_⟩, ?_, ?_⟩
  · exact goesOn_concat h.goesOn (.frames written count)
  · rw [hnone]
    exact h.few
  · rw [hall, List.length_append]
    omega
  · rw [hall, hnone, List.length_append, List.length_append, List.length_singleton, hlength,
      Nat.add_mul, Nat.add_mul]
    have := h.frames
    omega
  · have htake : st.buffer.take st.filled = samples reads := by
      rw [h.contents, h.filled, List.take_left]
    have hdrop : st.buffer.drop st.filled = rest buffer reads := by
      rw [h.contents, h.filled, List.drop_left]
    have hwritten : written.take (rest buffer reads).length = written := by
      apply List.take_of_length_le
      rw [length_rest]
      omega
    simp only [FillState.deliver, htake, hdrop, overwrite, hwritten]
    rw [hall, rest, rest, hall, List.drop_drop, List.length_append, List.append_assoc]
  · simp only [FillState.deliver, hall, List.length_append, h.filled, hlength]
  · rw [hnone]
    exact h.handed
  · rw [List.length_append]
    exact h.offer _

theorem recover (h : Reached channels buffer reads st) (error : String)
    (hfew : (errors reads).length < maxRecoveries) :
    Reached channels buffer (reads ++ [.failed error (.ok ())])
      { st with offered := st.room :: st.offered, handed := error :: st.handed } := by
  have hsame : samples (reads ++ [.failed error (.ok ())]) = samples reads := by
    simp [ReadOutcome.samples]
  have hone : errors (reads ++ [.failed error (.ok ())]) = errors reads ++ [error] := by
    simp [ReadOutcome.error?]
  refine ⟨⟨?_, ?_, ?_, ?_, ?_, ?_⟩, ?_, ?_⟩
  · exact goesOn_concat h.goesOn (.recovered error)
  · rw [hone, List.length_append]
    exact hfew
  · rw [hsame]
    exact h.fits
  · rw [hsame, hone, List.length_append, List.length_append, List.length_singleton,
      List.length_singleton, Nat.add_mul, Nat.add_mul]
    have := h.frames
    omega
  · rw [hsame, rest, hsame]
    exact h.contents
  · rw [hsame]
    exact h.filled
  · rw [hone, List.reverse_cons, h.handed]
  · rw [List.length_append]
    exact h.offer _

/-- Filling ends at a read that changes nothing but what was offered, and what recovery saw. -/
theorem stop (h : Reached channels buffer reads st) {next : FillState} {handed : List String}
    {result : Except FillError Nat} (hbuffer : next.buffer = st.buffer)
    (hfilled : next.filled = st.filled) (hoffered : next.offered = st.room :: st.offered)
    (hhanded : next.handed.reverse = handed)
    (hends : Ends buffer.length reads later handed (reads.length + 1) result) :
    Ended channels buffer reads later next result := by
  have hmade : next.offered.length = reads.length + 1 := by
    rw [hoffered, List.length_cons, h.length_offered]
  refine ⟨⟨h.goesOn, h.few, h.fits, h.frames, hbuffer.trans h.contents,
    hfilled.trans h.filled⟩, by rwa [hhanded, hmade], ?_⟩
  rw [hmade, hoffered, h.offer later]

theorem full (h : Reached channels buffer reads st) (hroom : st.room = 0) :
    Ended channels buffer reads later st (.ok st.handed.length) := by
  have hleft := h.room
  have hfits := h.fits
  refine ⟨h.toWent, ?_, ?_⟩
  · rw [h.handed, h.length_offered, h.length_handed]
    exact .full (by omega)
  · rw [h.length_offered, h.earlier later]

/-- Filling goes on from reads that all went on until it ends. -/
theorem ends : ∀ {later reads : List ReadOutcome} {st : FillState},
    Reached channels buffer reads st → Faithful channels buffer.length (reads ++ later) →
    ∃ more behind, later = more ++ behind ∧
      Ended channels buffer (reads ++ more) behind (fillPeriod channels st later).1
        (fillPeriod channels st later).2 := by
  intro later
  induction later with
  | nil =>
    intro reads st h _
    refine ⟨[], [], rfl, ?_⟩
    rw [List.append_nil, fillPeriod]
    by_cases hroom : st.room = 0
    · rw [if_pos hroom]
      exact h.full hroom
    · rw [if_neg hroom]
      exact h.stop rfl rfl rfl h.handed (.noFrames (h.asked hroom).room (by simp))
  | cons r later ih =>
    intro reads st h hfaithful
    by_cases hroom : st.room = 0
    · refine ⟨[], r :: later, rfl, ?_⟩
      rw [List.append_nil, fillPeriod, if_pos hroom]
      exact h.full hroom
    have hless := (h.asked hroom).room
    have hhonest : r.Honest channels st.room := by
      rw [h.room]
      exact hfaithful reads r later rfl (h.asked hroom)
    -- the reads that go on are those after which the induction hypothesis applies
    have hgoes : ∀ {next}, Reached channels buffer (reads ++ [r]) next →
        fillPeriod channels st (r :: later) = fillPeriod channels next later →
        ∃ more behind, r :: later = more ++ behind ∧
          Ended channels buffer (reads ++ more) behind (fillPeriod channels st (r :: later)).1
            (fillPeriod channels st (r :: later)).2 := by
      intro next hnext heq
      rw [List.append_cons] at hfaithful
      obtain ⟨more, behind, rfl, hended⟩ := ih hnext hfaithful
      refine ⟨r :: more, behind, rfl, ?_⟩
      rw [heq, List.append_cons]
      exact hended
    cases r with
    | delivered written frames =>
      cases frames with
      | zero =>
        refine ⟨[], _, rfl, ?_⟩
        rw [List.append_nil, fillPeriod, if_neg hroom]
        have hnone : written = [] := List.eq_nil_of_length_eq_zero (by simpa using hhonest.1)
        refine h.stop ?_ rfl rfl h.handed (.noFrames hless (by simp))
        simp [FillState.deliver, overwrite, hnone]
      | succ count =>
        refine hgoes (h.deliver hhonest) ?_
        rw [fillPeriod, if_neg hroom]
    | failed error recovery =>
      by_cases hmany : maxRecoveries ≤ st.handed.length
      · refine ⟨[], _, rfl, ?_⟩
        have height : st.handed.length = maxRecoveries :=
          Nat.le_antisymm (h.length_handed ▸ h.few) hmany
        rw [List.append_nil, fillPeriod, if_neg hroom]
        simp only [if_pos hmany]
        rw [height]
        exact h.stop rfl rfl rfl h.handed (.ninth hless (h.length_handed ▸ height))
      · have hfew : (errors reads).length < maxRecoveries := by
          rw [← h.length_handed]
          omega
        cases recovery with
        | error cause =>
          refine ⟨[], _, rfl, ?_⟩
          rw [List.append_nil, fillPeriod, if_neg hroom]
          simp only [if_neg hmany]
          refine h.stop rfl rfl rfl ?_ (.notRecovered hless hfew)
          rw [List.reverse_cons, h.handed]
        | ok done =>
          refine hgoes (h.recover error hfew) ?_
          rw [fillPeriod, if_neg hroom]
          simp only [if_neg hmany]

end Reached

theorem Ends.of_ok {length made count : Nat} {handed : List String}
    (h : Ends length reads later handed made (.ok count)) :
    (samples reads).length = length ∧ count = (errors reads).length ∧ handed = errors reads := by
  cases h with
  | full hlength => exact ⟨hlength, rfl, rfl⟩

/-- Reads that all go on do not fill a period that ends with an error. -/
theorem Ends.short {length made : Nat} {handed : List String} {error : FillError}
    {before behind : List ReadOutcome} (h : Ends length before behind handed made (.error error))
    (hgoes : ∀ r ∈ reads, r.GoesOn) (hfew : (errors reads).length ≤ maxRecoveries)
    (hreads : before ++ behind = reads ++ later) : (samples reads).length < length := by
  have hless : (samples before).length < length := by cases h <;> assumption
  rcases List.append_eq_append_iff.1 hreads with ⟨beyond, rfl, hbehind⟩ | ⟨beyond, rfl, -⟩
  · cases beyond with
    | nil => simpa using hless
    | cons r beyond =>
      -- the read at which filling ended is one of those that are said to go on
      have hr : r.GoesOn := hgoes r (by simp)
      subst hbehind
      cases h with
      | noFrames _ hnext =>
        obtain ⟨written, rfl⟩ := hnext r (by simp)
        cases hr
      | ninth _ hmany =>
        rw [List.append_cons, errors_append, errors_append, List.length_append,
          List.length_append, hmany] at hfew
        simp only [errors_singleton, ReadOutcome.error?, Option.toList_some,
          List.length_singleton] at hfew
        omega
      | notRecovered => cases hr
  · rw [samples_append, List.length_append] at hless
    omega

/-- One read: either filling goes on with what it left, or it has ended, whatever comes later. -/
theorem fillPeriod_cons (channels : Nat) (r : ReadOutcome) (hroom : st.room ≠ 0) :
    (∃ next : FillState, next.offered = st.room :: st.offered ∧
      ∀ later, fillPeriod channels st (r :: later) = fillPeriod channels next later) ∨
    ∀ later, fillPeriod channels st (r :: later) = fillPeriod channels st [r] := by
  cases r with
  | delivered written frames =>
    cases frames with
    | zero => exact .inr fun later => by simp only [fillPeriod, if_neg hroom]
    | succ count =>
      exact .inl ⟨_, rfl, fun later => by rw [fillPeriod, if_neg hroom]⟩
  | failed error recovery =>
    by_cases hmany : maxRecoveries ≤ st.handed.length
    · exact .inr fun later => by simp only [fillPeriod, if_neg hroom, if_pos hmany]
    · cases recovery with
      | error cause =>
        exact .inr fun later => by simp only [fillPeriod, if_neg hroom, if_neg hmany]
      | ok done =>
        refine .inl ⟨{ st with offered := st.room :: st.offered, handed := error :: st.handed },
          rfl, fun later => ?_⟩
        rw [fillPeriod, if_neg hroom]
        simp only [if_neg hmany]

/-- What a device would answer to reads that are not made has no part in a period. -/
theorem fillPeriod_append (channels : Nat) (more : List ReadOutcome) :
    ∀ {reads : List ReadOutcome} {st : FillState},
      (fillPeriod channels st reads).1.offered.length ≤ st.offered.length + reads.length →
      fillPeriod channels st (reads ++ more) = fillPeriod channels st reads := by
  intro reads
  induction reads with
  | nil =>
    intro st hmade
    have hroom : st.room = 0 := by
      by_contra hroom
      rw [fillPeriod, if_neg hroom, List.length_cons, List.length_nil] at hmade
      omega
    cases more <;> simp [fillPeriod, hroom]
  | cons r reads ih =>
    intro st hmade
    by_cases hroom : st.room = 0
    · simp [fillPeriod, hroom]
    rw [List.cons_append]
    rcases fillPeriod_cons channels r hroom with ⟨next, hnext, hgoes⟩ | hends
    · rw [hgoes, List.length_cons] at hmade
      rw [hgoes, hgoes]
      apply ih
      rw [hnext, List.length_cons]
      omega
    · rw [hends, hends reads]

/-! ## What a run comes to -/

theorem Ends.made_le {length made : Nat} {handed : List String} {result : Except FillError Nat}
    (h : Ends length reads later handed made result) : made ≤ reads.length + 1 := by
  cases h <;> omega

namespace Ended
variable {result : Except FillError Nat}

/-- Of the reads that went on, at most as many brought samples as there are frames in the buffer. -/
theorem made_le (h : Ended channels buffer reads later st result) (hchannels : 0 < channels) :
    st.offered.length ≤ buffer.length / channels + (maxRecoveries + 1) := by
  have hframes : reads.length - (errors reads).length ≤ buffer.length / channels := by
    rw [Nat.le_div_iff_mul_le hchannels, Nat.sub_mul]
    have := h.frames
    have := h.fits
    omega
  have hmade := h.ends.made_le
  have hfew := h.few
  omega

theorem still (h : Ended channels buffer reads later st result) {i : Nat} {error : String}
    {recovery : Except String Unit} (hi : (reads ++ later)[i]? = some (.failed error recovery))
    (hnext : i + 1 < st.offered.length) : st.offered.reverse[i + 1]? = st.offered.reverse[i]? := by
  have hnone : samples ((reads ++ later).take (i + 1)) = samples ((reads ++ later).take i) := by
    rw [List.take_add_one, hi, Option.toList_some, samples_append, samples_singleton,
      ReadOutcome.samples, List.append_nil]
  rw [h.offered, List.getElem?_map, List.getElem?_map, List.getElem?_range hnext,
    List.getElem?_range (Nat.lt_of_succ_lt hnext), Option.map_some, Option.map_some, rest, rest,
    hnone]

end Ended

/-- A device that writes the frames it reports, in the part it was offered, and nothing when it
fails. A period is filled exactly if the samples come to its length before a read without frames, an
error that is not recovered from and a ninth error. It then holds these samples in order, and the
result is the number of errors, each of which recovery was told of once, in order. Otherwise filling
ends at the first such read, with the samples before it at the start of the buffer and the rest as it
was; recovery is not told of a ninth error. Each read is offered the part that those before it left,
after a failed one the same part again. There are no more reads than frames in the buffer and nine,
and what the device would answer to another has no part in it. -/
theorem period_of_reads {channels : Nat} (hchannels : 0 < channels) {buffer : List Int16}
    {reads : List ReadOutcome} (hfaithful : Faithful channels buffer.length reads) :
    let st := (fillPeriod channels (start buffer) reads).1
    let result := (fillPeriod channels (start buffer) reads).2
    ((∃ r, result = .ok r) ↔ ∃ before later, reads = before ++ later ∧ (∀ r ∈ before, r.GoesOn) ∧
      (errors before).length ≤ 8 ∧ buffer.length ≤ (samples before).length) ∧
    (∃ before later, reads = before ++ later ∧ (∀ r ∈ before, r.GoesOn) ∧
      (errors before).length ≤ 8 ∧
      Ends buffer.length before later st.handed.reverse st.offered.length result ∧
      st.buffer = samples before ++ rest buffer before ∧
      ∀ r, result = .ok r →
        st.buffer = samples before ∧ r = (errors before).length ∧ st.handed.reverse = errors before) ∧
    (st.offered.reverse =
      (List.range st.offered.length).map fun i => (rest buffer (reads.take i)).length) ∧
    (∀ i error recovery, reads[i]? = some (.failed error recovery) → i + 1 < st.offered.length →
      st.offered.reverse[i + 1]? = st.offered.reverse[i]?) ∧
    st.offered.length ≤ buffer.length / channels + 9 ∧
    (st.offered.length ≤ reads.length → ∀ more,
      fillPeriod channels (start buffer) (reads ++ more) =
        fillPeriod channels (start buffer) reads) := by
  intro st result
  obtain ⟨before, later, rfl, h⟩ := (reached_start channels buffer).ends hfaithful
  change Ended channels buffer before later st result at h
  have hfull : ∀ r, result = .ok r → (samples before).length = buffer.length ∧
      r = (errors before).length ∧ st.handed.reverse = errors before := by
    intro r hr
    have hends := h.ends
    rw [hr] at hends
    exact hends.of_ok
  refine ⟨⟨?_, ?_⟩, ⟨before, later, rfl, h.goesOn, h.few, h.ends, h.contents, ?_⟩, h.offered,
    fun i error recovery hi => h.still hi, h.made_le hchannels, fun hmade more => ?_⟩
  · rintro ⟨r, hr⟩
    exact ⟨before, later, rfl, h.goesOn, h.few, Nat.le_of_eq (hfull r hr).1.symm⟩
  · rintro ⟨others, behind, hreads, hgoes, hfew, hlength⟩
    cases hresult : result with
    | ok r => exact ⟨r, rfl⟩
    | error error =>
      have hends := h.ends
      rw [hresult] at hends
      have hshort := hends.short hgoes hfew hreads
      omega
  · intro r hr
    obtain ⟨hlength, hcount, hhanded⟩ := hfull r hr
    refine ⟨?_, hcount, hhanded⟩
    rw [h.contents, rest, hlength, List.drop_length, List.append_nil]
  · apply fillPeriod_append
    rwa [start, List.length_nil, Nat.zero_add]

/-- Two channels: one frame, an overrun, two frames. -/
def overrun : List ReadOutcome :=
  [.delivered [1, 2] 1, .failed "EPIPE" (.ok ()), .delivered [3, 4, 5, 6] 2]

theorem faithful_overrun : Faithful 2 6 overrun := by
  intro before r later hreads _
  rcases before with _ | ⟨_, _ | ⟨_, _ | ⟨_, before⟩⟩⟩
  · cases hreads
    exact ⟨rfl, by decide⟩
  · cases hreads
    trivial
  · cases hreads
    exact ⟨rfl, by decide⟩
  · simp [overrun] at hreads

theorem period_of_reads_sample :
    0 < 2 ∧ Faithful 2 (List.replicate 6 0 : List Int16).length overrun ∧
    (∃ r, (fillPeriod 2 (start (List.replicate 6 0)) overrun).2 = .ok r) ∧
    (fillPeriod 2 (start (List.replicate 6 0)) overrun).1.offered.reverse = [6, 4, 4] := by
  obtain ⟨hok, -, hoffered, -⟩ :=
    @period_of_reads 2 (by decide) (List.replicate 6 0) overrun faithful_overrun
  refine ⟨by decide, faithful_overrun, hok.2 ⟨overrun, [], rfl, ?_, by decide, by decide⟩, ?_⟩
  · intro r hr
    rcases List.mem_cons.1 hr with rfl | hr
    · exact .frames _ _
    · rcases List.mem_cons.1 hr with rfl | hr
      · exact .recovered _
      · rw [List.mem_singleton.1 hr]
        exact .frames _ _
  · rw [hoffered]
    rfl

end Run

end FillState

end MicStream
