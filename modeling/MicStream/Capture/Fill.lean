import MicStream.Buffer
/-!
# Filling a period

A device may deliver a period in several short reads, and a read may fail
because the device overran. A failed read is handed to recovery, at most
eight times in one period; then reading goes on where it stopped.
-/
namespace MicStream

/-- What one read comes to: samples written to the start of the unfilled part and the number of
whole frames reported, or an error and what becomes of its recovery. -/
inductive ReadOutcome where
  | delivered (samples : List Int16) (frames : Nat)
  | failed (error : String) (recovery : Except String Unit)

/-- Why a period was given up. -/
inductive FillError where
  | noFrames
  | tooManyRecoveries (recoveries : Nat) (error : String)
  | notRecovered (cause : String)
  deriving DecidableEq, Repr

def FillError.message : FillError → String
  | .noFrames => "capture returned no frames"
  | .tooManyRecoveries recoveries error =>
    s!"pcm read error after {recoveries} recoveries: {error}"
  | .notRecovered cause => cause

/-- Overruns tolerated within one period.
mirrors `MAX_RECOVERIES_PER_PERIOD` -/
def maxRecoveries : Nat := 8

/-- A period while it is being filled. -/
structure FillState where
  buffer : List Int16
  /-- Samples reported so far. -/
  filled : Nat
  /-- Errors handed to recovery, last first. -/
  handed : List String
  /-- Length of the part offered to each read, last first. -/
  offered : List Nat
  deriving DecidableEq, Repr

namespace FillState

def room (st : FillState) : Nat := st.buffer.length - st.filled

def deliver (st : FillState) (samples : List Int16) (count : Nat) : FillState :=
  { st with
    buffer := st.buffer.take st.filled ++ overwrite samples (st.buffer.drop st.filled)
    filled := st.filled + count }

end FillState

/-- Reads until the period is full. Answers the state at the end and the number of recoveries, or
why the period was given up; a device with no further outcome delivers no frames.
mirrors `fill_period` -/
def fillPeriod (channels : Nat) (st : FillState) : List ReadOutcome → FillState × Except FillError Nat
  | [] =>
    if st.room = 0 then (st, .ok st.handed.length)
    else ({ st with offered := st.room :: st.offered }, .error .noFrames)
  | r :: rest =>
    if st.room = 0 then (st, .ok st.handed.length)
    else
      let st := { st with offered := st.room :: st.offered }
      match r with
      | .delivered samples 0 => (st.deliver samples 0, .error .noFrames)
      | .delivered samples (k + 1) =>
        fillPeriod channels (st.deliver samples ((k + 1) * channels)) rest
      | .failed error recovery =>
        if maxRecoveries ≤ st.handed.length then
          (st, .error (.tooManyRecoveries st.handed.length error))
        else
          let st' := { st with handed := error :: st.handed }
          match recovery with
          | .error cause => (st', .error (.notRecovered cause))
          | .ok () => fillPeriod channels st' rest

end MicStream
