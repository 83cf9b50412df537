import MicStream.Localization.Localizer
import MicStream.Localization.Loudness
import MicStream.Queue.Shared
import MicStream.Stream.Event
/-!
# From frames to sightings

The first four channels of a frame, cut to the shortest of them and scaled to
full scale one, are put in buffers and localized there. Frames with fewer
channels are passed over. A sighting below the least confidence may be
withheld, after the localizer has taken it into account.

Results:
* `track_of_few_channels`: frames with fewer than four channels change nothing.
-/
namespace MicStream

open MicStream.Binary

/-- The localizing side of a stream.
mirrors `localize_loop`, its variables -/
structure Tracker where
  localizer : Localizer Float32
  /-- Whether sightings of little confidence are withheld. -/
  gate : Bool
  /-- Where the channels of a frame are put; the frame before is still there until then. -/
  buffers : Quad (List Float32)
  deriving DecidableEq, Repr

namespace Tracker

def new (localizer : Localizer Float32) (gate : Bool) : Tracker :=
  ⟨localizer, gate, ⟨[], [], [], []⟩⟩

/-- Samples as parts of full scale. -/
def signal (xs : List Int16) : List Float32 := xs.map fun s => Float32.ofInt s.toInt / 32768

/-- How many samples each of four channels has. -/
def common (q : Quad (List Int16)) : Nat := q.toList.foldl (fun n c => min n c.length) q.m0.length

/-- Empties a buffer and adds the first samples of a channel to it. -/
def refill (samples : Nat) (buffer : List Float32) (channel : List Int16) : List Float32 :=
  buffer.take 0 ++ signal (channel.take samples)

def loudness (q : Quad (List Float32)) : Quad Float32 :=
  q.map fun c => narrow (Loudness.decibels (c.map widen))

def sighting (e : Estimate Float32) (q : Quad (List Float32)) : Sighting :=
  ⟨e.azimuth, e.elevation, e.confidence, loudness q⟩

/-- Whether an estimate is told. -/
def admits (t : Tracker) (e : Estimate Float32) : Bool :=
  !(t.gate && decide (e.confidence < t.localizer.setup.minConfidence))

/-- One frame: the sighting that is told, if any.
mirrors `localize_loop`, one frame -/
def track (t : Tracker) (f : Frame) : Option Sighting × Tracker :=
  match Quad.ofList? f with
  | none => (none, t)
  | some q =>
    let buffers := t.buffers.zipWith (refill (common q)) q
    let (e, localizer) := t.localizer.localize buffers (common q)
    let t := { t with localizer, buffers }
    ((e.filter t.admits).map fun e => sighting e buffers, t)

theorem track_of_few_channels {t : Tracker} {f : Frame} (h : f.length < 4) :
    t.track f = (none, t) := by
  rcases f with _ | ⟨a, _ | ⟨b, _ | ⟨c, _ | ⟨d, f⟩⟩⟩⟩
  · rfl
  · rfl
  · rfl
  · rfl
  · simp only [List.length_cons] at h
    omega

/-- The sightings told for a sequence of frames. -/
def frames : Tracker → List Frame → List Sighting
  | _, [] => []
  | t, f :: rest => (t.track f).1.toList ++ frames (t.track f).2 rest

end Tracker

end MicStream
