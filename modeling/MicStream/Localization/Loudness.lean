import MicStream.Scalar
/-!
# Loudness of a channel

The root mean square of a channel in decibels of full scale. Channels that
are empty or silent report the floor.
-/
namespace MicStream.Loudness

variable {α : Type} [Add α] [Mul α] [Div α] [Neg α] [LE α] [DecidableLE α]
  [OfNat α 0] [OfScientific α] [Scalar α]

/-- What a silent channel reports.
mirrors `SILENCE_FLOOR_DB` -/
def floor : α := -120.0

/-- The root mean square of a channel; an empty one counts as silent. -/
@[specialize] def rootMeanSquare (signal : List α) : α :=
  if signal.isEmpty then 0
  else Scalar.sqrt (signal.foldl (fun s v => s + v * v) 0 / Scalar.ofInt signal.length)

/-- Decibels of full scale, or the floor for a root mean square of next to nothing.
mirrors `calc_4ch_separate_db`, of one channel -/
@[specialize] def decibels (signal : List α) : α :=
  let rms := rootMeanSquare signal
  if rms ≤ 1e-12 then floor else 20.0 * Scalar.log10 rms

end MicStream.Loudness
