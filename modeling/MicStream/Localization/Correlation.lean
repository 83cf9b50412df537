import MicStream.Scalar
/-!
# Delay between two signals

The second signal is moved against the first by every lag of a range. The
score of a lag is the inner product of the samples that then face each other,
divided by the geometric mean of their energies unless that is next to
nothing. The lag with the largest score wins, of several the most negative.
-/
namespace MicStream

/-- A lag of the second signal against the first and how well the two then agree. -/
structure Peak (α : Type) where
  correlation : α
  lag : Int
  deriving DecidableEq, Repr

namespace Correlation

variable {α : Type} [Add α] [Mul α] [Div α] [LT α] [DecidableLT α]
  [OfNat α 0] [OfScientific α] [Scalar α]

/-- The pairs `a[i], b[i - lag]` of two equally long signals. -/
def overlap (a b : List α) (lag : Int) : List (α × α) :=
  if 0 ≤ lag then (a.drop lag.toNat).zip b else a.zip (b.drop (-lag).toNat)

/-- `∑ f p` over a list of pairs, added up from the left. -/
@[specialize] def total (f : α × α → α) (ps : List (α × α)) : α := ps.foldl (fun s p => s + f p) 0

/-- The score of facing samples. -/
@[specialize] def scoreOf (ps : List (α × α)) : α :=
  let product := total (fun p => p.1 * p.2) ps
  let norm := Scalar.sqrt (total (fun p => p.1 * p.1) ps * total (fun p => p.2 * p.2) ps)
  if 1e-10 < norm then product / norm else product

/-- The score of a lag.
mirrors `compute_cross_correlation`, one pass of its loop -/
@[specialize] def score (a b : List α) (lag : Int) : α := scoreOf (overlap a b lag)

/-- All lags from `-maxLag` to `maxLag`, in ascending order. -/
def lags (maxLag : Int) : List Int :=
  (List.range (2 * maxLag + 1).toNat).map fun i : Nat => (i : Int) - maxLag

/-- Keeps the better of the best so far and a new candidate; an equal one does not replace it. -/
@[specialize] def better (best : Option (Peak α)) (next : Peak α) : Option (Peak α) :=
  match best with
  | none => if Scalar.ranks next.correlation then some next else none
  | some p => if p.correlation < next.correlation then some next else some p

/-- The best lag of two equally long signals, if any lag has a rank. -/
@[specialize] def best? (a b : List α) (maxLag : Int) : Option (Peak α) :=
  (lags maxLag).foldl (fun p lag => better p ⟨score a b lag, lag⟩) none

/-- The best lag of two signals, both cut to the length of the shorter.
mirrors `compute_cross_correlation` -/
@[specialize] def peak (a b : List α) (maxLag : Int) : Peak α :=
  let length := min a.length b.length
  (best? (a.take length) (b.take length) maxLag).getD ⟨Scalar.unranked, 0⟩

/-- Whether the lags are 32-bit integers: the least of these has no opposite. -/
def lagsFit (maxLag : Int) : Bool := -maxLag ≤ maxInt32

/-- The best lag of two signals, unless the lags leave the 32-bit integers. -/
@[specialize] def peak? (a b : List α) (maxLag : Int) : Option (Peak α) :=
  if lagsFit maxLag then some (peak a b maxLag) else none

end Correlation

end MicStream
