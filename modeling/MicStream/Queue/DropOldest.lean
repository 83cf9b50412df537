import MicStream.Queue.Fifo
/-!
# Pushing without waiting

A producer that must not wait makes room itself: it offers its entry, and when
the queue is full it looks again whether that is still so, takes the oldest
entry out and offers anew. Each of these is one atomic step on the queue, and
consumers may take entries between any two of them.

Results:
* `push_of_room`, `push_of_full`: a push without interference appends the
  entry, after dropping the oldest if the queue was full.
* `push_bounded`: the capacity is never exceeded.
-/
namespace MicStream

/-- Where a push stands. -/
inductive PushStage where
  | offering
  | checking
  | evicting
  deriving DecidableEq, Repr

/-- A push in progress: the entry, how many entries it dropped so far, and the next step. -/
structure Push (α : Type) where
  entry : α
  dropped : Nat
  stage : PushStage
  deriving DecidableEq, Repr

namespace Push

variable {α : Type}

def start (a : α) : Push α := ⟨a, 0, .offering⟩

/-- What is left of a push after a step: it goes on, or it is done and dropped some entries. -/
inductive Progress (α : Type) where
  | going (push : Push α)
  | done (dropped : Nat)
  deriving DecidableEq, Repr

/-- One atomic step.
mirrors one call of the channel in `FrameQueue.push` -/
def step (p : Push α) (q : Fifo α) : Progress α × Fifo α :=
  match p.stage with
  | .offering =>
    match q.offer? p.entry with
    | some q => (.done p.dropped, q)
    | none => (.going { p with stage := .checking }, q)
  | .checking => (.going { p with stage := if q.isFull then .evicting else .offering }, q)
  | .evicting =>
    match q.take? with
    | some (_, q) => (.going { p with stage := .offering, dropped := p.dropped + 1 }, q)
    | none => (.going { p with stage := .offering }, q)

/-- Steps without interference, at most as many as the fuel. -/
def run : Nat → Push α → Fifo α → Progress α × Fifo α
  | 0, p, q => (.going p, q)
  | fuel + 1, p, q =>
    match p.step q with
    | (.going p, q) => run fuel p q
    | (.done n, q) => (.done n, q)

end Push

namespace Fifo

variable {α : Type}

/-- A push without interference: the queue after it and the number of entries dropped. Four steps
are enough: offer, look again, evict, offer.
mirrors `FrameQueue.push` -/
def push (q : Fifo α) (a : α) : Fifo α × Nat :=
  match Push.run 4 (Push.start a) q with
  | (.done n, q) => (q, n)
  | (.going p, q) => (q, p.dropped)

theorem push_of_room {q : Fifo α} (a : α) (h : q.size < q.capacity) :
    q.push a = (⟨q.capacity, q.toList ++ [a]⟩, 0) := by
  have hf : q.isFull = false := by simp [isFull, h]
  simp [push, Push.run, Push.step, Push.start, offer?, hf]

theorem push_of_full {q : Fifo α} (a : α) (hc : 0 < q.capacity) (h : q.size = q.capacity) :
    q.push a = (⟨q.capacity, q.toList.drop 1 ++ [a]⟩, 1) := by
  rcases q with ⟨c, _ | ⟨b, l⟩⟩
  · have h : 0 = c := h
    exact absurd hc (by simp [← h])
  · obtain rfl : l.length + 1 = c := h
    have hr : ¬ l.length + 1 ≤ l.length := by omega
    simp [push, Push.run, Push.step, Push.start, offer?, isFull, size, take?, hr]

theorem push_bounded {q : Fifo α} (a : α) (hq : q.Bounded) : (q.push a).1.Bounded := by
  rcases Nat.lt_or_eq_of_le hq.2 with h | h
  · rw [push_of_room a h]
    simp only [Bounded, size, List.length_append, List.length_cons, List.length_nil] at hq ⊢
    simp only [size] at h
    exact ⟨hq.1, by omega⟩
  · rw [push_of_full a hq.1 h]
    simp only [Bounded, size, List.length_append, List.length_cons, List.length_nil,
      List.length_drop] at hq h ⊢
    exact ⟨hq.1, by omega⟩

end Fifo

end MicStream
