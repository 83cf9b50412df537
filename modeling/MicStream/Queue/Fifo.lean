/-!
# Bounded first-in first-out queues

A queue holds at most `capacity` entries. Adding to a full one fails, and so
does taking from an empty one; neither waits.

Results:
* `toList_take`: what taking does to the entries.
* `Bounded`: the entries never exceed the capacity (`bounded_offer`,
  `bounded_take`).
-/
namespace MicStream

/-- A queue with its entries, oldest first. -/
structure Fifo (α : Type) where
  capacity : Nat
  toList : List α
  deriving DecidableEq, Repr

namespace Fifo

variable {α : Type}

/-- An empty queue. A capacity of zero acts as one.
mirrors `FrameQueue.bounded` -/
def bounded (capacity : Nat) : Fifo α := ⟨max capacity 1, []⟩

def size (q : Fifo α) : Nat := q.toList.length

def isFull (q : Fifo α) : Bool := q.capacity ≤ q.size

/-- The queue with a new entry, unless it is full. -/
def offer? (q : Fifo α) (a : α) : Option (Fifo α) :=
  if q.isFull then none else some { q with toList := q.toList ++ [a] }

/-- The oldest entry and the queue without it, unless it is empty. -/
def take? (q : Fifo α) : Option (α × Fifo α) :=
  match q.toList with
  | [] => none
  | a :: rest => some (a, { q with toList := rest })

/-- A queue within its capacity, which is positive. -/
def Bounded (q : Fifo α) : Prop := 0 < q.capacity ∧ q.size ≤ q.capacity

theorem bounded_bounded (n : Nat) : (bounded n : Fifo α).Bounded := by
  simp only [Bounded, bounded, size, List.length_nil]; omega

theorem offer?_eq_some_iff {q q' : Fifo α} {a : α} :
    q.offer? a = some q' ↔ q.isFull = false ∧ q' = ⟨q.capacity, q.toList ++ [a]⟩ := by
  unfold offer?
  cases q.isFull <;> simp [eq_comm]

theorem take?_eq_some_iff {q q' : Fifo α} {a : α} :
    q.take? = some (a, q') ↔ q.toList = a :: q'.toList ∧ q'.capacity = q.capacity := by
  rcases q with ⟨c, _ | ⟨b, l⟩⟩ <;> rcases q' with ⟨c', l'⟩ <;>
    simp [take?, eq_comm, and_comm, and_left_comm]

theorem toList_take {q q' : Fifo α} {a : α} (h : q.take? = some (a, q')) :
    q.toList = a :: q'.toList := (take?_eq_some_iff.1 h).1

theorem take?_eq_none_iff {q : Fifo α} : q.take? = none ↔ q.toList = [] := by
  rcases q with ⟨c, _ | ⟨b, l⟩⟩ <;> simp [take?]

theorem bounded_offer {q q' : Fifo α} {a : α} (hq : q.Bounded) (h : q.offer? a = some q') :
    q'.Bounded := by
  obtain ⟨hf, rfl⟩ := offer?_eq_some_iff.1 h
  have hf := of_decide_eq_false hf
  simp only [Bounded, size, List.length_append, List.length_cons, List.length_nil] at hf hq ⊢
  omega

theorem bounded_take {q q' : Fifo α} {a : α} (hq : q.Bounded) (h : q.take? = some (a, q')) :
    q'.Bounded := by
  obtain ⟨hl, hc⟩ := take?_eq_some_iff.1 h
  simp only [Bounded, size, hl, List.length_cons] at hq
  simp only [Bounded, size, hc]
  omega

end Fifo

end MicStream
