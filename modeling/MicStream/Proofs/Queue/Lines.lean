import Mathlib.Data.List.DropRight
import Mathlib.Data.List.Induction
import MicStream.Queue.Shared
/-!
# The queues as each consumer sees them

A producer pushes frames and two consumers ask for them, in any order, also
after the producer is gone. Each consumer sees the pushes, what it asks for
itself and the end of the producer, but nothing that the other one asks for.
As far as it sees there is a single list (`Line`): a push adds the frame at the
end, and costs a full list its head.

The acts are sequential here: a push runs to its end before anything else is
done.

Results:
* `Fifo.push_eq`: a push in one equation.
* `Line.Kept.step`: what one more act keeps of a list.
* `FrameQueues.Even.act`, `FrameQueues.Even.acts`: acts on the queues are, for each consumer, acts
  on its list, and those that it does not see are none.
* `FrameQueues.two_lists`: all of this for any sequence of acts.
-/
namespace MicStream

/-! ## Acts -/

inductive QueueAct (σ : Type) where
  | push (f : Frame)
  | pop (who : σ)
  | close
  deriving DecidableEq, Repr

/-- Acts in turn: what is there after them, and the answer to each. -/
def inTurn {σ α β : Type} (step : σ → α → σ × β) : σ → List α → σ × List β
  | s, [] => (s, [])
  | s, a :: as =>
    ((inTurn step (step s a).1 as).1, (step s a).2 :: (inTurn step (step s a).1 as).2)

theorem inTurn_concat {σ α β : Type} (step : σ → α → σ × β) (as : List α) (a : α) (s : σ) :
    inTurn step s (as ++ [a]) = ((step (inTurn step s as).1 a).1,
      (inTurn step s as).2 ++ [(step (inTurn step s as).1 a).2]) := by
  induction as generalizing s with
  | nil => rfl
  | cons b as ih => simp [inTurn, ih]

namespace QueueAct

def frames {σ : Type} : List (QueueAct σ) → List Frame
  | [] => []
  | .push f :: as => f :: frames as
  | .pop _ :: as => frames as
  | .close :: _ => []

theorem frames_append {σ : Type} {as : List (QueueAct σ)} (h : .close ∉ as)
    (bs : List (QueueAct σ)) : frames (as ++ bs) = frames as ++ frames bs := by
  induction as with
  | nil => rfl
  | cons a as ih =>
    have ih := ih fun hc => h (List.mem_cons_of_mem _ hc)
    cases a with
    | push f => simp only [List.cons_append, frames, ih]
    | pop w => exact ih
    | close => exact absurd List.mem_cons_self h

theorem frames_append_of_closed {σ : Type} {as : List (QueueAct σ)} (h : .close ∈ as)
    (bs : List (QueueAct σ)) : frames (as ++ bs) = frames as := by
  induction as with
  | nil => cases h
  | cons a as ih =>
    cases a with
    | push f =>
      have h : .close ∈ as := by simpa using h
      simp only [List.cons_append, frames, ih h]
    | pop w =>
      have h : .close ∈ as := by simpa using h
      exact ih h
    | close => rfl

theorem frames_concat {σ : Type} {a : QueueAct σ} (h : frames [a] = []) (as : List (QueueAct σ)) :
    frames (as ++ [a]) = frames as := by
  by_cases hmem : .close ∈ as
  · exact frames_append_of_closed hmem [a]
  · rw [frames_append hmem, h, List.append_nil]

end QueueAct

/-- Frames with the numbers of their pushes. -/
def numbered (fs : List Frame) : List SharedFrame := fs.mapIdx SharedFrame.mk

theorem numbered_concat (fs : List Frame) (f : Frame) :
    numbered (fs ++ [f]) = numbered fs ++ [⟨fs.length, f⟩] := by
  simp [numbered]

theorem length_numbered (fs : List Frame) : (numbered fs).length = fs.length :=
  List.length_mapIdx

theorem serials_numbered (fs : List Frame) :
    (numbered fs).map SharedFrame.serial = List.range fs.length := by
  induction fs using List.reverseRecOn with
  | nil => rfl
  | append_singleton fs f ih => simp [numbered_concat, ih, List.range_succ]

/-! ## One list -/

inductive LineAnswer where
  | dropped (n : Nat)
  | refused
  | received (r : Received SharedFrame)
  | closed
  deriving DecidableEq, Repr

def LineAnswer.received? : LineAnswer → Option (Received SharedFrame)
  | .received r => some r
  | _ => none

/-- The entries that wait for one consumer, oldest first. -/
structure Line where
  limit : Nat
  entries : List SharedFrame
  /-- Frames pushed so far. -/
  pushed : Nat
  closed : Bool
  deriving DecidableEq, Repr

namespace Line

def new (limit : Nat) : Line := ⟨limit, [], 0, false⟩

/-- What a push leaves of the entries: a full list loses its head. -/
def kept (l : Line) : List SharedFrame :=
  if l.entries.length = l.limit then l.entries.tail else l.entries

/-- A push adds its frame at the end and removes the head if the list was full; a request takes
the head, or finds that there is nothing yet, or that nothing will come. -/
def step (l : Line) : QueueAct Unit → Line × LineAnswer
  | .push f =>
    if l.closed then (l, .refused)
    else
      ({ l with entries := l.kept ++ [⟨l.pushed, f⟩], pushed := l.pushed + 1 },
        .dropped (if l.entries.length = l.limit then 1 else 0))
  | .pop () =>
    match l.entries with
    | [] => (l, .received (if l.closed then .ended else .empty))
    | a :: rest => ({ l with entries := rest }, .received (.entry a))
  | .close => ({ l with closed := true }, .closed)

theorem step_push_of_closed {l : Line} (hc : l.closed = true) (f : Frame) :
    l.step (.push f) = (l, .refused) := by
  rw [step, if_pos hc]

theorem step_push_of_open {l : Line} (hc : l.closed = false) (f : Frame) : l.step (.push f) =
    ({ l with entries := l.kept ++ [⟨l.pushed, f⟩], pushed := l.pushed + 1 },
      .dropped (if l.entries.length = l.limit then 1 else 0)) := by
  rw [step, if_neg (by rw [hc]; exact Bool.false_ne_true)]

theorem kept_sublist (l : Line) : l.kept.Sublist l.entries := by
  unfold kept
  split
  · exact List.tail_sublist _
  · exact List.Sublist.refl _

theorem rtake_concat {α : Type} {n : Nat} (hn : 0 < n) (l : List α) (a : α) :
    (l ++ [a]).rtake n =
      (if (l.rtake n).length = n then (l.rtake n).tail else l.rtake n) ++ [a] := by
  obtain ⟨m, rfl⟩ := Nat.exists_eq_succ_of_ne_zero (Nat.ne_of_gt hn)
  rw [List.rtake_concat_succ]
  congr 1
  by_cases h : m + 1 ≤ l.length
  · have hlen : (l.rtake (m + 1)).length = m + 1 := by
      rw [List.rtake, List.length_drop]; omega
    rw [if_pos hlen, List.rtake, List.rtake, List.tail_drop]
    congr 1
    omega
  · have hlen : (l.rtake (m + 1)).length ≠ m + 1 := by
      rw [List.rtake, List.length_drop]; omega
    rw [if_neg hlen, List.rtake, List.rtake]
    congr 1
    omega

/-- What is so of a list after some acts and their answers. -/
structure Kept (limit : Nat) (as : List (QueueAct Unit)) (l : Line)
    (answers : List LineAnswer) : Prop where
  limit_eq : l.limit = limit
  length_le : l.entries.length ≤ limit
  pushed : l.pushed = (QueueAct.frames as).length
  closed : l.closed = true ↔ .close ∈ as
  /-- Entries stay in the order of their pushes. -/
  order : ((answers.filterMap LineAnswer.received?).filterMap Received.toOption ++
    l.entries).Sublist (numbered (QueueAct.frames as))
  newest : .pop () ∉ as → l.entries = (numbered (QueueAct.frames as)).rtake limit

namespace Kept
variable {limit : Nat} {as : List (QueueAct Unit)} {l : Line} {answers : List LineAnswer}

theorem push (h : Kept limit as l answers) (hpos : 0 < limit) (f : Frame) :
    Kept limit (as ++ [.push f]) (l.step (.push f)).1 (answers ++ [(l.step (.push f)).2]) := by
  cases hc : l.closed with
  | true =>
    have hmem := h.closed.1 hc
    have hframes := QueueAct.frames_append_of_closed hmem [.push f]
    rw [step_push_of_closed hc]
    refine ⟨h.limit_eq, h.length_le, by rw [hframes]; exact h.pushed, ?_, ?_, fun hp => ?_⟩
    · simpa using h.closed
    · simpa [hframes, List.filterMap_cons, LineAnswer.received?] using h.order
    · rw [hframes]
      exact h.newest fun hmem => hp (List.mem_append_left _ hmem)
  | false =>
    have hopen : .close ∉ as := fun hmem => by
      rw [h.closed.2 hmem] at hc; cases hc
    have hframes : QueueAct.frames (as ++ [.push f]) = QueueAct.frames as ++ [f] :=
      QueueAct.frames_append hopen _
    have hnumbered : numbered (QueueAct.frames (as ++ [.push f])) =
        numbered (QueueAct.frames as) ++ [⟨l.pushed, f⟩] := by
      rw [hframes, numbered_concat, h.pushed]
    rw [step_push_of_open hc]
    refine ⟨h.limit_eq, ?_, ?_, ?_, ?_, fun hp => ?_⟩
    · have hle := h.length_le
      rw [List.length_append, List.length_singleton, kept, h.limit_eq]
      split
      · rw [List.length_tail]; omega
      · omega
    · rw [hframes, List.length_append, h.pushed]; rfl
    · simpa using h.closed
    · rw [hnumbered]
      have := (((List.Sublist.refl _).append l.kept_sublist).trans h.order).append
        (List.Sublist.refl [(⟨l.pushed, f⟩ : SharedFrame)])
      simpa [List.filterMap_cons, LineAnswer.received?] using this
    · rw [hnumbered, rtake_concat hpos]
      rw [← h.newest fun hmem => hp (List.mem_append_left _ hmem), kept, h.limit_eq]

theorem pop (h : Kept limit as l answers) :
    Kept limit (as ++ [.pop ()]) (l.step (.pop ())).1 (answers ++ [(l.step (.pop ())).2]) := by
  have hframes : QueueAct.frames (as ++ [.pop ()]) = QueueAct.frames as :=
    QueueAct.frames_concat rfl as
  have hclosed : l.closed = true ↔ .close ∈ as ++ [.pop ()] := by simpa using h.closed
  have hpop : .pop () ∈ as ++ [.pop ()] := List.mem_append_right _ (List.mem_singleton_self _)
  obtain ⟨m, entries, n, closed⟩ := l
  cases entries with
  | nil =>
    refine ⟨h.limit_eq, h.length_le, by rw [hframes]; exact h.pushed, hclosed, ?_,
      fun hp => absurd hpop hp⟩
    have horder := h.order
    rw [hframes]
    cases closed <;>
      simpa [step, List.filterMap_cons, LineAnswer.received?, Received.toOption] using horder
  | cons a rest =>
    refine ⟨h.limit_eq, Nat.le_of_succ_le h.length_le, by rw [hframes]; exact h.pushed, hclosed, ?_,
      fun hp => absurd hpop hp⟩
    have horder := h.order
    rw [hframes]
    simpa [step, List.filterMap_cons, LineAnswer.received?, Received.toOption] using horder

theorem close (h : Kept limit as l answers) :
    Kept limit (as ++ [.close]) (l.step .close).1 (answers ++ [(l.step .close).2]) := by
  have hframes : QueueAct.frames (as ++ [.close]) = QueueAct.frames as :=
    QueueAct.frames_concat rfl as
  refine ⟨h.limit_eq, h.length_le, by rw [hframes]; exact h.pushed, by simp [step], ?_,
    fun hp => ?_⟩
  · simpa [hframes, step, List.filterMap_cons, LineAnswer.received?] using h.order
  · rw [hframes]
    exact h.newest fun hmem => hp (List.mem_append_left _ hmem)

theorem step (h : Kept limit as l answers) (hpos : 0 < limit) (a : QueueAct Unit) :
    Kept limit (as ++ [a]) (l.step a).1 (answers ++ [(l.step a).2]) := by
  cases a with
  | push f => exact h.push hpos f
  | pop w => exact h.pop
  | close => exact h.close

end Kept

theorem kept_acts {limit : Nat} (hpos : 0 < limit) (as : List (QueueAct Unit)) :
    Kept limit as (inTurn step (new limit) as).1 (inTurn step (new limit) as).2 := by
  induction as using List.reverseRecOn with
  | nil =>
    refine ⟨rfl, Nat.zero_le _, rfl, ?_, List.Sublist.refl _, fun _ => ?_⟩
    · simp [inTurn, new]
    · simp [inTurn, new, QueueAct.frames, numbered, List.rtake]
  | append_singleton as a ih =>
    rw [inTurn_concat]
    exact ih.step hpos a

/-- Once the producer is gone, requests get the entries that are left, and then the end. -/
theorem received_of_closed : ∀ (as : List (QueueAct Unit)) {l : Line}, l.closed = true →
    (inTurn step l as).2.filterMap LineAnswer.received? =
      (List.range (as.count (.pop ()))).map fun i => (l.entries[i]?).elim .ended .entry
  | [], _, _ => rfl
  | .push f :: as, l, hc => by
    simpa [inTurn, step_push_of_closed hc, List.filterMap_cons, LineAnswer.received?] using
      received_of_closed as hc
  | .close :: as, l, hc => by
    have hstep : l.step .close = (l, .closed) := by rw [step, ← hc]
    simpa [inTurn, hstep, List.filterMap_cons, LineAnswer.received?] using
      received_of_closed as hc
  | .pop () :: as, ⟨m, [], n, closed⟩, hc => by
    obtain rfl : closed = true := hc
    have ih := received_of_closed as (l := ⟨m, [], n, true⟩) rfl
    rw [List.count_cons_self, List.range_succ_eq_map, List.map_cons, List.map_map]
    exact congrArg (Received.ended :: ·) ih
  | .pop () :: as, ⟨m, a :: rest, n, closed⟩, hc => by
    have ih := received_of_closed as (l := ⟨m, rest, n, closed⟩) hc
    rw [List.count_cons_self, List.range_succ_eq_map, List.map_cons, List.map_map]
    exact congrArg (Received.entry a :: ·) ih

end Line

/-! ## Two queues -/

theorem Fifo.push_eq {α : Type} {q : Fifo α} (h : q.Bounded) (a : α) : q.push a =
    (⟨q.capacity, (if q.toList.length = q.capacity then q.toList.tail else q.toList) ++ [a]⟩,
      if q.toList.length = q.capacity then 1 else 0) := by
  rcases Nat.lt_or_eq_of_le h.2 with hlt | heq
  · have hne : q.toList.length ≠ q.capacity := Nat.ne_of_lt hlt
    rw [push_of_room a hlt, if_neg hne, if_neg hne]
  · have heq' : q.toList.length = q.capacity := heq
    rw [push_of_full a h.1 heq, if_pos heq', if_pos heq', List.drop_one]

theorem Channel.receive_cases {α : Type} (c : Channel α) :
    (c.queue.toList = [] ∧ c.receive = (if c.closed then .ended else .empty, c)) ∨
    ∃ a rest, c.queue.toList = a :: rest ∧
      c.receive = (.entry a, { c with queue := ⟨c.queue.capacity, rest⟩ }) := by
  obtain ⟨⟨n, _ | ⟨a, rest⟩⟩, closed⟩ := c
  · exact .inl ⟨rfl, rfl⟩
  · exact .inr ⟨a, rest, rfl, rfl⟩

theorem Channel.receive_keeps {α : Type} {c : Channel α} (h : c.queue.Bounded) :
    c.receive.2.queue.Bounded ∧ c.receive.2.closed = c.closed := by
  rcases c.receive_cases with ⟨-, hr⟩ | ⟨a, rest, hq, hr⟩
  · rw [hr]; exact ⟨h, rfl⟩
  · obtain ⟨hpos, hle⟩ := h
    rw [Fifo.size, hq, List.length_cons] at hle
    rw [hr]
    exact ⟨⟨hpos, Nat.le_of_succ_le hle⟩, rfl⟩

inductive QueueAnswer where
  | dropped (encode localize : Nat)
  | refused
  | received (c : Consumer) (r : Received SharedFrame)
  | closed
  deriving DecidableEq, Repr

/-- What a consumer sees of an act: all but the requests of the other one. -/
def QueueAct.seen? (c : Consumer) : QueueAct Consumer → Option (QueueAct Unit)
  | .push f => some (.push f)
  | .pop d => if d = c then some (.pop ()) else none
  | .close => some .close

def QueueAnswer.seen? (c : Consumer) : QueueAnswer → Option LineAnswer
  | .dropped n m => some (.dropped (match c with | .encoder => n | .localizer => m))
  | .refused => some .refused
  | .received d r => if d = c then some (.received r) else none
  | .closed => some .closed

namespace FrameQueues

def act (q : FrameQueues) : QueueAct Consumer → FrameQueues × QueueAnswer
  | .push f =>
    if q.isClosed then (q, .refused)
    else ((q.push f).1, .dropped (q.push f).2.1 (q.push f).2.2)
  | .pop .encoder => (q.popEncode.2, .received .encoder q.popEncode.1)
  | .pop .localizer => (q.popLocalize.2, .received .localizer q.popLocalize.1)
  | .close => (q.close, .closed)

def line (q : FrameQueues) (c : Consumer) : Line :=
  ⟨(q.channel c).queue.capacity, (q.channel c).queue.toList, q.pushed, (q.channel c).closed⟩

def seen (c : Consumer) (as : List (QueueAct Consumer)) : List (QueueAct Unit) :=
  as.filterMap (QueueAct.seen? c)

def told (c : Consumer) (answers : List QueueAnswer) : List LineAnswer :=
  answers.filterMap (QueueAnswer.seen? c)

def received (c : Consumer) (answers : List QueueAnswer) : List (Received SharedFrame) :=
  (told c answers).filterMap LineAnswer.received?

/-- Both queues are within their capacity, and the producer is gone from both or from none. -/
structure Even (q : FrameQueues) : Prop where
  bounded : ∀ c, (q.channel c).queue.Bounded
  closed : ∀ c, (q.channel c).closed = q.isClosed

/-- What an act on the queues comes to on the list of a consumer. -/
structure Acted (c : Consumer) (a : QueueAct Consumer) (q : FrameQueues)
    (r : FrameQueues × QueueAnswer) : Prop where
  even : r.1.Even
  seen : ∀ b, a.seen? c = some b →
    r.1.line c = ((q.line c).step b).1 ∧ r.2.seen? c = some ((q.line c).step b).2
  unseen : a.seen? c = none → r.1.line c = q.line c ∧ r.2.seen? c = none

section Acts
variable {q : FrameQueues}

theorem channel_push (q : FrameQueues) (f : Frame) (c : Consumer) :
    (q.push f).1.channel c = ((q.channel c).push ⟨q.pushed, f⟩).1 := by
  cases c <;> rfl

theorem line_push (h : q.Even) (f : Frame) (c : Consumer) : (q.push f).1.line c =
    { q.line c with
      entries := (q.line c).kept ++ [⟨q.pushed, f⟩]
      pushed := q.pushed + 1 } := by
  simp only [line, channel_push, Channel.push, Fifo.push_eq (h.bounded c)]
  rfl

/-- What a consumer is told of a push. -/
theorem seen_push (h : q.Even) (f : Frame) (c : Consumer) :
    (QueueAnswer.dropped (q.push f).2.1 (q.push f).2.2).seen? c =
      some (.dropped (if (q.line c).entries.length = (q.line c).limit then 1 else 0)) := by
  have hdropped : (QueueAnswer.dropped (q.push f).2.1 (q.push f).2.2).seen? c =
      some (.dropped ((q.channel c).push ⟨q.pushed, f⟩).2) := by
    cases c <;> rfl
  rw [hdropped, Channel.push, Fifo.push_eq (h.bounded c)]
  rfl

theorem Even.push (h : q.Even) (f : Frame) (c : Consumer) :
    Acted c (.push f) q (q.act (.push f)) := by
  have hline : (q.line c).closed = q.isClosed := h.closed c
  cases hc : q.isClosed with
  | true =>
    have hact : q.act (.push f) = (q, .refused) := by rw [act, if_pos hc]
    rw [hact]
    refine ⟨h, fun b hb => ?_, nofun⟩
    cases hb
    rw [Line.step_push_of_closed (hline.trans hc)]
    exact ⟨rfl, rfl⟩
  | false =>
    have hact : q.act (.push f) = ((q.push f).1, .dropped (q.push f).2.1 (q.push f).2.2) := by
      rw [act, if_neg (by rw [hc]; exact Bool.false_ne_true)]
    rw [hact]
    refine ⟨⟨fun d => ?_, fun d => ?_⟩, fun b hb => ?_, nofun⟩
    · rw [channel_push]
      exact Fifo.push_bounded _ (h.bounded d)
    · rw [channel_push]
      exact h.closed d
    · cases hb
      rw [Line.step_push_of_open (hline.trans hc)]
      exact ⟨line_push h f c, seen_push h f c⟩

/-- A request concerns the channel of its consumer and nothing else. -/
theorem act_pop (q : FrameQueues) (c : Consumer) :
    (q.act (.pop c)).2 = .received c (q.channel c).receive.1 ∧
      (q.act (.pop c)).1.channel c = (q.channel c).receive.2 ∧
      (∀ d, d ≠ c → (q.act (.pop c)).1.channel d = q.channel d) ∧
      (q.act (.pop c)).1.pushed = q.pushed := by
  cases c <;> refine ⟨rfl, rfl, fun d hd => ?_, rfl⟩ <;> cases d <;>
    first | rfl | exact absurd rfl hd

theorem line_pop (q : FrameQueues) (c : Consumer) :
    (q.act (.pop c)).1.line c = ((q.line c).step (.pop ())).1 ∧
      (q.act (.pop c)).2.seen? c = some ((q.line c).step (.pop ())).2 := by
  obtain ⟨hanswer, hown, -, hpushed⟩ := act_pop q c
  have hseen : ∀ r, (QueueAnswer.received c r).seen? c = some (.received r) := fun r => if_pos rfl
  rcases (q.channel c).receive_cases with ⟨hq, hr⟩ | ⟨a, rest, hq, hr⟩
  · have hstep : (q.line c).step (.pop ()) =
        (q.line c, .received (if (q.channel c).closed then .ended else .empty)) := by
      simp only [Line.step, line, hq]
    rw [hstep, hanswer, line, hown, hpushed, hr]
    exact ⟨rfl, hseen _⟩
  · have hstep : (q.line c).step (.pop ()) =
        ({ q.line c with entries := rest }, .received (.entry a)) := by
      simp only [Line.step, line, hq]
    rw [hstep, hanswer, line, hown, hpushed, hr]
    exact ⟨rfl, hseen _⟩

theorem Even.pop (h : q.Even) (d c : Consumer) : Acted c (.pop d) q (q.act (.pop d)) := by
  obtain ⟨hanswer, hown, hother, hpushed⟩ := act_pop q d
  have hkeeps : ∀ e, ((q.act (.pop d)).1.channel e).queue.Bounded ∧
      ((q.act (.pop d)).1.channel e).closed = (q.channel e).closed := by
    intro e
    by_cases he : e = d
    · subst he
      rw [hown]
      exact Channel.receive_keeps (h.bounded e)
    · rw [hother e he]
      exact ⟨h.bounded e, rfl⟩
  have hclosed : (q.act (.pop d)).1.isClosed = q.isClosed :=
    congrArg₂ and (hkeeps .encoder).2 (hkeeps .localizer).2
  refine ⟨⟨fun e => (hkeeps e).1, fun e => ?_⟩, fun b hb => ?_, fun hn => ?_⟩
  · rw [(hkeeps e).2, hclosed, h.closed]
  · by_cases hd : d = c
    · subst hd
      obtain rfl : .pop () = b := by simpa [QueueAct.seen?] using hb
      exact line_pop q d
    · simp [QueueAct.seen?, hd] at hb
  · by_cases hd : d = c
    · simp [QueueAct.seen?, hd] at hn
    · rw [line, hother c (Ne.symm hd), hpushed, hanswer]
      exact ⟨rfl, if_neg hd⟩

theorem Even.close (h : q.Even) (c : Consumer) : Acted c .close q (q.act .close) := by
  refine ⟨⟨fun d => ?_, fun d => ?_⟩, fun b hb => ?_, nofun⟩
  · cases d
    · exact h.bounded .encoder
    · exact h.bounded .localizer
  · cases d <;> rfl
  · cases hb
    cases c <;> exact ⟨rfl, rfl⟩

/-- An act on the queues is an act on the list of each consumer that sees it. -/
theorem Even.act (h : q.Even) (a : QueueAct Consumer) (c : Consumer) : Acted c a q (q.act a) := by
  cases a with
  | push f => exact h.push f c
  | pop d => exact h.pop d c
  | close => exact h.close c

end Acts

theorem even_new (capacity : Nat) : (new capacity).Even := by
  refine ⟨fun c => ?_, fun c => ?_⟩
  · cases c <;> exact Fifo.bounded_bounded capacity
  · cases c <;> rfl

/-- Acts in turn on the queues are, for each consumer, those that it sees, on its list. -/
theorem Even.acts {c : Consumer} : ∀ (as : List (QueueAct Consumer)) {q : FrameQueues}, q.Even →
    (inTurn FrameQueues.act q as).1.Even ∧
    ((inTurn FrameQueues.act q as).1.line c, told c (inTurn FrameQueues.act q as).2) =
      inTurn Line.step (q.line c) (seen c as)
  | [], _, h => ⟨h, rfl⟩
  | a :: as, q, h => by
    have hacted := h.act a c
    obtain ⟨heven, ih⟩ := hacted.even.acts as (c := c)
    refine ⟨heven, ?_⟩
    cases hb : a.seen? c with
    | none =>
      obtain ⟨hline, hnone⟩ := hacted.unseen hb
      rw [hline] at ih
      rw [inTurn, told, seen, List.filterMap_cons_none hnone, List.filterMap_cons_none hb]
      exact ih
    | some b =>
      obtain ⟨hline, hsome⟩ := hacted.seen b hb
      rw [hline] at ih
      rw [inTurn, told, seen, List.filterMap_cons_some hsome, List.filterMap_cons_some hb, inTurn]
      exact congrArg (fun r => (r.1, ((q.line c).step b).2 :: r.2)) ih

theorem seen?_eq_pop_iff {c : Consumer} {a : QueueAct Consumer} :
    a.seen? c = some (.pop ()) ↔ a = .pop c := by
  cases a with
  | push f => simp [QueueAct.seen?]
  | pop d => by_cases hd : d = c <;> simp [QueueAct.seen?, hd]
  | close => simp [QueueAct.seen?]

theorem count_seen (c : Consumer) (as : List (QueueAct Consumer)) :
    (seen c as).count (.pop ()) = as.count (.pop c) := by
  induction as with
  | nil => rfl
  | cons a as ih =>
    rw [seen] at ih ⊢
    cases hb : a.seen? c with
    | none =>
      have hne : a ≠ .pop c := fun ha => by
        rw [seen?_eq_pop_iff.2 ha] at hb; cases hb
      rw [List.filterMap_cons_none hb, ih, List.count_cons_of_ne hne]
    | some b =>
      rw [List.filterMap_cons_some hb]
      by_cases hbp : b = .pop ()
      · subst hbp
        rw [seen?_eq_pop_iff.1 hb, List.count_cons_self, List.count_cons_self, ih]
      · have hne : a ≠ .pop c := fun ha => by
          rw [seen?_eq_pop_iff.2 ha] at hb
          exact hbp (Option.some.inj hb).symm
        rw [List.count_cons_of_ne hbp, List.count_cons_of_ne hne, ih]

theorem frames_seen (c : Consumer) (as : List (QueueAct Consumer)) :
    QueueAct.frames (seen c as) = QueueAct.frames as := by
  induction as with
  | nil => rfl
  | cons a as ih =>
    cases a with
    | push f => exact congrArg (f :: ·) ih
    | pop d =>
      by_cases hd : d = c
      · have hb : (QueueAct.pop d).seen? c = some (.pop ()) := if_pos hd
        rw [seen, List.filterMap_cons_some hb]
        exact ih
      · have hb : (QueueAct.pop d).seen? c = none := if_neg hd
        rw [seen, List.filterMap_cons_none hb]
        exact ih
    | close => rfl

/-- What a consumer does not see may as well not be done. -/
theorem seen_own (c : Consumer) (as : List (QueueAct Consumer)) :
    seen c (as.filter fun a => (a.seen? c).isSome) = seen c as := by
  rw [seen, List.filterMap_filter]
  refine List.filterMap_congr fun a _ => ?_
  cases a.seen? c <;> rfl

/-- Whatever is done with the queues, each consumer sees a list with room for the capacity, at
least for one entry: a push adds the same numbered frame to both lists and removes the head of
those that were full, and tells for each how many that were. What one consumer asks for changes
neither the list of the other nor what it is told. A consumer gets frames in the order of their
pushes, none twice; as long as it asks for nothing it finds the last frames that were pushed, as
many as there is room for; and when the producer is gone it gets all that is queued before it
learns of the end. -/
theorem two_lists (capacity : Nat) (as : List (QueueAct Consumer)) (c : Consumer) :
    let q := (inTurn act (new capacity) as).1
    let answers := (inTurn act (new capacity) as).2
    let own := inTurn act (new capacity) (as.filter fun a => (a.seen? c).isSome)
    let fs := QueueAct.frames as
    (q.line c, told c answers) = inTurn Line.step (.new (max capacity 1)) (seen c as) ∧
    (own.1.line c = q.line c ∧ told c own.2 = told c answers) ∧
    (((received c answers).filterMap Received.toOption).Sublist (numbered fs) ∧
      ((numbered fs).map SharedFrame.serial).Nodup) ∧
    (.pop c ∉ as →
      (q.line c).entries = (numbered fs).rtake (min fs.length (max capacity 1))) ∧
    ∀ later, received c (inTurn act q.close later).2 =
      (List.range (later.count (.pop c))).map fun i =>
        ((q.line c).entries[i]?).elim .ended .entry := by
  intro q answers own fs
  have hpos : 0 < max capacity 1 := by omega
  have hnew : (new capacity).line c = .new (max capacity 1) := by
    cases c <;> rfl
  obtain ⟨heven, hline⟩ := (even_new capacity).acts as (c := c)
  obtain ⟨-, hown⟩ := (even_new capacity).acts (as.filter fun a => (a.seen? c).isSome) (c := c)
  rw [hnew] at hline hown
  have hkept := Line.kept_acts hpos (seen c as)
  rw [← hline] at hkept
  have hnewest := hkept.newest
  have horder := hkept.order
  rw [frames_seen] at hnewest horder
  refine ⟨hline, ?_, ⟨(List.sublist_append_left _ _).trans horder, ?_⟩, fun hp => ?_,
    fun later => ?_⟩
  · rw [seen_own, ← hline] at hown
    exact Prod.mk.inj hown
  · rw [serials_numbered]
    exact List.nodup_range
  · have hp : .pop () ∉ seen c as := by
      rw [← List.count_eq_zero, count_seen, List.count_eq_zero]
      exact hp
    have hmin : (numbered fs).length - min fs.length (max capacity 1) =
        (numbered fs).length - max capacity 1 := by
      rw [length_numbered]; omega
    rw [hnewest hp, List.rtake, List.rtake, hmin]
  · have hclosed : q.close.line c = { q.line c with closed := true } := by
      cases c <;> rfl
    obtain ⟨-, hlater⟩ := (heven.close c).even.acts later (c := c)
    have htold : told c (inTurn act q.close later).2 =
        (inTurn Line.step { q.line c with closed := true } (seen c later)).2 := by
      rw [← hclosed]
      exact congrArg Prod.snd hlater
    rw [received, htold, Line.received_of_closed _ rfl, count_seen]

/-- Four frames for queues of two; the encoder asks once, the localizer never. -/
def sampleActs : List (QueueAct Consumer) :=
  [.push [[1]], .push [[2]], .push [[3]], .pop .encoder, .push [[4]]]

theorem two_lists_sample :
    .pop .localizer ∉ sampleActs ∧
    ((inTurn act (new 2) sampleActs).1.line .localizer).entries = [⟨2, [[3]]⟩, ⟨3, [[4]]⟩] ∧
    told .localizer (inTurn act (new 2) sampleActs).2 =
      [.dropped 0, .dropped 0, .dropped 1, .dropped 1] ∧
    told .encoder (inTurn act (new 2) sampleActs).2 =
      [.dropped 0, .dropped 0, .dropped 1, .received (.entry ⟨1, [[2]]⟩), .dropped 0] ∧
    received .localizer (inTurn act (inTurn act (new 2) sampleActs).1.close
        [.pop .localizer, .pop .encoder, .pop .localizer, .pop .localizer]).2 =
      [.entry ⟨2, [[3]]⟩, .entry ⟨3, [[4]]⟩, .ended] := by
  have hquiet : .pop .localizer ∉ sampleActs := by decide
  obtain ⟨hline, -, -, hnewest, hlater⟩ := two_lists 2 sampleActs .localizer
  have hentries := hnewest hquiet
  have hlist : (inTurn Line.step (.new 2) (seen .localizer sampleActs)).2 =
      [.dropped 0, .dropped 0, .dropped 1, .dropped 1] := by decide
  have hencoder : (inTurn Line.step (.new 2) (seen .encoder sampleActs)).2 =
      [.dropped 0, .dropped 0, .dropped 1, .received (.entry ⟨1, [[2]]⟩), .dropped 0] := by decide
  refine ⟨hquiet, hentries.trans (by decide), (congrArg Prod.snd hline).trans hlist,
    (congrArg Prod.snd (two_lists 2 sampleActs .encoder).1).trans hencoder, ?_⟩
  rw [hlater, hentries]
  decide

end FrameQueues

end MicStream
