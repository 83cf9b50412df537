import Mathlib.Algebra.GroupWithZero.Nat
import MicStream.Queue.Shared
/-!
# A queue under contention

One producer pushes entry after entry to a queue, step by step, and a consumer
takes entries at any moment, also between two steps of a push. An `Attempt` is
a push with a record of what happened since it began; finished pushes are kept
in a log. The record has no influence on what is done.

**Invariant.** During a push nobody but the consumer and the push itself takes
entries and nobody adds any, so the queue is always a rest of what it was when
the push began (`Attempt.Sound.rest`). Once an entry has been refused, the
push looks again and has room after at most two more steps (`Attempt.Phase`),
and room that is there once cannot go away before the entry is added.

Results:
* `pushStep_cases`: the five kinds of steps of a push.
* `Contention.sound_of_steps`: the invariant holds on every run.
* `Contention.finishes`: a push is finished after four steps of its own.
* `Contention.accounts`: what every run keeps to.
-/
namespace MicStream

/-! ## Steps of a push -/

theorem Fifo.isFull_of_lt {α : Type} {q : Fifo α} (h : q.size < q.capacity) : q.isFull = false :=
  decide_eq_false (Nat.not_le_of_lt h)

namespace Push

/-- A step of a push, and what is left of the push and of the queue. -/
inductive PushStep {α : Type} (p : Push α) (q : Fifo α) : Progress α × Fifo α → Prop where
  | offered (hs : p.stage = .offering) (hq : q.isFull = false) :
      PushStep p q (.done p.dropped, ⟨q.capacity, q.toList ++ [p.entry]⟩)
  | refused (hs : p.stage = .offering) (hq : q.isFull = true) :
      PushStep p q (.going { p with stage := .checking }, q)
  | checked (hs : p.stage = .checking) :
      PushStep p q (.going { p with stage := if q.isFull then .evicting else .offering }, q)
  | evicted (a : α) (l : List α) (hs : p.stage = .evicting) (hq : q.toList = a :: l) :
      PushStep p q (.going { p with stage := .offering, dropped := p.dropped + 1 }, ⟨q.capacity, l⟩)
  | missed (hs : p.stage = .evicting) (hq : q.toList = []) :
      PushStep p q (.going { p with stage := .offering }, q)

theorem pushStep_cases {α : Type} (p : Push α) (q : Fifo α) : PushStep p q (p.step q) := by
  unfold step
  split
  · rename_i hs
    cases hf : q.isFull with
    | true =>
      simp only [Fifo.offer?, hf, if_true]
      exact .refused hs hf
    | false =>
      simp only [Fifo.offer?, hf]
      exact .offered hs hf
  · rename_i hs
    exact .checked hs
  · rename_i hs
    rcases q with ⟨c, _ | ⟨a, l⟩⟩
    · exact .missed hs rfl
    · exact .evicted a l hs rfl

/-- A push that goes on keeps its entry, and counts each entry that it takes out. -/
theorem PushStep.going {α : Type} {p p' : Push α} {q q' : Fifo α}
    (h : PushStep p q (.going p', q')) : p'.entry = p.entry ∧ q'.capacity = q.capacity ∧
      q'.toList.Sublist q.toList ∧ p'.dropped + q'.size = p.dropped + q.size := by
  cases h with
  | refused hs hq => exact ⟨rfl, rfl, List.Sublist.refl _, rfl⟩
  | checked hs => exact ⟨rfl, rfl, List.Sublist.refl _, rfl⟩
  | evicted a l hs hq =>
    refine ⟨rfl, rfl, ?_, ?_⟩
    · rw [hq]; exact List.sublist_cons_self a l
    · simp only [Fifo.size, hq, List.length_cons]; omega
  | missed hs hq => exact ⟨rfl, rfl, List.Sublist.refl _, rfl⟩

theorem PushStep.done {α : Type} {p : Push α} {q q' : Fifo α} {n : Nat}
    (h : PushStep p q (.done n, q')) :
    n = p.dropped ∧ q.isFull = false ∧ q' = ⟨q.capacity, q.toList ++ [p.entry]⟩ := by
  cases h with
  | offered hs hq => exact ⟨rfl, hq, rfl⟩

end Push

/-! ## The machine -/

/-- A push in progress, with what has happened since it began. -/
structure Attempt where
  push : Push SharedFrame
  /-- The entries of the queue when the push began. -/
  before : List SharedFrame
  /-- Steps of the push. -/
  steps : Nat
  /-- How often the push has offered its entry. -/
  offers : Nat
  /-- Whether the queue was full at some moment. -/
  sawFull : Bool
  /-- Whether the consumer has taken an entry. -/
  disturbed : Bool
  /-- The entries that the push has taken out. -/
  evicted : List SharedFrame
  deriving DecidableEq, Repr

structure Finished extends Attempt where
  answer : Nat
  after : List SharedFrame
  deriving DecidableEq, Repr

namespace Attempt

def start (a : SharedFrame) (q : Fifo SharedFrame) : Attempt :=
  ⟨.start a, q.toList, 0, 0, q.isFull, false, []⟩

/-- The record with the step that the push makes next. -/
def counted (t : Attempt) (q : Fifo SharedFrame) : Attempt :=
  { t with
    steps := t.steps + 1
    offers := if t.push.stage = .offering then t.offers + 1 else t.offers
    evicted := if t.push.stage = .evicting then t.evicted ++ q.toList.take 1 else t.evicted }

/-- The record when the push has made a step on `q` that leaves `q'`, and goes on. -/
def went (t : Attempt) (q : Fifo SharedFrame) (push : Push SharedFrame) (q' : Fifo SharedFrame) :
    Attempt :=
  { t.counted q with push, sawFull := t.sawFull || q'.isFull }

/-- The record when the consumer has taken an entry. -/
def disturb (t : Attempt) (q : Fifo SharedFrame) : Attempt :=
  { t with disturbed := true, sawFull := t.sawFull || q.isFull }

end Attempt

/-- A queue with its producer and its consumer, and what they have done so far. -/
structure Contention where
  queue : Fifo SharedFrame
  /-- The push in progress, if there is one. -/
  current : Option Attempt
  /-- The entries of all pushes, oldest first. -/
  begun : List SharedFrame
  /-- What the consumer got, oldest first. -/
  received : List SharedFrame
  /-- Finished pushes, oldest first. -/
  log : List Finished
  deriving DecidableEq, Repr

/-- Who makes a step: the producer begins a push or goes on with it, or the consumer looks for an
entry. -/
inductive Move where
  | begin (f : Frame)
  | producer
  | consumer
  deriving DecidableEq, Repr

namespace Contention

def new (capacity : Nat) : Contention := ⟨.bounded capacity, none, [], [], []⟩

def advance (c : Contention) (t : Attempt) : Contention :=
  match t.push.step c.queue with
  | (.going push, queue) => { c with queue, current := some (t.went c.queue push queue) }
  | (.done answer, queue) =>
    { c with
      queue
      current := none
      log := c.log ++ [⟨t.counted c.queue, answer, queue.toList⟩] }

def pop (c : Contention) : Contention :=
  match c.queue.take? with
  | none => c
  | some (a, queue) =>
    { c with
      queue
      received := c.received ++ [a]
      current := c.current.map fun t => t.disturb queue }

def step (c : Contention) : Move → Option Contention
  | .begin f =>
    match c.current with
    | some _ => none
    | none =>
      let entry : SharedFrame := ⟨c.begun.length, f⟩
      some { c with current := some (.start entry c.queue), begun := c.begun ++ [entry] }
  | .producer => c.current.map c.advance
  | .consumer => some c.pop

def steps (c : Contention) : List Move → Option Contention
  | [] => some c
  | m :: ms => (c.step m).bind fun c => c.steps ms

inductive MoveStep (c : Contention) : Move → Contention → Prop where
  | began (f : Frame) (hn : c.current = none) : MoveStep c (.begin f)
      { c with
        current := some (.start ⟨c.begun.length, f⟩ c.queue)
        begun := c.begun ++ [⟨c.begun.length, f⟩] }
  | went (t : Attempt) (p : Push SharedFrame) (q : Fifo SharedFrame) (ht : c.current = some t)
      (hp : t.push.PushStep c.queue (.going p, q)) : MoveStep c .producer
      { c with queue := q, current := some (t.went c.queue p q) }
  | finished (t : Attempt) (n : Nat) (q : Fifo SharedFrame) (ht : c.current = some t)
      (hp : t.push.PushStep c.queue (.done n, q)) : MoveStep c .producer
      { c with
        queue := q
        current := none
        log := c.log ++ [⟨t.counted c.queue, n, q.toList⟩] }
  | popped (a : SharedFrame) (l : List SharedFrame) (hq : c.queue.toList = a :: l) :
      MoveStep c .consumer
      { c with
        queue := ⟨c.queue.capacity, l⟩
        received := c.received ++ [a]
        current := c.current.map fun t => t.disturb ⟨c.queue.capacity, l⟩ }
  | idle (hq : c.queue.toList = []) : MoveStep c .consumer c

theorem step_cases {c c' : Contention} {m : Move} (h : c.step m = some c') : MoveStep c m c' := by
  cases m with
  | begin f =>
    simp only [step] at h
    split at h
    · cases h
    · rename_i hn; cases h; exact .began f hn
  | producer =>
    obtain ⟨t, ht, rfl⟩ := Option.map_eq_some_iff.1 h
    have hp := t.push.pushStep_cases c.queue
    unfold advance
    rcases hs : t.push.step c.queue with ⟨p | n, q⟩
    · rw [hs] at hp; exact .went t p q ht hp
    · rw [hs] at hp; exact .finished t n q ht hp
  | consumer =>
    cases h
    unfold pop
    rcases c with ⟨⟨k, _ | ⟨a, l⟩⟩, t, b, r, log⟩
    · exact .idle rfl
    · exact .popped a l rfl

end Contention

/-! ## One push -/

namespace Attempt

/-- Where a push can be. Once an entry has been refused the queue was full, and where nobody has
disturbed the push it still is, until the push has made room. -/
inductive Phase (q : Fifo SharedFrame) (t : Attempt) : Prop where
  | fresh (hs : t.push.stage = .offering) (hd : t.push.dropped = 0) (hn : t.steps = 0)
      (ho : t.offers = 0)
  | refused (hs : t.push.stage = .checking) (hd : t.push.dropped = 0) (hn : t.steps = 1)
      (ho : t.offers = 1) (hf : t.sawFull = true) (hq : t.disturbed = false → q.isFull = true)
  | full (hs : t.push.stage = .evicting) (hd : t.push.dropped = 0) (hn : t.steps = 2)
      (ho : t.offers = 1) (hf : t.sawFull = true) (hq : t.disturbed = false → q.isFull = true)
  | room (hs : t.push.stage = .offering) (hd : t.push.dropped ≤ 1) (hn : t.steps ≤ 3)
      (ho : t.offers = 1) (hf : t.sawFull = true) (hq : q.isFull = false)
      (hu : t.disturbed = false → t.push.dropped = 1)

/-- What is so during a push. -/
structure Sound (q : Fifo SharedFrame) (t : Attempt) : Prop where
  /-- Nobody adds entries. -/
  rest : ∃ m, q.toList = t.before.drop (m + t.push.dropped) ∧ (t.disturbed = false → m = 0)
  fits : t.before.length ≤ q.capacity
  length_evicted : t.evicted.length = t.push.dropped
  evicted_sublist : t.evicted.Sublist t.before
  evicted_eq : t.disturbed = false → t.evicted = t.before.take t.push.dropped
  wasFull : t.disturbed = false → 0 < t.push.dropped → t.before.length = q.capacity
  older : ∀ a ∈ t.before, a.serial < t.push.entry.serial
  saw : q.isFull = true → t.sawFull = true
  phase : Phase q t

end Attempt

/-- What is so of a finished push on a queue of some capacity. -/
structure Finished.Sound (capacity : Nat) (f : Finished) : Prop where
  offers_le : f.offers ≤ 2
  answer_le : f.answer ≤ 1
  answer_eq : f.sawFull = false → f.answer = 0
  length_evicted : f.evicted.length = f.answer
  evicted_eq : f.disturbed = false →
    f.evicted = if f.before.length = capacity then f.before.take 1 else []
  after_eq : f.disturbed = false → f.after = f.before.drop f.answer ++ [f.push.entry]
  not_evicted : f.push.entry ∉ f.evicted

namespace Attempt

section Sound
variable {q q' : Fifo SharedFrame} {t : Attempt} {a : SharedFrame} {l : List SharedFrame}

theorem Sound.start (hb : q.Bounded) (ho : ∀ b ∈ q.toList, b.serial < a.serial) :
    Sound q (.start a q) where
  rest := ⟨0, rfl, fun _ => rfl⟩
  fits := hb.2
  length_evicted := rfl
  evicted_sublist := List.nil_sublist _
  evicted_eq := fun _ => rfl
  wasFull := fun _ h => absurd h (Nat.not_lt_zero 0)
  older := ho
  saw := id
  phase := .fresh rfl rfl rfl rfl

/-! Where a step takes the push. -/

theorem Phase.refuse (h : Phase q t) (hs : t.push.stage = .offering) (hf : q.isFull = true) :
    Phase q (t.went q { t.push with stage := .checking } q) := by
  cases h with
  | fresh _ hd hn ho =>
    refine .refused rfl hd ?_ ?_ ?_ fun _ => hf
    · simp [went, counted, hn]
    · simp [went, counted, hs, ho]
    · simp [went, hf]
  | refused he | full he => rw [hs] at he; cases he
  | room _ _ _ _ _ hq => rw [hf] at hq; cases hq

theorem Phase.check (h : Phase q t) (hs : t.push.stage = .checking) :
    Phase q (t.went q
      { t.push with stage := if q.isFull then .evicting else .offering } q) := by
  cases h with
  | refused _ hd hn ho hf hq =>
    cases hfull : q.isFull with
    | true =>
      refine .full rfl hd ?_ ?_ ?_ fun _ => hfull
      · simp [went, counted, hn]
      · simp [went, counted, hs, ho]
      · simp [went, hf]
    | false =>
      refine .room rfl ?_ ?_ ?_ ?_ hfull fun hu => ?_
      · simp [went, hd]
      · simp [went, counted, hn]
      · simp [went, counted, hs, ho]
      · simp [went, hf]
      · rw [hq hu] at hfull; cases hfull
  | fresh he | full he | room he => rw [hs] at he; cases he

theorem Phase.of_evicting (h : Phase q t) (hs : t.push.stage = .evicting) :
    t.push.dropped = 0 ∧ (t.disturbed = false → q.isFull = true) := by
  cases h with
  | full _ hd _ _ _ hq => exact ⟨hd, hq⟩
  | fresh he | refused he | room he => rw [hs] at he; cases he

theorem Phase.evict {p : Push SharedFrame} (h : Phase q t) (hs : t.push.stage = .evicting)
    (hp : p.stage = .offering) (hd : p.dropped ≤ 1) (hu : t.disturbed = false → p.dropped = 1)
    (hlt : q'.isFull = false) : Phase q' (t.went q p q') := by
  cases h with
  | full _ _ hn ho hf =>
    refine .room hp hd ?_ ?_ ?_ hlt hu
    · simp [went, counted, hn]
    · simp [went, counted, hs, ho]
    · simp [went, hf]
  | fresh he | refused he | room he => rw [hs] at he; cases he

theorem Sound.size_le (h : Sound q t) : q.size ≤ q.capacity := by
  obtain ⟨m, hm, -⟩ := h.rest
  have := h.fits
  rw [Fifo.size, hm, List.length_drop]
  omega

theorem isFull_behind (hsize : q.size ≤ q.capacity) (hq : q.toList = a :: l) :
    (⟨q.capacity, l⟩ : Fifo SharedFrame).isFull = false := by
  rw [Fifo.size, hq] at hsize
  exact Fifo.isFull_of_lt hsize

theorem Sound.popped (h : Sound q t) (hq : q.toList = a :: l) :
    Sound ⟨q.capacity, l⟩ (t.disturb ⟨q.capacity, l⟩) := by
  have hlt : (⟨q.capacity, l⟩ : Fifo SharedFrame).isFull = false := isFull_behind h.size_le hq
  obtain ⟨m, hm, -⟩ := h.rest
  refine ⟨⟨m + 1, ?_, fun hu => (by cases hu)⟩, h.fits, h.length_evicted, h.evicted_sublist,
    fun hu => (by cases hu), fun hu => (by cases hu), h.older, ?_, ?_⟩
  · have : l = q.toList.drop 1 := by rw [hq]; rfl
    rw [this, hm, List.drop_drop]
    show t.before.drop (m + t.push.dropped + 1) = t.before.drop (m + 1 + t.push.dropped)
    congr 1
    omega
  · intro hf
    rw [hlt] at hf; cases hf
  · cases h.phase with
    | fresh hs hd hn ho => exact .fresh hs hd hn ho
    | refused hs hd hn ho hf =>
      exact .refused hs hd hn ho (by simp [disturb, hf]) fun hu => (by cases hu)
    | full hs hd hn ho hf =>
      exact .full hs hd hn ho (by simp [disturb, hf]) fun hu => (by cases hu)
    | room hs hd hn ho hf =>
      exact .room hs hd hn ho (by simp [disturb, hf]) hlt fun hu => (by cases hu)

theorem Sound.look {p : Push SharedFrame} (h : Sound q t) (he : p.entry = t.push.entry)
    (hd : p.dropped = t.push.dropped) (hev : (t.counted q).evicted = t.evicted)
    (hp : Phase q (t.went q p q)) : Sound q (t.went q p q) := by
  obtain ⟨m, hm, hm0⟩ := h.rest
  have hev : (t.went q p q).evicted = t.evicted := hev
  have hd : (t.went q p q).push.dropped = t.push.dropped := hd
  refine ⟨⟨m, ?_, hm0⟩, h.fits, ?_, ?_, ?_, ?_, ?_, ?_, hp⟩
  · rw [hd]; exact hm
  · rw [hev, hd]; exact h.length_evicted
  · rw [hev]; exact h.evicted_sublist
  · rw [hev, hd]; exact h.evicted_eq
  · rw [hd]; exact h.wasFull
  · intro b hb
    show b.serial < p.entry.serial
    rw [he]
    exact h.older b hb
  · intro hf
    simp [Attempt.went, hf]

theorem Sound.evict (h : Sound q t) (hs : t.push.stage = .evicting) (hq : q.toList = a :: l) :
    Sound ⟨q.capacity, l⟩ (t.went q
      { t.push with stage := .offering, dropped := t.push.dropped + 1 } ⟨q.capacity, l⟩) := by
  obtain ⟨m, hm, hm0⟩ := h.rest
  have hlt : (⟨q.capacity, l⟩ : Fifo SharedFrame).isFull = false := isFull_behind h.size_le hq
  have hphase := h.phase
  obtain ⟨hd, hfull⟩ := hphase.of_evicting hs
  have hnil : t.evicted = [] := by
    have := h.length_evicted
    rw [hd] at this
    exact List.eq_nil_of_length_eq_zero this
  have hev : (t.went q { t.push with stage := .offering, dropped := t.push.dropped + 1 }
      ⟨q.capacity, l⟩).evicted = [a] := by
    simp [Attempt.went, counted, hs, hnil, hq]
  have hmem : a ∈ t.before := List.mem_of_mem_drop (hm ▸ hq ▸ List.mem_cons_self ..)
  rw [hd, Nat.add_zero] at hm
  refine ⟨⟨m, ?_, hm0⟩, h.fits, ?_, ?_, ?_, ?_, h.older, ?_, ?_⟩
  · have : l = q.toList.drop 1 := by rw [hq]; rfl
    simp only [this, hm, List.drop_drop, Attempt.went, counted, hd]
  · rw [hev]; simp [Attempt.went, hd]
  · rw [hev]; exact List.singleton_sublist.2 hmem
  · intro hu
    have hbefore : t.before = a :: l := by
      rw [← hq, hm, hm0 hu]; rfl
    rw [hev]
    simp [Attempt.went, counted, hd, hbefore]
  · intro hu _
    have hbefore : t.before = q.toList := by rw [hm, hm0 hu]; rfl
    have hcap : q.capacity ≤ q.size := of_decide_eq_true (hfull hu)
    exact Nat.le_antisymm h.fits (hbefore ▸ hcap)
  · intro hf
    rw [hlt] at hf; cases hf
  · exact hphase.evict hs rfl (by simp [hd]) (fun _ => by simp [hd]) hlt

theorem Sound.went {p : Push SharedFrame} (h : Sound q t) (hc : 0 < q.capacity)
    (hp : t.push.PushStep q (.going p, q')) : Sound q' (t.went q p q') := by
  cases hp with
  | refused hs hf => exact h.look rfl rfl (by simp [counted, hs]) (h.phase.refuse hs hf)
  | checked hs => exact h.look rfl rfl (by simp [counted, hs]) (h.phase.check hs)
  | evicted a l hs hq => exact h.evict hs hq
  | missed hs hq =>
    have hlt : q.isFull = false := Fifo.isFull_of_lt (by rw [Fifo.size, hq]; exact hc)
    obtain ⟨hd, hfull⟩ := h.phase.of_evicting hs
    refine h.look rfl rfl (by simp [counted, hq]) (h.phase.evict hs rfl ?_ ?_ hlt)
    · simp [hd]
    · intro hu
      rw [hfull hu] at hlt; cases hlt

theorem Sound.finished {n : Nat} (h : Sound q t) (hp : t.push.PushStep q (.done n, q')) :
    Finished.Sound q.capacity ⟨t.counted q, n, q'.toList⟩ := by
  obtain ⟨m, hm, hm0⟩ := h.rest
  cases hp with
  | offered hs hfull =>
    have hev : (t.counted q).evicted = t.evicted := by simp [counted, hs]
    have hold : t.push.entry ∉ t.evicted := fun he =>
      Nat.lt_irrefl _ (h.older _ (h.evicted_sublist.subset he))
    have hlen : t.evicted.length = t.push.dropped := h.length_evicted
    have hafter : t.disturbed = false →
        q.toList ++ [t.push.entry] = t.before.drop t.push.dropped ++ [t.push.entry] := fun hu => by
      rw [hm, hm0 hu, Nat.zero_add]
    cases h.phase with
    | fresh _ hd hn ho =>
      refine ⟨?_, ?_, fun _ => hd, ?_, ?_, hafter, ?_⟩
      · simp [counted, hs, ho]
      · simp [hd]
      · rw [hev]; exact hlen
      · intro hu
        have hu : t.disturbed = false := hu
        have hbefore : t.before = q.toList := by rw [hm, hm0 hu, hd]; rfl
        have hlt : ¬ t.before.length = q.capacity := fun he => by
          have := of_decide_eq_false hfull
          rw [Fifo.size, ← hbefore, he] at this
          exact this (Nat.le_refl _)
        rw [hev]
        show t.evicted = if t.before.length = q.capacity then _ else _
        rw [if_neg hlt, h.evicted_eq hu, hd]
        rfl
      · rw [hev]; exact hold
    | room _ hd hn ho hf _ hu1 =>
      refine ⟨?_, hd, ?_, ?_, ?_, hafter, ?_⟩
      · simp [counted, hs, ho]
      · intro hs
        have hs : t.sawFull = false := hs
        rw [hf] at hs; cases hs
      · rw [hev]; exact hlen
      · intro hu
        have hu : t.disturbed = false := hu
        have h1 := hu1 hu
        rw [hev]
        show t.evicted = if t.before.length = q.capacity then t.before.take 1 else _
        rw [if_pos (h.wasFull hu (by omega)), h.evicted_eq hu, h1]
      · rw [hev]; exact hold
    | refused he | full he => rw [hs] at he; cases he

end Sound

end Attempt

/-! ## Any run -/

namespace Contention

/-- What is so after every run on a queue of capacity `n`. -/
structure Sound (n : Nat) (c : Contention) : Prop where
  capacity : c.queue.capacity = max n 1
  size_le : c.queue.size ≤ c.queue.capacity
  serials : c.begun.map SharedFrame.serial = List.range c.begun.length
  /-- Entries stay in the order of their pushes. -/
  order : (c.received ++ c.queue.toList ++ c.current.toList.map (·.push.entry)).Sublist c.begun
  counted : c.log.length + c.current.toList.length = c.begun.length
  /-- Every entry that was added was taken by the consumer, is queued or was dropped. -/
  balance : c.log.length = c.received.length + c.queue.size + (c.log.map Finished.answer).sum +
    (c.current.toList.map (·.push.dropped)).sum
  current : ∀ t, c.current = some t → t.Sound c.queue
  log : ∀ f ∈ c.log, f.Sound (max n 1)

section Sound
variable {n : Nat} {c c' : Contention} {m : Move}

theorem sound_new (n : Nat) : Sound n (new n) where
  capacity := rfl
  size_le := Nat.zero_le _
  serials := rfl
  order := List.Sublist.refl _
  counted := rfl
  balance := rfl
  current := nofun
  log := nofun

theorem Sound.serial_lt (h : Sound n c) {a : SharedFrame} (ha : a ∈ c.begun) :
    a.serial < c.begun.length := by
  have := List.mem_map_of_mem (f := SharedFrame.serial) ha
  rw [h.serials] at this
  exact List.mem_range.1 this

theorem Sound.began (h : Sound n c) (f : Frame) (hn : c.current = none) : Sound n { c with
    current := some (.start ⟨c.begun.length, f⟩ c.queue)
    begun := c.begun ++ [⟨c.begun.length, f⟩] } := by
  have hpos : 0 < c.queue.capacity := by rw [h.capacity]; omega
  have horder := h.order
  have hbalance := h.balance
  have hcounted := h.counted
  simp only [hn, Option.toList_none, List.map_nil, List.append_nil, List.sum_nil,
    List.length_nil, Nat.add_zero] at horder hbalance hcounted
  refine ⟨h.capacity, h.size_le, ?_, ?_, ?_, ?_, ?_, h.log⟩
  · simp [h.serials, List.range_succ]
  · exact horder.append (List.Sublist.refl _)
  · simp [hcounted]
  · simpa [Attempt.start, Push.start] using hbalance
  · intro t ht
    cases ht
    refine .start ⟨hpos, h.size_le⟩ fun b hb => h.serial_lt (horder.subset ?_)
    exact List.mem_append_right _ hb

theorem Sound.went {t : Attempt} {p : Push SharedFrame} {q : Fifo SharedFrame} (h : Sound n c)
    (ht : c.current = some t) (hp : t.push.PushStep c.queue (.going p, q)) :
    Sound n { c with queue := q, current := some (t.went c.queue p q) } := by
  have hpos : 0 < c.queue.capacity := by rw [h.capacity]; omega
  obtain ⟨hentry, hcap, hsub, hdrop⟩ := hp.going
  have hsound := (h.current t ht).went hpos hp
  have horder := h.order
  have hbalance := h.balance
  have hcounted := h.counted
  simp only [ht, Option.toList_some, List.map_cons, List.map_nil, List.sum_cons, List.sum_nil,
    List.length_cons, List.length_nil] at horder hbalance hcounted
  refine ⟨hcap.trans h.capacity, hsound.size_le, h.serials, ?_, hcounted, ?_, ?_, h.log⟩
  · simp only [Option.toList_some, List.map_cons, List.map_nil, Attempt.went, hentry]
    refine .trans ?_ horder
    exact ((List.Sublist.refl _).append hsub).append (List.Sublist.refl _)
  · simp only [Option.toList_some, List.map_cons, List.map_nil, List.sum_cons, List.sum_nil,
      Attempt.went]
    omega
  · intro t' ht'
    cases ht'
    exact hsound

theorem Sound.finished {t : Attempt} {k : Nat} {q : Fifo SharedFrame} (h : Sound n c)
    (ht : c.current = some t) (hp : t.push.PushStep c.queue (.done k, q)) : Sound n { c with
      queue := q
      current := none
      log := c.log ++ [⟨t.counted c.queue, k, q.toList⟩] } := by
  have hfin := (h.current t ht).finished hp
  obtain ⟨rfl, hfull, rfl⟩ := hp.done
  have hlt : c.queue.size < c.queue.capacity := Nat.lt_of_not_le (of_decide_eq_false hfull)
  have horder := h.order
  have hbalance := h.balance
  have hcounted := h.counted
  simp only [ht, Option.toList_some, List.map_cons, List.map_nil, List.sum_cons, List.sum_nil,
    List.length_cons, List.length_nil] at horder hbalance hcounted
  refine ⟨h.capacity, ?_, h.serials, ?_, ?_, ?_, fun t' ht' => (by cases ht'), ?_⟩
  · rw [Fifo.size, List.length_append]; exact hlt
  · simpa using horder
  · simpa using hcounted
  · simp only [Fifo.size, List.length_append, List.map_append, List.map_cons, List.map_nil,
      List.sum_append, List.sum_cons, List.sum_nil, List.length_cons, List.length_nil,
      Option.toList_none] at hbalance ⊢
    omega
  · intro f hf
    rcases List.mem_append.1 hf with hf | hf
    · exact h.log f hf
    · obtain rfl := List.mem_singleton.1 hf
      rw [← h.capacity]
      exact hfin

theorem Sound.popped {a : SharedFrame} {l : List SharedFrame} (h : Sound n c)
    (hq : c.queue.toList = a :: l) : Sound n { c with
      queue := ⟨c.queue.capacity, l⟩
      received := c.received ++ [a]
      current := c.current.map fun t => t.disturb ⟨c.queue.capacity, l⟩ } := by
  have hsize := h.size_le
  have horder := h.order
  have hbalance := h.balance
  have hcounted := h.counted
  simp only [Fifo.size, hq, List.length_cons] at hbalance hsize
  refine ⟨h.capacity, ?_, h.serials, ?_, ?_, ?_, ?_, h.log⟩
  · exact Nat.le_of_succ_le hsize
  · rw [hq] at horder
    cases hc : c.current with
    | none => simpa [hc] using horder
    | some t => simpa [hc, Attempt.disturb] using horder
  · cases hc : c.current with
    | none => simpa [hc] using hcounted
    | some t => simpa [hc] using hcounted
  · have hmap : (c.current.map fun t => t.disturb ⟨c.queue.capacity, l⟩).toList.map
        (·.push.dropped) = c.current.toList.map (·.push.dropped) := by
      cases c.current <;> rfl
    rw [hmap]
    simp only [Fifo.size, List.length_append, List.length_cons, List.length_nil]
    omega
  · intro t' ht'
    obtain ⟨t, ht, rfl⟩ := Option.map_eq_some_iff.1 ht'
    exact (h.current t ht).popped hq

theorem Sound.step (h : Sound n c) (hs : MoveStep c m c') : Sound n c' := by
  cases hs with
  | began f hn => exact h.began f hn
  | went t p q ht hp => exact h.went ht hp
  | finished t k q ht hp => exact h.finished ht hp
  | popped a l hq => exact h.popped hq
  | idle hq => exact h

theorem sound_of_steps : ∀ {ms : List Move} {c c' : Contention}, c.steps ms = some c' →
    Sound n c → Sound n c'
  | [], c, c', h, hc => by
    obtain rfl : c = c' := by simpa [steps] using h
    exact hc
  | m :: ms, c, c', h, hc => by
    obtain ⟨d, hd, h⟩ := Option.bind_eq_some_iff.1 h
    exact sound_of_steps h (hc.step (step_cases hd))

/-- What became of the push of `a`, which had made `k` steps, after some moves: it is finished, or
it is in progress and has made the steps among the moves. -/
def Followed (a : SharedFrame) (k : Nat) (ms : List Move) (c : Contention) : Prop :=
  (∃ f ∈ c.log, f.push.entry = a) ∨
    ∃ t, c.current = some t ∧ t.push.entry = a ∧ t.steps = k + ms.count .producer

theorem Followed.step {a : SharedFrame} {k : Nat} {ms : List Move} (h : Followed a k ms c)
    (hs : MoveStep c m c') : Followed a k (ms ++ [m]) c' := by
  rcases h with ⟨f, hf, ha⟩ | ⟨t, ht, ha, hk⟩
  · refine .inl ⟨f, ?_, ha⟩
    cases hs with
    | finished => exact List.mem_append_left _ hf
    | _ => exact hf
  · cases hs with
    | began f hn => rw [hn] at ht; cases ht
    | went t' p q ht' hp =>
      obtain rfl : t' = t := Option.some.inj (ht'.symm.trans ht)
      refine .inr ⟨_, rfl, hp.going.1.trans ha, ?_⟩
      simp only [Attempt.went, Attempt.counted, hk, List.count_append, List.count_singleton_self]
      omega
    | finished t' i q ht' hp =>
      obtain rfl : t' = t := Option.some.inj (ht'.symm.trans ht)
      exact .inl ⟨_, List.mem_append_right _ (List.mem_singleton_self _), ha⟩
    | popped b l hq =>
      refine .inr ⟨t.disturb ⟨c.queue.capacity, l⟩, by rw [ht]; rfl, ha, ?_⟩
      simpa [Attempt.disturb, List.count_append] using hk
    | idle hq =>
      refine .inr ⟨t, ht, ha, ?_⟩
      simpa [List.count_append] using hk

theorem followed_of_steps {a : SharedFrame} {k : Nat} : ∀ {ms ms₀ : List Move}
    {c c' : Contention}, c.steps ms = some c' → Followed a k ms₀ c → Followed a k (ms₀ ++ ms) c'
  | [], ms₀, c, c', h, hc => by
    obtain rfl : c = c' := by simpa [steps] using h
    simpa using hc
  | m :: ms, ms₀, c, c', h, hc => by
    obtain ⟨d, hd, h⟩ := Option.bind_eq_some_iff.1 h
    have := followed_of_steps h (hc.step (step_cases hd))
    rwa [List.append_assoc] at this

theorem Sound.steps_le (h : Sound n c) {t : Attempt} (ht : c.current = some t) :
    t.steps ≤ 3 ∧ t.offers ≤ 1 := by
  cases (h.current t ht).phase with
  | fresh _ _ hn ho | refused _ _ hn ho | full _ _ hn ho => omega
  | room _ _ hn ho => omega

/-- With its fourth step at the latest a push is finished, whatever the consumer does. -/
theorem finishes (h : Sound n c) {t : Attempt} (ht : c.current = some t) {ms : List Move}
    (hs : c.steps ms = some c') (hm : 4 ≤ t.steps + ms.count .producer) :
    ∃ f ∈ c'.log, f.push.entry = t.push.entry := by
  have hc : Followed t.push.entry t.steps [] c := .inr ⟨t, ht, rfl, rfl⟩
  rcases followed_of_steps hs hc with hf | ⟨t', ht', -, hk⟩
  · exact hf
  · have := ((sound_of_steps hs h).steps_le ht').1
    rw [List.nil_append] at hk
    omega

/-- What a queue keeps to, whatever its producer and its consumer do: it is never longer than its
capacity; the consumer gets entries in the order of their pushes, none twice; every finished push
is accounted for; a push is never kept waiting, is finished with its fourth step, offers its entry
at most twice and drops at most one entry, none if the queue was never full; undisturbed, it drops
the oldest entry of a full queue and nothing else, and never its own. -/
theorem accounts (n : Nat) (ms : List Move) (h : (new n).steps ms = some c) :
    c.queue.size ≤ max n 1 ∧
    (c.received.Sublist c.begun ∧ (c.received.map SharedFrame.serial).Nodup) ∧
    (c.current = none → c.log.length = c.begun.length ∧
      c.log.length = c.received.length + c.queue.size + (c.log.map Finished.answer).sum) ∧
    (∀ t, c.current = some t → t.offers ≤ 1 ∧ (c.step .producer).isSome = true ∧
      ∀ ms' c', c.steps ms' = some c' → 4 ≤ t.steps + ms'.count .producer →
        ∃ f ∈ c'.log, f.push.entry = t.push.entry) ∧
    (∀ f ∈ c.log, f.offers ≤ 2 ∧ f.answer ≤ 1 ∧ (f.sawFull = false → f.answer = 0) ∧
      f.evicted.length = f.answer ∧
      (f.disturbed = false →
        f.evicted = (if f.before.length = max n 1 then f.before.take 1 else []) ∧
        f.after = f.before.drop f.answer ++ [f.push.entry]) ∧
      f.push.entry ∉ f.evicted) := by
  have hs := sound_of_steps h (sound_new n)
  have hsub : c.received.Sublist c.begun := by
    refine .trans ?_ hs.order
    rw [List.append_assoc]
    exact List.sublist_append_left _ _
  have hnodup : (c.received.map SharedFrame.serial).Nodup := by
    refine (hsub.map SharedFrame.serial).nodup ?_
    rw [hs.serials]
    exact List.nodup_range
  refine ⟨hs.capacity ▸ hs.size_le, ⟨hsub, hnodup⟩, ?_, ?_, ?_⟩
  · intro hn
    have hcounted := hs.counted
    have hbalance := hs.balance
    simp only [hn, Option.toList_none, List.length_nil, List.map_nil, List.sum_nil,
      Nat.add_zero] at hcounted hbalance
    exact ⟨hcounted, hbalance⟩
  · intro t ht
    refine ⟨(hs.steps_le ht).2, ?_, fun ms' c' h' hm => finishes hs ht h' hm⟩
    simp [step, ht]
  · intro f hf
    have hf := hs.log f hf
    exact ⟨hf.offers_le, hf.answer_le, hf.answer_eq, hf.length_evicted,
      fun hu => ⟨hf.evicted_eq hu, hf.after_eq hu⟩, hf.not_evicted⟩

/-- On a queue for one entry the second push finds the first entry there; the consumer takes it
before the push can drop it. -/
def sampleMoves : List Move :=
  [.begin [[1]], .producer, .begin [[2]], .producer, .producer, .consumer, .producer, .producer]

theorem accounts_sample : ∃ c, (new 0).steps sampleMoves = some c ∧ c.current = none ∧
    c.received = [⟨0, [[1]]⟩] ∧ c.queue.toList = [⟨1, [[2]]⟩] ∧
    c.log.length = c.received.length + c.queue.size + (c.log.map Finished.answer).sum := by
  have hrun : ((new 0).steps sampleMoves).any (fun c =>
      decide (c.current = none ∧ c.received = [⟨0, [[1]]⟩] ∧ c.queue.toList = [⟨1, [[2]]⟩])) =
        true := by decide
  simp only [Option.any_eq_true, decide_eq_true_eq] at hrun
  obtain ⟨c, hc, hn, hr, hq⟩ := hrun
  exact ⟨c, hc, hn, hr, hq, ((accounts 0 sampleMoves hc).2.2.1 hn).2⟩

end Sound

end Contention

end MicStream
