import Mathlib.Algebra.Order.BigOperators.Group.List
import Mathlib.Algebra.Order.Ring.Nat
import MicStream.Proofs.Queue.Contention
import MicStream.Proofs.Stream.Blocks
import MicStream.Proofs.Stream.Lifecycle
/-!
# What the threads still have to do

When the running flag is clear the producer takes one further period at most,
and each of the three threads has a known number of steps before it: those of
the producer up to its end (`ProducerStage.ahead`), one for each block that is
queued or buffered, one for each frame that is queued for the localizer. A
thread may do less, but never more, so each of its steps leaves less work.

Results:
* `PushStep.left`: a push comes to its end.
* `ProducerStep.work_lt`, `EncoderStep.work_lt`, `LocalizerStep.work_lt`: a
  step of a thread leaves less work.
-/
namespace MicStream

def Label.works : Label → Bool
  | .producer | .encoder | .encoderQuits | .localizer | .localizerQuits => true
  | _ => false

theorem Label.plain_of_works {l : Label} (h : l.works = true) :
    l.call? = none ∧ l.starves = false ∧ l.equips = false := by
  cases l with
  | producer | encoder | encoderQuits | localizer | localizerQuits => exact ⟨rfl, rfl, rfl⟩
  | _ => cases h

/-! ## Pushes -/

/-- Steps that are left of a push when nobody else pushes. -/
def Push.left {α : Type} (p : Push α) (q : Fifo α) : Nat :=
  match p.stage with
  | .offering => if q.isFull then 4 else 1
  | .checking => if q.isFull then 3 else 2
  | .evicting => 2

namespace Push

variable {α : Type} {p p' : Push α} {q q' : Fifo α}

theorem left_bounds (p : Push α) (q : Fifo α) : 0 < p.left q ∧ p.left q ≤ 4 := by
  unfold left
  split
  · split <;> omega
  · split <;> omega
  · omega

theorem left_of_room (p : Push α) (h : q'.isFull = false) : p.left q' ≤ p.left q := by
  unfold left
  split
  · rw [h, if_neg Bool.false_ne_true]; split <;> omega
  · rw [h, if_neg Bool.false_ne_true]; split <;> omega
  · exact Nat.le_refl 2

theorem PushStep.bounded {r : Progress α} (h : PushStep p q (r, q')) (hb : q.Bounded) :
    q'.Bounded := by
  cases h with
  | offered hs hq => exact Fifo.bounded_offer hb (Fifo.offer?_eq_some_iff.2 ⟨hq, rfl⟩)
  | evicted a l hs hq => exact Fifo.bounded_take hb (Fifo.take?_eq_some_iff.2 ⟨hq, rfl⟩)
  | refused | checked | missed => exact hb

end Push

theorem Fifo.isFull_take {α : Type} {q q' : Fifo α} {a : α} (hb : q.Bounded)
    (h : q.take? = some (a, q')) : q'.isFull = false := by
  obtain ⟨hl, hc⟩ := take?_eq_some_iff.1 h
  apply isFull_of_lt
  have hsize : q.size = q'.size + 1 := by simp [size, hl]
  have hle := hb.2
  omega

/-- Behind an eviction there is room, so a push comes to its end. -/
theorem Push.PushStep.left {α : Type} {p p' : Push α} {q q' : Fifo α}
    (h : PushStep p q (.going p', q')) (hb : q.Bounded) : p'.left q' < p.left q := by
  cases h with
  | refused hs hq => simp [Push.left, hs, hq]
  | checked hs => cases hq : q.isFull <;> simp [Push.left, hs, hq]
  | evicted a l hs hq =>
    have hroom : (⟨q.capacity, l⟩ : Fifo α).isFull = false :=
      Fifo.isFull_take hb (Fifo.take?_eq_some_iff.2 ⟨hq, rfl⟩)
    simp [Push.left, hs, hroom]
  | missed hs hq =>
    have hroom : q.isFull = false := Fifo.isFull_of_lt (by simpa [Fifo.size, hq] using hb.1)
    simp [Push.left, hs, hroom]

/-! ## Frames -/

namespace Capture

theorem length_everyNth_le {α : Type} (stride : Nat) : ∀ (n : Nat) (xs : List α),
    (everyNth stride n xs).length ≤ xs.length
  | _, [] => by simp [everyNth]
  | 0, x :: rest => by
    rw [everyNth]
    exact Nat.succ_le_succ (length_everyNth_le stride (stride - 1) rest)
  | n + 1, _ :: rest => by
    rw [everyNth]
    exact Nat.le_succ_of_le (length_everyNth_le stride n rest)

theorem length_headD_readSplit {c c' : Capture} {r : PeriodReply} {f : List (List Int16)}
    {e : Except CaptureError Unit} (h : c.readSplit r [] = (c', f, e)) :
    (f.headD []).length ≤ c.buffer.length := by
  have hchannel : ∀ n (xs : List Int16), ((split n xs).headD []).length ≤ xs.length := by
    intro n xs
    cases n with
    | zero => simp [split]
    | succ n =>
      rw [split, List.range_succ_eq_map, List.map_cons, List.headD_cons]
      exact Nat.le_trans (length_everyNth_le _ _ _) (List.length_take_le' _ _)
  unfold readSplit at h
  split at h
  · dsimp only at h
    split at h
    · cases h; exact Nat.zero_le _
    · cases h
      have hlen := hchannel c.channels.toNat (overwrite r.written c.buffer)
      rw [length_overwrite] at hlen
      cases hsplit : split c.channels.toNat (overwrite r.written c.buffer) with
      | nil => exact Nat.zero_le _
      | cons g gs =>
        rw [hsplit] at hlen
        simpa using hlen
  · cases h; exact Nat.zero_le _

end Capture

/-- Steps that a queued frame means for the encoder, at most. -/
def SharedFrame.load (a : SharedFrame) : Nat := (a.frame.headD []).length + 2

def Fifo.load (q : Fifo SharedFrame) : Nat := (q.toList.map SharedFrame.load).sum

namespace Fifo

theorem load_offer (q : Fifo SharedFrame) (a : SharedFrame) :
    load ⟨q.capacity, q.toList ++ [a]⟩ = q.load + a.load := by
  simp [load]

theorem load_take {q q' : Fifo SharedFrame} {a : SharedFrame} (h : q.take? = some (a, q')) :
    q.load = a.load + q'.load := by
  simp [load, toList_take h]

theorem load_sublist {q q' : Fifo SharedFrame} (h : q'.toList.Sublist q.toList) :
    q'.load ≤ q.load :=
  (h.map SharedFrame.load).sum_le_sum fun _ _ => Nat.zero_le _

end Fifo

/-! ## Threads -/

/-- Steps of a producer up to its end, at most, when the running flag is clear, and steps that the
frame it is about to push means for the others. It reads into a buffer of so many samples. -/
def ProducerStage.ahead (samples : Nat) (q : FrameQueues) : ProducerStage → Nat
  | .ready | .finished => 0
  | .leavingLocalize => 1
  | .leaving => 2
  | .checking => 3
  | .pushingLocalize p => 5 + p.left q.localize.queue
  | .pushingEncode p => 9 + p.entry.load + p.left q.encode.queue
  | .reading => 16 + samples

def EncoderThread.ahead (e : EncoderThread) : Nat :=
  match e.stage with
  | .ready | .finished => 0
  | .waiting => e.coding.mono.length + 1
  | .coding => e.coding.mono.length + 2

def LocalizerStage.ahead : LocalizerStage → Nat
  | .ready | .finished => 0
  | .waiting => 1
  | .holding _ => 2

namespace Session

/-- Steps that the threads of a session have before them, at most, when the running flag is
clear. -/
def work (x : Session) : Nat :=
  x.producer.stage.ahead x.producer.capture.buffer.length x.queues + x.queues.encode.queue.load +
    x.encoder.ahead + 2 * x.queues.localize.queue.size +
      (x.localizer.map fun l => l.stage.ahead).getD 0

/-- Queues within their capacity, and blocks that have samples. -/
structure Sized (x : Session) : Prop where
  encode : x.queues.encode.queue.Bounded
  localize : x.queues.localize.queue.Bounded
  block : 0 < x.encoder.coding.blockLength

end Session

namespace State

section Work
variable {s t : State} {x y : Session}

theorem ProducerStep.sized (hc : ProducerStep s x t) (h : x.Sized) (hy : t.session = some y) :
    y.Sized := by
  cases hc with
  | goingEncode p p' q hs hq | doneEncode p p' q hs hq =>
    cases hy
    exact ⟨(hq ▸ Push.pushStep_cases p _).bounded h.encode, h.localize, h.block⟩
  | goingLocalize p p' q hs hq | doneLocalize p p' q hs hq =>
    cases hy
    exact ⟨h.encode, (hq ▸ Push.pushStep_cases p _).bounded h.localize, h.block⟩
  | _ =>
    cases hy
    exact ⟨h.encode, h.localize, h.block⟩

/-- The producer, when the running flag is clear, takes one further period at most. -/
theorem ProducerStep.work_lt (hc : ProducerStep s x t) (h : x.Sized) (hr : s.running = false)
    (hy : t.session = some y) : y.work < x.work := by
  cases hc with
  | checked hs =>
    cases hy
    simp [Session.work, hs, hr, ProducerStage.ahead]
  | failed hs =>
    cases hy
    simp only [Session.work, hs, ProducerStage.ahead]
    omega
  | read p rest c f r hs hp hc =>
    cases hy
    have hf := Capture.length_headD_readSplit hc
    obtain ⟨-, hpush⟩ := Push.left_bounds (.start ⟨x.queues.pushed, f⟩) x.queues.encode.queue
    simp only [Session.work, hs]
    split
    · simp only [ProducerStage.ahead]
      omega
    · simp only [ProducerStage.ahead, Push.start, SharedFrame.load] at hpush ⊢
      omega
  | goingEncode p p' q hs hq =>
    cases hy
    have hp := hq ▸ Push.pushStep_cases p x.queues.encode.queue
    have hleft := hp.left h.encode
    obtain ⟨he, -, hsub, -⟩ := hp.going
    have hload := Fifo.load_sublist hsub
    simp only [Session.work, hs, ProducerStage.ahead, he]
    omega
  | doneEncode p n q hs hq =>
    cases hy
    obtain ⟨-, -, rfl⟩ := (hq ▸ Push.pushStep_cases p x.queues.encode.queue).done
    have hload := Fifo.load_offer x.queues.encode.queue p.entry
    obtain ⟨hpos, -⟩ := p.left_bounds x.queues.encode.queue
    obtain ⟨-, hpush⟩ := Push.left_bounds (.start p.entry) x.queues.localize.queue
    simp only [Session.work, hs, ProducerStage.ahead]
    omega
  | goingLocalize p p' q hs hq =>
    cases hy
    have hp := hq ▸ Push.pushStep_cases p x.queues.localize.queue
    have hleft := hp.left h.localize
    obtain ⟨-, -, hsub, -⟩ := hp.going
    have hsize : q.size ≤ x.queues.localize.queue.size := hsub.length_le
    simp only [Session.work, hs, ProducerStage.ahead]
    omega
  | doneLocalize p n q hs hq =>
    cases hy
    obtain ⟨-, -, rfl⟩ := (hq ▸ Push.pushStep_cases p x.queues.localize.queue).done
    obtain ⟨hpos, -⟩ := p.left_bounds x.queues.localize.queue
    simp only [Session.work, hs, ProducerStage.ahead, Fifo.size, List.length_append,
      List.length_singleton]
    omega
  | left hs =>
    cases hy
    simp [Session.work, hs, ProducerStage.ahead, Channel.close]
  | finished hs =>
    cases hy
    simp [Session.work, hs, ProducerStage.ahead, Channel.close]

/-- A push does not become longer when a consumer takes a frame. -/
theorem ahead_of_taken {e l : Channel SharedFrame}
    (he : ∀ p : Push SharedFrame, p.left e.queue ≤ p.left x.queues.encode.queue)
    (hl : ∀ p : Push SharedFrame, p.left l.queue ≤ p.left x.queues.localize.queue) (n : Nat) :
    x.producer.stage.ahead n { x.queues with encode := e, localize := l } ≤
      x.producer.stage.ahead n x.queues := by
  cases x.producer.stage with
  | pushingEncode p => exact Nat.add_le_add_left (he p) _
  | pushingLocalize p => exact Nat.add_le_add_left (hl p) _
  | _ => exact Nat.le_refl _

theorem EncoderStep.sized (hc : EncoderStep s x t) (h : x.Sized) (hy : t.session = some y) :
    y.Sized := by
  cases hc with
  | took a q hs hq =>
    cases hy
    exact ⟨Fifo.bounded_take h.encode (Channel.receive_entry.1 hq).1, h.localize, h.block⟩
  | ended =>
    cases hy
    exact ⟨h.encode, h.localize, h.block⟩
  | coded p c n hs hb =>
    rw [tellAny_session] at hy
    cases hy
    exact ⟨h.encode, h.localize, by rw [Coding.blockLength_block hb]; exact h.block⟩
  | failed e c n hs hb =>
    cases hy
    have hlen := (Coding.frame_block x.encoder.coding
      (s.rig.codec.reply (x.encoder.coding.nextBlock :: s.rig.blocks))).2
    rw [hb] at hlen
    exact ⟨h.encode, h.localize, hlen ▸ h.block⟩

/-- What the encoder buffers goes away block by block. -/
theorem EncoderStep.work_lt (hc : EncoderStep s x t) (h : x.Sized) (hy : t.session = some y) :
    y.work < x.work := by
  cases hc with
  | took a q hs hq =>
    cases hy
    have htake := (Channel.receive_entry.1 hq).1
    have hload := Fifo.load_take htake
    have hpush := ahead_of_taken (x := x) (e := q) (l := x.queues.localize)
      (fun p => p.left_of_room (Fifo.isFull_take h.encode htake)) (fun _ => Nat.le_refl _)
      x.producer.capture.buffer.length
    have hlen : (x.encoder.coding.take a.frame).mono.length + 2 =
        x.encoder.coding.mono.length + a.load := by
      simp [Coding.take, SharedFrame.load, Nat.add_assoc]
    simp only [Session.work, EncoderThread.ahead, hs]
    split <;> (dsimp only at *; omega)
  | ended hs =>
    cases hy
    simp only [Session.work, EncoderThread.ahead, hs]
    omega
  | coded p c n hs hb =>
    rw [tellAny_session] at hy
    cases hy
    have hmono : c.mono.length = x.encoder.coding.mono.length - x.encoder.coding.blockLength := by
      rw [Coding.mono_block hb, List.length_drop]
    have hblock := h.block
    simp only [Session.work, EncoderThread.ahead, hs]
    cases hhas : c.hasBlock with
    | false =>
      simp only [Bool.false_eq_true, if_false]
      omega
    | true =>
      have hle : c.blockLength ≤ c.mono.length := of_decide_eq_true hhas
      rw [Coding.blockLength_block hb] at hle
      simp only [if_true]
      omega
  | failed e c n hs hb =>
    cases hy
    simp only [Session.work, EncoderThread.ahead, hs]
    omega

theorem LocalizerStep.sized (hc : LocalizerStep s x t) (h : x.Sized) (hy : t.session = some y) :
    y.Sized := by
  cases hc with
  | took l a q hl hs hq =>
    cases hy
    exact ⟨h.encode, Fifo.bounded_take h.localize (Channel.receive_entry.1 hq).1, h.block⟩
  | located =>
    rw [tellAny_session] at hy
    cases hy
    exact ⟨h.encode, h.localize, h.block⟩
  | _ =>
    cases hy
    exact ⟨h.encode, h.localize, h.block⟩

/-- The localizer takes two steps for a frame. -/
theorem LocalizerStep.work_lt (hc : LocalizerStep s x t) (h : x.Sized)
    (hy : t.session = some y) : y.work < x.work := by
  cases hc with
  | took l a q hl hs hq =>
    cases hy
    have htake := (Channel.receive_entry.1 hq).1
    have hsize : x.queues.localize.queue.size = q.queue.size + 1 := by
      simp [Fifo.size, Fifo.toList_take htake]
    have hpush := ahead_of_taken (x := x) (e := x.queues.encode) (l := q) (fun _ => Nat.le_refl _)
      (fun p => p.left_of_room (Fifo.isFull_take h.localize htake))
      x.producer.capture.buffer.length
    simp only [Session.work, hl, Option.map_some, Option.getD_some, hs, LocalizerStage.ahead]
    dsimp only at hpush
    omega
  | ended l hl hs =>
    cases hy
    simp [Session.work, hl, hs, LocalizerStage.ahead]
  | located l f v tr hl hs =>
    rw [tellAny_session] at hy
    cases hy
    simp [Session.work, hl, hs, LocalizerStage.ahead]
  | ignored l f hl hs =>
    cases hy
    simp [Session.work, hl, hs, LocalizerStage.ahead]

/-- Nobody but the hardware itself lets go of a device. -/
theorem SessionStep.held {l : Label} (hc : SessionStep s x l t) (hl : l.works = true) :
    t.rig.device.held = s.rig.device.held := by
  cases hc with
  | producer _ hc => cases hc <;> rfl
  | encoder _ hc =>
    cases hc with
    | coded => rw [tellAny_rig]
    | _ => rfl
  | localizer _ hc =>
    cases hc with
    | located => rw [tellAny_rig]
    | _ => rfl
  | encoderQuit | localizerQuit => rfl
  | _ => cases hl

theorem SessionStep.sized {l : Label} (hc : SessionStep s x l t) (hl : l.starves = false)
    (hx : s.session = some x) (h : x.Sized) (hy : t.session = some y) : y.Sized := by
  have same : ∀ z : Session, z.queues = x.queues → z.encoder.coding = x.encoder.coding →
      z.Sized := fun z hq hc =>
    ⟨hq ▸ h.encode, hq ▸ h.localize, by rw [hc]; exact h.block⟩
  cases hc with
  | letGo | refused =>
    obtain rfl := Option.some.inj (hx.symm.trans hy)
    exact h
  | restarted | stopped =>
    simp only [signal, hx] at hy
    cases hy
    exact same _ rfl rfl
  | reclaimed a => rw [(reclaim_gone x a).session] at hy; cases hy
  | spawned w => cases w <;> (cases hy; exact same _ rfl rfl)
  | announced =>
    obtain rfl : { x with announced := true } = y := by simpa [announce, answer] using hy
    exact same _ rfl rfl
  | spawnFailed => cases hl
  | producer _ hc => exact hc.sized h hy
  | encoder _ hc => exact hc.sized h hy
  | localizer _ hc => exact hc.sized h hy
  | encoderQuit | localizerQuit =>
    cases hy
    exact same _ rfl rfl

/-- Each step of a thread leaves less work when the running flag is clear. -/
theorem SessionStep.work_lt {l : Label} (hc : SessionStep s x l t) (hl : l.works = true)
    (h : x.Sized) (hr : s.running = false) (hy : t.session = some y) : y.work < x.work := by
  cases hc with
  | producer _ hc => exact hc.work_lt h hr hy
  | encoder _ hc => exact hc.work_lt h hy
  | localizer _ hc => exact hc.work_lt h hy
  | encoderQuit hs =>
    cases hy
    simp only [Session.work, EncoderThread.ahead, hs]
    omega
  | localizerQuit m hm hs =>
    cases hy
    simp [Session.work, hm, hs, LocalizerStage.ahead]
  | _ => cases hl

end Work

end State

end MicStream
