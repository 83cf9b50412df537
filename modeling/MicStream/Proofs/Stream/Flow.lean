import MicStream.Proofs.Queue.Contention
import MicStream.Proofs.Stream.EncoderThread
import MicStream.Proofs.Stream.LocalizerThread
/-!
# From the device to the consumers

When a device delivers no more periods than a queue has room for, the
producer never meets a full queue, however slow the consumers are: every push
is done with its first step. When the producer leaves, the consumers still
find all that is queued before they find that nothing more will come.

**Invariant** (`Flow`). For each consumer the frames that it took, those in
its queue, the one that is being pushed and those that the device still holds
make up the captured frames, in this order; and they fit the queue.

Results:
* `Flow.read`, `Flow.pushEncode`, `Flow.taken` and the like: what the threads
  do keeps the invariant.
* `Flow.taken_of_ended`: a consumer that has ended took all frames.
* `SessionStep.quiet`: a step after which the session is not asked to end is
  one of seven kinds (`QuietStep`).
* `flow_of_run`: the invariant holds as long as the session is not asked to
  end.
-/
namespace MicStream

/-- The frames that a capture makes of some periods. A frame without channels is not pushed. -/
def Capture.frames : Capture → List (List Int16) → List Frame
  | _, [] => []
  | c, p :: ps =>
    let (c', f, _) := c.readSplit ⟨resize c.periodLength p, none⟩ []
    (if f.isEmpty then [] else [f]) ++ frames c' ps

def Channel.frames (c : Channel SharedFrame) : List Frame := c.queue.toList.map SharedFrame.frame

theorem FrameQueues.channel_pushed (q : FrameQueues) (n : Nat) (c : Consumer) :
    ({ q with pushed := n } : FrameQueues).channel c = q.channel c := by
  cases c <;> rfl

namespace ProducerStage

def left : ProducerStage → Bool
  | .leaving | .leavingLocalize | .finished => true
  | _ => false

def closed : ProducerStage → Consumer → Bool
  | .leavingLocalize, .encoder | .finished, _ => true
  | _, _ => false

/-- The frame that is still to be added to the queue of a consumer. -/
def pending : ProducerStage → Consumer → List Frame
  | .pushingEncode p, _ | .pushingLocalize p, .localizer => [p.entry.frame]
  | _, _ => []

/-- A producer that has closed a queue has left, and has nothing to push to it. -/
theorem left_of_closed {stage : ProducerStage} {c : Consumer} (h : stage.closed c = true) :
    stage.left = true ∧ stage.pending c = [] := by
  revert h
  cases stage <;> cases c <;> simp [closed, left, pending]

def push? : ProducerStage → Option (Push SharedFrame)
  | .pushingEncode p | .pushingLocalize p => some p
  | _ => none

end ProducerStage

/-- Whether a consumer is there and has ended. -/
def Session.hasEnded (y : Session) : Consumer → Prop
  | .encoder => y.encoder.stage = .finished
  | .localizer => ∃ l, y.localizer = some l ∧ l.stage = .finished

/-- No frame is lost on the way from the device to the consumers: `fs` are the captured frames,
`room` is the room in each queue, the consumers took the frames `t`, and `ended` tells which of
them have ended; `periods` are still to be read. -/
structure Flow (fs : List Frame) (room : Nat) (t : Consumer → List Frame) (ended : Consumer → Prop)
    (periods : List (List Int16)) (running : Bool) (q : FrameQueues) (p : Producer) : Prop where
  whole : ∀ c, t c ++ (q.channel c).frames ++ p.stage.pending c ++ p.capture.frames periods = fs
  fits : ∀ c, (t c).length + (q.channel c).queue.size + (p.stage.pending c).length +
    periods.length ≤ room
  capacity : ∀ c, (q.channel c).queue.capacity = room
  offering : ∀ push, p.stage.push? = some push → push.stage = .offering ∧ push.dropped = 0
  closed : ∀ c, (q.channel c).closed = p.stage.closed c
  left : p.stage.left = true → periods = []
  running : p.stage.left = false → running = true
  ended : ∀ c, ended c → (q.channel c).closed = true ∧ (q.channel c).queue.toList = []

namespace Flow
variable {fs : List Frame} {room : Nat} {t : Consumer → List Frame} {ended : Consumer → Prop}
  {periods : List (List Int16)} {running : Bool} {q : FrameQueues} {stage stage' : ProducerStage}
  {capture : Capture}

/-! ## The producer -/

/-- The producer goes on to a stage in which it has as much to push, and to close, as before. -/
theorem restage {running' : Bool} (h : Flow fs room t ended periods running q ⟨stage, capture⟩)
    (hp : ∀ c, stage'.pending c = stage.pending c) (hc : ∀ c, stage'.closed c = stage.closed c)
    (ho : stage'.push? = none) (hl : stage'.left = true → periods = [])
    (hr : stage'.left = false → running' = true) :
    Flow fs room t ended periods running' q ⟨stage', capture⟩ where
  whole c := by rw [hp c]; exact h.whole c
  fits c := by rw [hp c]; exact h.fits c
  capacity := h.capacity
  offering push e := by rw [ho] at e; cases e
  closed c := by rw [hc c]; exact h.closed c
  left := hl
  running := hr
  ended := h.ended

theorem read {p : List Int16} {rest : List (List Int16)} {c' : Capture} {f : Frame}
    {r : Except CaptureError Unit} {serial : Nat}
    (h : Flow fs room t ended (p :: rest) running q ⟨.reading, capture⟩)
    (hread : capture.readSplit ⟨Capture.resize capture.periodLength p, none⟩ [] = (c', f, r)) :
    Flow fs room t ended rest running { q with pushed := serial + 1 }
      ⟨if f.isEmpty then .checking else .pushingEncode (.start ⟨serial, f⟩), c'⟩ := by
  have hframes : capture.frames (p :: rest) =
      (if f.isEmpty then [] else [f]) ++ c'.frames rest := by
    rw [Capture.frames, hread]
  have hwhole := h.whole
  have hfits := h.fits
  simp only [ProducerStage.pending, hframes, List.append_nil, List.length_nil, Nat.add_zero,
    List.length_cons] at hwhole hfits
  have hch := q.channel_pushed (serial + 1)
  cases hf : f.isEmpty with
  | true =>
    rw [hf] at hwhole
    simp only [if_true, List.nil_append] at hwhole ⊢
    refine ⟨?_, ?_, ?_, nofun, ?_, nofun, fun _ => h.running rfl, ?_⟩
    · intro c
      simpa only [hch, ProducerStage.pending, List.append_nil] using hwhole c
    · intro c
      have := hfits c
      simp only [hch, ProducerStage.pending, List.length_nil]
      omega
    · intro c
      rw [hch]; exact h.capacity c
    · intro c
      rw [hch]; exact h.closed c
    · intro c
      rw [hch]; exact h.ended c
  | false =>
    rw [hf] at hwhole
    simp only [Bool.false_eq_true, if_false] at hwhole ⊢
    refine ⟨?_, ?_, ?_, ?_, ?_, nofun, fun _ => h.running rfl, ?_⟩
    · intro c
      rw [hch, List.append_assoc]; exact hwhole c
    · intro c
      have := hfits c
      simp only [hch, ProducerStage.pending, List.length_cons, List.length_nil]
      omega
    · intro c
      rw [hch]; exact h.capacity c
    · intro push e
      cases e; exact ⟨rfl, rfl⟩
    · intro c
      rw [hch]; exact h.closed c
    · intro c
      rw [hch]; exact h.ended c

/-- As long as the producer has closed nothing no consumer has ended. -/
theorem not_ended (h : Flow fs room t ended periods running q ⟨stage, capture⟩)
    (hs : ∀ c, stage.closed c = false) (c : Consumer) : ¬ ended c := fun hc => by
  have := (h.ended c hc).1
  rw [h.closed c, hs c] at this
  cases this

/-- There is room for a frame that is still to be added. -/
theorem room_of_pending {p : Producer} {c : Consumer} {f : Frame}
    (h : Flow fs room t ended periods running q p) (hp : p.stage.pending c = [f]) :
    (q.channel c).queue.size < (q.channel c).queue.capacity := by
  have := h.fits c
  rw [hp, List.length_singleton] at this
  rw [h.capacity c]
  omega

/-- A push of a frame that fits is done with its first step. -/
theorem push_of_fits {p : Push SharedFrame} {q q' : Fifo SharedFrame}
    {r : Push.Progress SharedFrame} (hp : p.stage = .offering) (hlt : q.size < q.capacity)
    (h : p.step q = (r, q')) :
    r = .done p.dropped ∧ q' = ⟨q.capacity, q.toList ++ [p.entry]⟩ := by
  have hc := p.pushStep_cases q
  rw [h] at hc
  cases hc with
  | offered => exact ⟨rfl, rfl⟩
  | refused _ hf => rw [Fifo.isFull_of_lt hlt] at hf; cases hf
  | checked he | evicted _ _ he | missed he => rw [hp] at he; cases he

theorem pushEncode {push : Push SharedFrame} {progress : Push.Progress SharedFrame}
    {queue : Fifo SharedFrame}
    (h : Flow fs room t ended periods running q ⟨.pushingEncode push, capture⟩)
    (hq : push.step q.encode.queue = (progress, queue)) :
    progress = .done push.dropped ∧
      Flow fs room t ended periods running { q with encode := { q.encode with queue } }
        ⟨.pushingLocalize (.start push.entry), capture⟩ := by
  have hlt := h.room_of_pending (c := .encoder) rfl
  obtain ⟨rfl, rfl⟩ := push_of_fits (h.offering push rfl).1 hlt hq
  refine ⟨rfl, ?_, ?_, ?_, ?_, ?_, nofun, fun _ => h.running rfl,
    fun c hc => absurd hc (h.not_ended (fun c => (by cases c <;> rfl)) c)⟩
  · intro c
    have := h.whole c
    cases c with
    | encoder => simpa [FrameQueues.channel, Channel.frames, ProducerStage.pending] using this
    | localizer => exact this
  · intro c
    have := h.fits c
    cases c with
    | encoder =>
      simp only [FrameQueues.channel, Fifo.size, ProducerStage.pending, List.length_append,
        List.length_cons, List.length_nil] at this ⊢
      omega
    | localizer => exact this
  · intro c
    have := h.capacity c
    cases c <;> exact this
  · intro push e
    cases e; exact ⟨rfl, rfl⟩
  · intro c
    have := h.closed c
    cases c <;> exact this

theorem pushLocalize {push : Push SharedFrame} {progress : Push.Progress SharedFrame}
    {queue : Fifo SharedFrame}
    (h : Flow fs room t ended periods running q ⟨.pushingLocalize push, capture⟩)
    (hq : push.step q.localize.queue = (progress, queue)) :
    progress = .done push.dropped ∧
      Flow fs room t ended periods running { q with localize := { q.localize with queue } }
        ⟨.checking, capture⟩ := by
  have hlt := h.room_of_pending (c := .localizer) rfl
  obtain ⟨rfl, rfl⟩ := push_of_fits (h.offering push rfl).1 hlt hq
  refine ⟨rfl, ?_, ?_, ?_, nofun, ?_, nofun, fun _ => h.running rfl,
    fun c hc => absurd hc (h.not_ended (fun c => (by cases c <;> rfl)) c)⟩
  · intro c
    have := h.whole c
    cases c with
    | encoder => exact this
    | localizer => simpa [FrameQueues.channel, Channel.frames, ProducerStage.pending] using this
  · intro c
    have := h.fits c
    cases c with
    | encoder => exact this
    | localizer =>
      simp only [FrameQueues.channel, Fifo.size, ProducerStage.pending, List.length_append,
        List.length_cons, List.length_nil] at this ⊢
      omega
  · intro c
    have := h.capacity c
    cases c <;> exact this
  · intro c
    have := h.closed c
    cases c <;> exact this

theorem closeEncode (h : Flow fs room t ended periods running q ⟨.leaving, capture⟩) :
    Flow fs room t ended periods running { q with encode := q.encode.close }
      ⟨.leavingLocalize, capture⟩ := by
  refine ⟨?_, ?_, ?_, nofun, ?_, fun _ => h.left rfl, nofun,
    fun c hc => absurd hc (h.not_ended (fun c => (by cases c <;> rfl)) c)⟩
  · intro c
    have := h.whole c
    cases c <;> exact this
  · intro c
    have := h.fits c
    cases c <;> exact this
  · intro c
    have := h.capacity c
    cases c <;> exact this
  · intro c
    have := h.closed c
    cases c with
    | encoder => rfl
    | localizer => exact this

theorem closeLocalize (h : Flow fs room t ended periods running q ⟨.leavingLocalize, capture⟩) :
    Flow fs room t ended periods running { q with localize := q.localize.close }
      ⟨.finished, capture⟩ := by
  refine ⟨?_, ?_, ?_, nofun, ?_, fun _ => h.left rfl, nofun, ?_⟩
  · intro c
    have := h.whole c
    cases c <;> exact this
  · intro c
    have := h.fits c
    cases c <;> exact this
  · intro c
    have := h.capacity c
    cases c <;> exact this
  · intro c
    have := h.closed c
    cases c with
    | encoder => exact this
    | localizer => rfl
  · intro c hc
    have := h.ended c hc
    cases c with
    | encoder => exact this
    | localizer => exact ⟨rfl, this.2⟩

/-! ## The consumers -/

section Consumers
variable {t' : Consumer → List Frame} {ended' : Consumer → Prop} {q' : FrameQueues} {p : Producer}
  {c : Consumer} {r : Channel SharedFrame} {a : SharedFrame}

/-- The invariant asks less the fewer consumers have ended. -/
theorem of_ended (h : Flow fs room t ended periods running q p) (he : ∀ d, ended' d → ended d) :
    Flow fs room t ended' periods running q p :=
  ⟨h.whole, h.fits, h.capacity, h.offering, h.closed, h.left, h.running,
    fun d hd => h.ended d (he d hd)⟩

theorem taken (h : Flow fs room t ended periods running q p)
    (hr : (q.channel c).receive = (.entry a, r))
    (hq : q'.channel c = r ∧ ∀ d, d ≠ c → q'.channel d = q.channel d)
    (ht : t' c = t c ++ [a.frame] ∧ ∀ d, d ≠ c → t' d = t d) (he : ∀ d, ended' d → ended d) :
    Flow fs room t' ended' periods running q' p := by
  obtain ⟨htake, hclosed⟩ := Channel.receive_entry.1 hr
  obtain ⟨hlist, hcap⟩ := Fifo.take?_eq_some_iff.1 htake
  refine ⟨?_, ?_, ?_, h.offering, ?_, h.left, h.running, ?_⟩
  · intro d
    have := h.whole d
    by_cases hdc : d = c
    · subst hdc
      rw [Channel.frames, hlist] at this
      rw [hq.1, ht.1, Channel.frames]
      simpa using this
    · rw [hq.2 d hdc, ht.2 d hdc]; exact this
  · intro d
    have := h.fits d
    by_cases hdc : d = c
    · subst hdc
      rw [Fifo.size, hlist] at this
      rw [hq.1, ht.1, Fifo.size, List.length_append]
      simp only [List.length_cons, List.length_nil] at this ⊢
      omega
    · rw [hq.2 d hdc, ht.2 d hdc]; exact this
  · intro d
    by_cases hdc : d = c
    · subst hdc; rw [hq.1, hcap]; exact h.capacity d
    · rw [hq.2 d hdc]; exact h.capacity d
  · intro d
    by_cases hdc : d = c
    · subst hdc; rw [hq.1, hclosed]; exact h.closed d
    · rw [hq.2 d hdc]; exact h.closed d
  · intro d hd
    have := h.ended d (he d hd)
    by_cases hdc : d = c
    · subst hdc; rw [hlist] at this; cases this.2
    · rw [hq.2 d hdc]; exact this

theorem ending (h : Flow fs room t ended periods running q p)
    (hr : (q.channel c).receive.1 = .ended) (he : ∀ d, ended' d → d = c ∨ ended d) :
    Flow fs room t ended' periods running q p := by
  refine ⟨h.whole, h.fits, h.capacity, h.offering, h.closed, h.left, h.running, fun d hd => ?_⟩
  rcases he d hd with rfl | hd
  · unfold Channel.receive at hr
    cases htake : (q.channel d).queue.take? with
    | some v => rw [htake] at hr; cases hr
    | none =>
      rw [htake] at hr
      cases hc : (q.channel d).closed with
      | true => exact ⟨rfl, Fifo.take?_eq_none_iff.1 htake⟩
      | false => rw [hc] at hr; cases hr
  · exact h.ended d hd

/-- A consumer that has ended took all frames. -/
theorem taken_of_ended (h : Flow fs room t ended periods running q p) (he : ended c) :
    t c = fs := by
  obtain ⟨hclosed, hnil⟩ := h.ended c he
  rw [h.closed c] at hclosed
  obtain ⟨hleft, hpending⟩ := ProducerStage.left_of_closed hclosed
  have := h.whole c
  rw [Channel.frames, hnil, hpending, h.left hleft] at this
  simpa [Capture.frames] using this

end Consumers

end Flow

namespace State

/-! ## Steps in a session -/

def FlowAt (fs : List Frame) (room : Nat) (t : Consumer → List Frame) (s : State) (y : Session) :
    Prop :=
  Flow fs room t y.hasEnded s.rig.device.periods s.running y.queues y.producer

section Steps
variable {fs : List Frame} {room : Nat} {t t' : Consumer → List Frame} {s s' : State}
  {x y : Session} {l : Label}

theorem taking_aside (s : State) (he : l ≠ .encoder) (hl : l ≠ .localizer) (c : Consumer) :
    s.taking c l = [] := by
  cases c <;> cases l <;> first | rfl | contradiction

theorem FlowAt.producer (h : FlowAt fs room t s x) (hc : ProducerStep s x s')
    (hy : s'.session = some y) : FlowAt fs room t s' y := by
  have hp : ∀ {stage}, x.producer.stage = stage → x.producer = ⟨stage, x.producer.capture⟩ :=
    fun hs => by rw [← hs]
  unfold FlowAt at h
  cases hc with
  | checked hs =>
    cases hy
    rw [hp hs] at h
    have hr : s.running = true := h.running rfl
    refine h.restage ?_ ?_ ?_ ?_ fun _ => hr
    all_goals simp only [hr, if_true]
    · exact fun c => (by cases c <;> rfl)
    · exact fun c => (by cases c <;> rfl)
    · rfl
    · nofun
  | failed hs hd hh =>
    cases hy
    rw [hp hs, hd] at h
    show Flow _ _ _ _ s.rig.device.periods _ _ _
    rw [hd]
    refine Flow.restage ⟨h.whole, h.fits, h.capacity, h.offering, h.closed, h.left, h.running,
      h.ended⟩ ?_ ?_ rfl (fun _ => rfl) nofun
    · exact fun c => (by cases c <;> rfl)
    · exact fun c => (by cases c <;> rfl)
  | read p rest c f r hs hd hread =>
    cases hy
    rw [hp hs, hd] at h
    exact h.read hread
  | goingEncode p p' q hs hq =>
    rw [hp hs] at h
    cases (h.pushEncode hq).1
  | doneEncode p n q hs hq =>
    cases hy
    rw [hp hs] at h
    exact (h.pushEncode hq).2
  | goingLocalize p p' q hs hq =>
    rw [hp hs] at h
    cases (h.pushLocalize hq).1
  | doneLocalize p n q hs hq =>
    cases hy
    rw [hp hs] at h
    exact (h.pushLocalize hq).2
  | left hs =>
    cases hy
    rw [hp hs] at h
    exact h.closeEncode
  | finished hs =>
    cases hy
    rw [hp hs] at h
    exact h.closeLocalize

theorem taken_same (ht : ∀ c, t' c = t c ++ s.taking c l) (hn : ∀ c, s.taking c l = []) :
    t' = t := by
  funext c
  rw [ht, hn, List.append_nil]

/-- A consumer that is at work has not ended. -/
theorem hasEnded_of_encoder (hl : y.localizer = x.localizer) (hs : y.encoder.stage ≠ .finished)
    (c : Consumer) (hc : y.hasEnded c) : x.hasEnded c := by
  cases c with
  | encoder => exact absurd hc hs
  | localizer => simpa [Session.hasEnded, hl] using hc

theorem hasEnded_of_localizer (he : y.encoder = x.encoder)
    (hs : ∀ m, y.localizer = some m → m.stage ≠ .finished) (c : Consumer) (hc : y.hasEnded c) :
    x.hasEnded c := by
  cases c with
  | encoder => simpa [Session.hasEnded, he] using hc
  | localizer =>
    obtain ⟨m, hm, hf⟩ := hc
    exact absurd hf (hs m hm)

theorem FlowAt.encoder (h : FlowAt fs room t s x) (hx : s.session = some x)
    (hready : x.encoder.stage = .coding → x.encoder.coding.encoder.Ready)
    (hfine : ∀ blocks, (s.rig.codec.reply blocks).fails = false) (hc : EncoderStep s x s')
    (hy : s'.session = some y) (ht : ∀ c, t' c = t c ++ s.taking c .encoder) :
    FlowAt fs room t' s' y := by
  unfold FlowAt at h
  cases hc with
  | took a q hs hq =>
    cases hy
    have hte : t' .encoder = t .encoder ++ [a.frame] := by
      rw [ht, taking_encoder hx, if_pos hs, hq]
      rfl
    refine Flow.taken (c := .encoder) (a := a) (r := q) h hq ⟨rfl, ?_⟩ ⟨hte, ?_⟩ ?_
    · intro d hd
      cases d with
      | encoder => exact absurd rfl hd
      | localizer => rfl
    · intro d hd
      cases d with
      | encoder => exact absurd rfl hd
      | localizer => rw [ht]; exact List.append_nil _
    · refine hasEnded_of_encoder rfl ?_
      dsimp only
      split <;> simp
  | ended hs hq =>
    cases hy
    have hsame : t' = t := by
      apply taken_same ht
      intro c
      cases c with
      | encoder => simp [taking_encoder hx, hs, hq, Received.toOption]
      | localizer => rfl
    rw [hsame]
    apply Flow.ending (c := .encoder) h hq
    intro d hd
    cases d with
    | encoder => exact .inl rfl
    | localizer => exact .inr hd
  | coded p c n hs hb =>
    rw [tellAny_session] at hy
    cases hy
    have hsame : t' = t := by
      apply taken_same ht
      intro c
      cases c with
      | encoder => simp [taking_encoder hx, hs]
      | localizer => rfl
    rw [hsame]
    unfold FlowAt
    rw [tellAny_running, tellAny_rig]
    apply Flow.of_ended h
    refine hasEnded_of_encoder rfl ?_
    dsimp only
    split <;> simp
  | failed e c n hs hb =>
    rw [Coding.block_of_fine (hready hs) (hfine _)] at hb
    cases hb

/-- A localizer that has worked on its frame waits for the next one. -/
theorem flow_of_worked {m m' : LocalizerThread} {periods : List (List Int16)} {running : Bool}
    (h : Flow fs room t x.hasEnded periods running x.queues x.producer)
    (hx : s.session = some x) (hm : x.localizer = some m) (hs : m.stage ≠ .waiting)
    (hs' : m'.stage = .waiting) (ht : ∀ c, t' c = t c ++ s.taking c .localizer) :
    Flow fs room t' ({ x with localizer := some m' } : Session).hasEnded periods running x.queues
      x.producer := by
  have hsame : t' = t := by
    apply taken_same ht
    intro c
    cases c with
    | encoder => rfl
    | localizer => rw [taking_localizer hx hm, if_neg hs]
  rw [hsame]
  apply Flow.of_ended h
  refine hasEnded_of_localizer rfl ?_
  intro k hk
  cases hk
  simp [hs']

theorem FlowAt.localizer (h : FlowAt fs room t s x) (hx : s.session = some x)
    (hc : LocalizerStep s x s') (hy : s'.session = some y)
    (ht : ∀ c, t' c = t c ++ s.taking c .localizer) : FlowAt fs room t' s' y := by
  unfold FlowAt at h
  cases hc with
  | took m a q hm hs hq =>
    cases hy
    have htl : t' .localizer = t .localizer ++ [a.frame] := by
      rw [ht, taking_localizer hx hm, if_pos hs, hq]
      rfl
    refine Flow.taken (c := .localizer) (a := a) (r := q) h hq ⟨rfl, ?_⟩ ⟨htl, ?_⟩ ?_
    · intro d hd
      cases d with
      | encoder => rfl
      | localizer => exact absurd rfl hd
    · intro d hd
      cases d with
      | encoder => rw [ht]; exact List.append_nil _
      | localizer => exact absurd rfl hd
    · refine hasEnded_of_localizer rfl ?_
      intro k hk
      cases hk
      simp
  | ended m hm hs hq =>
    cases hy
    have hsame : t' = t := by
      apply taken_same ht
      intro c
      cases c with
      | encoder => rfl
      | localizer => simp [taking_localizer hx hm, hs, hq, Received.toOption]
    rw [hsame]
    apply Flow.ending (c := .localizer) h hq
    intro d hd
    cases d with
    | encoder => exact .inr hd
    | localizer => exact .inl rfl
  | located m f v tr hm hs =>
    rw [tellAny_session] at hy
    cases hy
    unfold FlowAt
    rw [tellAny_running, tellAny_rig]
    exact flow_of_worked h hx hm (by simp [hs]) rfl ht
  | ignored m f hm hs =>
    cases hy
    exact flow_of_worked h hx hm (by simp [hs]) rfl ht

/-- What a step does that neither ends the session nor asks it to end. -/
inductive QuietStep (s : State) (x : Session) : Label → State → Session → Prop where
  | letGo : QuietStep s x .letGo
      { s with rig := { s.rig with device := { s.rig.device with held := false } } } x
  | refused (settings : StreamSettings) :
      QuietStep s x (.start settings) (s.answer (.error .alreadyRunning)) x
  | announced (ho : s.owner = .announcing) :
      QuietStep s x .owner (s.announce x) { x with announced := true }
  | spawned (w : Worker) (y : Session) (ho : s.owner = .spawning w)
      (hy : (s.spawn x w).session = some y) : QuietStep s x .owner (s.spawn x w) y
  | producer (s' : State) (y : Session) (hc : ProducerStep s x s') (hy : s'.session = some y) :
      QuietStep s x .producer s' y
  | encoder (s' : State) (y : Session) (hc : EncoderStep s x s') (hy : s'.session = some y) :
      QuietStep s x .encoder s' y
  | localizer (s' : State) (y : Session) (hc : LocalizerStep s x s') (hy : s'.session = some y) :
      QuietStep s x .localizer s' y

/-- A session that was asked to end stays so; the other steps are quiet. -/
theorem SessionStep.quiet (hc : SessionStep s x l s') (hx : s.session = some x)
    (hy : s'.session = some y) (hq : y.signalled = false) : QuietStep s x l s' y := by
  cases hc with
  | letGo =>
    obtain rfl : x = y := by simpa [hx] using hy
    exact .letGo
  | refused settings =>
    obtain rfl : x = y := by simpa [hx, answer] using hy
    exact .refused settings
  | announced ho =>
    simp only [announce, answer, tell_session] at hy
    cases hy; exact .announced ho
  | spawned w ho => exact .spawned w y ho hy
  | producer _ hc => exact .producer s' y hc hy
  | encoder _ hc => exact .encoder s' y hc hy
  | localizer _ hc => exact .localizer s' y hc hy
  | restarted => simp only [signal, hx] at hy; cases hy; cases hq
  | stopped => simp only [signal, hx] at hy; cases hy; cases hq
  | reclaimed a => rw [(reclaim_gone (s := s) x a).session] at hy; cases hy
  | spawnFailed w cause =>
    obtain ⟨z, hz⟩ : ∃ z, (s.abandon x).session = some z := ⟨_, rfl⟩
    simp only [signal, hz] at hy
    cases hy; cases hq
  | encoderQuit _ hg => cases hy; rw [hg] at hq; cases hq
  | localizerQuit _ _ _ hg => cases hy; rw [hg] at hq; cases hq

theorem QuietStep.signalled (hc : QuietStep s x l s' y) : y.signalled = x.signalled := by
  cases hc with
  | letGo | refused | announced => rfl
  | spawned w _ _ hy => cases w <;> (cases hy; rfl)
  | producer _ _ hc hy =>
    obtain ⟨r, d, q, p, -, rfl⟩ := hc.shape
    cases hy; rfl
  | encoder _ _ hc hy =>
    cases hc with
    | coded p c n => rw [tellAny_session] at hy; cases hy; rfl
    | _ => cases hy; rfl
  | localizer _ _ hc hy =>
    cases hc with
    | located l f v t => rw [tellAny_session] at hy; cases hy; rfl
    | _ => cases hy; rfl

theorem FlowAt.spawned (h : FlowAt fs room t s x) (hl : Launching s x) {w : Worker}
    (ho : s.owner = .spawning w) (hy : (s.spawn x w).session = some y) :
    FlowAt fs room t (s.spawn x w) y := by
  unfold FlowAt at h
  cases w with
  | producer =>
    cases hy
    have hp : x.producer = ⟨.ready, x.producer.capture⟩ := by rw [← hl.producer ho]
    rw [hp] at h
    exact h.restage (fun c => (by cases c <;> rfl)) (fun c => (by cases c <;> rfl)) rfl nofun
      fun _ => h.running rfl
  | encoder =>
    cases hy
    exact Flow.of_ended h (hasEnded_of_encoder rfl (by simp))
  | localizer =>
    cases hy
    refine Flow.of_ended h (hasEnded_of_localizer rfl ?_)
    intro m hm
    obtain ⟨l, -, rfl⟩ := Option.map_eq_some_iff.1 hm
    simp

/-- Every quiet step keeps the invariant. -/
theorem FlowAt.step (h : FlowAt fs room t s x) (hl : Launching s x) (hx : s.session = some x)
    (hready : x.encoder.stage = .coding → x.encoder.coding.encoder.Ready)
    (hfine : ∀ blocks, (s.rig.codec.reply blocks).fails = false) (hc : QuietStep s x l s' y)
    (ht : ∀ c, t' c = t c ++ s.taking c l) : FlowAt fs room t' s' y := by
  have hsame : l ≠ .encoder → l ≠ .localizer → t' = t := by
    intro he hl
    exact taken_same ht (taking_aside s he hl)
  cases hc with
  | encoder _ _ hc hy => exact h.encoder hx hready hfine hc hy ht
  | localizer _ _ hc hy => exact h.localizer hx hc hy ht
  | producer _ _ hc hy =>
    rw [hsame (by simp) (by simp)]
    exact h.producer hc hy
  | spawned w _ ho hy =>
    rw [hsame (by simp) (by simp)]
    exact h.spawned hl ho hy
  | letGo | refused =>
    rw [hsame (by simp) (by simp)]
    exact h
  | announced =>
    rw [hsame (by simp) (by simp)]
    unfold FlowAt announce answer
    rw [tell_running, tell_rig]
    exact h

end Steps

/-! ## Any run of a session -/

section Run
variable {s₀ s : State} {settings : StreamSettings} {x y : Session} {ls : List Label}

def captured (s₀ : State) (x : Session) : List Frame :=
  x.producer.capture.frames s₀.rig.device.periods

theorem SetUp.flow (h : SetUp s₀ settings x)
    (hfit : s₀.rig.device.periods.length ≤ max settings.queueSize 1) :
    FlowAt (s₀.captured x) (max settings.queueSize 1) (fun _ => []) s₀ x := by
  obtain ⟨s, audio, localizer, capture, encoder, hp⟩ := h.prepared
  obtain rfl := hp.session
  refine ⟨?_, ?_, ?_, nofun, ?_, nofun, fun _ => hp.running, ?_⟩
  · intro c
    cases c <;> rfl
  · intro c
    cases c <;> simpa [State.setUp, FrameQueues.new, FrameQueues.channel, Channel.new,
      Fifo.bounded, Fifo.size, ProducerStage.pending] using hfit
  · intro c
    cases c <;> rfl
  · intro c
    cases c <;> rfl
  · intro c hc
    cases c with
    | encoder => cases hc
    | localizer =>
      obtain ⟨m, hm, hms⟩ := hc
      obtain ⟨l, -, rfl⟩ := Option.map_eq_some_iff.1 hm
      cases hms

/-- Nothing is lost in any run in which the session is not asked to end. -/
theorem flow_of_run (h : SessionRun s₀ settings x ls s y)
    (hfit : s₀.rig.device.periods.length ≤ max settings.queueSize 1)
    (hfine : ∀ blocks, (s₀.rig.codec.reply blocks).fails = false) (hq : y.signalled = false) :
    FlowAt (s₀.captured x) (max settings.queueSize 1) (fun c => s₀.taken c ls) s y := by
  refine h.induction (Q := fun ls s y => y.signalled = false →
    FlowAt (s₀.captured x) (max settings.queueSize 1) (fun c => s₀.taken c ls) s y)
    (fun _ => h.setUp.flow hfit) ?_ hq
  intro ls l s y s' y' hrun hflow hc hw hq
  have hquiet := hc.quiet hrun.session hw.session hq
  have hflow := hflow (hquiet.signalled ▸ hq)
  refine hflow.step hrun.launching hrun.session (fun hs => ?_) (fun b => ?_) hquiet
    fun c => taken_concat c l hrun.steps
  · obtain ⟨k, told, hat, -⟩ := (encoder_of_run hrun).coding hs
    exact hat.ready hrun.setUp.encoder.1
  · rw [hrun.codec]; exact hfine b

end Run

end State

end MicStream
