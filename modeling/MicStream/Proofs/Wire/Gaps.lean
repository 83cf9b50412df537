import Mathlib.Data.List.Induction
import MicStream.Proofs.Stream.Stamps
import MicStream.Proofs.Wire.Datagrams
import MicStream.Wire.Outbox
/-!
# Gaps in the numbers

The packets of a session share the slots of one bounded queue with what is told
of starts, stops and sightings. Any number of threads may publish, in any order
and at any time; each message is queued or dropped on the spot. A packet takes
its number before it is known which of the two becomes of it, so a dropped
packet leaves a gap, and nothing else does.

`Traffic` records what was published and what was received beside the queue
itself. The receiver may go away at any time; what it did not take is lost then,
and nothing is queued any more.

Results:
* `Posted.step`, `posted_steps`: what is queued or was received is what was published and not
  dropped, in that order.
* `Posting.between_of_sent`: two entries of what was queued, found again in what was published.
* `gap_of_seq`: the numbers of two packets tell how many packets there are between them.
* `gaps_show_drops`: all of this for any sequence of acts.
-/
namespace MicStream

def Outbound.data? : Outbound → Option (List UInt8)
  | .data bytes => some bytes
  | .event _ => none

/-- A message that was published, and why it was dropped if it was. -/
structure Posting where
  message : Outbound
  dropped : Option Dropped
  deriving DecidableEq, Repr

namespace Posting

def queued? (z : Posting) : Option Outbound :=
  match z.dropped with
  | none => some z.message
  | some _ => none

def data? (z : Posting) : Option (List UInt8) := z.message.data?

def sent? (z : Posting) : Option (List UInt8) := z.queued?.bind Outbound.data?

/-- A datagram that was dropped. -/
def lost (z : Posting) : Bool := z.data?.isSome && z.dropped.isSome

theorem eq_of_sent {z : Posting} {x : List UInt8} (h : z.sent? = some x) : z = ⟨.data x, none⟩ := by
  obtain ⟨_ | _, _ | _⟩ := z <;> simp_all [sent?, queued?, Outbound.data?]

theorem lost_of_not_sent {z : Posting} (h : z.sent? = none) : z.lost = z.data?.isSome := by
  obtain ⟨_ | _, _ | _⟩ := z <;> simp_all [sent?, queued?, data?, Outbound.data?, lost]

theorem queued_sublist (zs : List Posting) :
    (zs.filterMap queued?).Sublist (zs.map message) := by
  induction zs with
  | nil => exact List.Sublist.slnil
  | cons z zs ih =>
    cases h : z.queued? with
    | none =>
      rw [List.filterMap_cons_none h]
      exact ih.cons _
    | some m =>
      have hm : z.message = m := by
        obtain ⟨m', _ | why⟩ := z
        · exact Option.some.inj h
        · cases h
      rw [List.filterMap_cons_some h, List.map_cons, hm]
      exact ih.cons_cons m

/-- Two datagrams that were queued one after the other: no other was queued in between. -/
theorem between_of_sent {zs : List Posting} {xs ys : List (List UInt8)} {x y : List UInt8}
    (h : zs.filterMap sent? = xs ++ x :: y :: ys) :
    ∃ before between after,
      zs = before ++ ⟨.data x, none⟩ :: (between ++ ⟨.data y, none⟩ :: after) ∧
      before.filterMap sent? = xs ∧ ∀ z ∈ between, z.sent? = none := by
  obtain ⟨old, new, rfl, hold, hnew⟩ := List.filterMap_eq_append_iff.1 h
  obtain ⟨before, a, rest, rfl, hbefore, ha, hrest⟩ := List.filterMap_eq_cons_iff.1 hnew
  obtain ⟨between, b, after, rfl, hbetween, hb, -⟩ := List.filterMap_eq_cons_iff.1 hrest
  obtain rfl := eq_of_sent ha
  obtain rfl := eq_of_sent hb
  refine ⟨old ++ before, between, after, by simp, ?_, hbetween⟩
  rw [List.filterMap_append, hold, List.filterMap_eq_nil_iff.2 hbefore, List.append_nil]

theorem length_data {zs : List Posting} (h : ∀ z ∈ zs, z.sent? = none) :
    (zs.filterMap data?).length = zs.countP lost := by
  rw [List.length_filterMap_eq_countP]
  exact List.countP_congr fun z hz => by rw [lost_of_not_sent (h z hz)]

theorem data_around (before between after : List Posting) (x y : List UInt8) :
    (before ++ ⟨.data x, none⟩ :: (between ++ ⟨.data y, none⟩ :: after)).filterMap data? =
      before.filterMap data? ++ x :: (between.filterMap data? ++ y :: after.filterMap data?) := by
  have hcons : ∀ (z : List UInt8) (zs : List Posting),
      (⟨.data z, none⟩ :: zs).filterMap data? = z :: zs.filterMap data? := fun _ _ => rfl
  rw [List.filterMap_append, hcons, List.filterMap_append, hcons]

end Posting

/-- A queue with its history. -/
structure Traffic where
  /-- The clock that stamps the packets. -/
  clock : Clock
  outbox : Outbox
  /-- What was published, oldest first. -/
  postings : List Posting
  /-- What was received, oldest first. -/
  received : List Outbound
  deriving DecidableEq, Repr

namespace Traffic

/-- What is done around the queue: the encoder finishes a block, the owner announces a start or
stop, the localizer reports a sighting, the receiver asks for a message or goes away. -/
inductive Act where
  | block (now : UInt64) (output : List UInt8)
  | control (now : UInt64) (c : Control)
  | sighting (now : UInt64) (s : Sighting)
  | receive
  | close

namespace Act

def message? (clock : Clock) : Act → Option Outbound
  | .block now output => (clock.packet? output).map fun p => (Event.packet p).outbound now
  | .control now c => some ((Event.control c).outbound now)
  | .sighting now s => some ((Event.sighting s).outbound now)
  | .receive => none
  | .close => none

def pass (clock : Clock) : Act → Clock
  | .block _ output => clock.pass output
  | _ => clock

def output? : Act → Option (List UInt8)
  | .block _ output => some output
  | _ => none

end Act

def published : Clock → List Act → List Outbound
  | _, [] => []
  | clock, a :: as => (a.message? clock).toList ++ published (a.pass clock) as

def new (clock : Clock) (outbox : Outbox) : Traffic := ⟨clock, outbox, [], []⟩

def post (t : Traffic) (m : Outbound) : Traffic :=
  { t with
    outbox := (t.outbox.publish m).1
    postings := t.postings ++ [⟨m, match (t.outbox.publish m).2 with
      | .ok () => none
      | .error why => some why⟩] }

def take (t : Traffic) : Traffic :=
  { t with
    outbox := t.outbox.receive.2
    received := t.received ++ t.outbox.receive.1.toList }

def step (t : Traffic) : Act → Traffic
  | .receive => t.take
  | .close => { t with outbox := t.outbox.close }
  | a =>
    match a.message? t.clock with
    | some m => { t.post m with clock := a.pass t.clock }
    | none => { t with clock := a.pass t.clock }

def steps (t : Traffic) (as : List Act) : Traffic := as.foldl step t

/-! ## What is published -/

theorem published_concat (a : Act) : ∀ (as : List Act) (clock : Clock),
    published clock (as ++ [a]) =
      published clock as ++ (a.message? (as.foldl Act.pass clock)).toList
  | [], _ => by simp [published]
  | b :: as, clock => by
    rw [List.cons_append, published, published, published_concat a as, List.append_assoc,
      List.foldl_cons]

/-- The datagrams are those of the packets of the clock. -/
theorem data_published : ∀ (as : List Act) (clock : Clock),
    (published clock as).filterMap Outbound.data? =
      (clock.packets (as.filterMap Act.output?)).map Packet.datagram
  | [], _ => rfl
  | .block now output :: as, clock => by
    have houts : (Act.block now output :: as).filterMap Act.output? =
        output :: as.filterMap Act.output? := rfl
    rw [published, List.filterMap_append, data_published as, houts, Clock.packets, List.map_append]
    congr 1
    cases h : clock.packet? output <;> simp [Act.message?, h, Event.outbound, Outbound.data?]
  | .control now c :: as, clock => data_published as clock
  | .sighting now s :: as, clock => data_published as clock
  | .receive :: as, clock => data_published as clock
  | .close :: as, clock => data_published as clock

/-! ## One act -/

section Steps
variable {n : Nat} {clock : Clock} {as : List Act} {t : Traffic}

theorem step_cases (t : Traffic) (a : Act) :
    (a = .receive ∧ t.step a = t.take) ∨
    (a = .close ∧ t.step a = { t with outbox := t.outbox.close }) ∨
    (a ≠ .close ∧ a.message? t.clock = none ∧ t.step a = { t with clock := a.pass t.clock }) ∨
    (a ≠ .close ∧ ∃ m, a.message? t.clock = some m ∧
      t.step a = { t.post m with clock := a.pass t.clock }) := by
  cases a with
  | receive => exact .inl ⟨rfl, rfl⟩
  | close => exact .inr (.inl ⟨rfl, rfl⟩)
  | block now output =>
    cases h : (Act.block now output).message? t.clock with
    | none => exact .inr (.inr (.inl ⟨nofun, rfl, by simp only [step, h]⟩))
    | some m => exact .inr (.inr (.inr ⟨nofun, m, rfl, by simp only [step, h]⟩))
  | control now c => exact .inr (.inr (.inr ⟨nofun, _, rfl, rfl⟩))
  | sighting now s => exact .inr (.inr (.inr ⟨nofun, _, rfl, rfl⟩))

theorem post_cases (t : Traffic) (m : Outbound) :
    (t.outbox.closed = false ∧ t.outbox.queue.size < t.outbox.queue.capacity ∧ t.post m =
      { t with
        outbox := ⟨⟨t.outbox.queue.capacity, t.outbox.queue.toList ++ [m]⟩, false⟩
        postings := t.postings ++ [⟨m, none⟩] }) ∨
    ((t.outbox.closed = true ∨ t.outbox.queue.capacity ≤ t.outbox.queue.size) ∧
      ∃ why, t.post m = { t with postings := t.postings ++ [⟨m, some why⟩] }) := by
  cases hc : t.outbox.closed with
  | true =>
    have hpublish : t.outbox.publish m = (t.outbox, .error .closed) := by
      rw [Outbox.publish, if_pos hc]
    exact .inr ⟨.inl rfl, .closed, by rw [post, hpublish]⟩
  | false =>
    have hopen : ¬ t.outbox.closed = true := by rw [hc]; exact Bool.false_ne_true
    cases ho : t.outbox.queue.offer? m with
    | none =>
      have hpublish : t.outbox.publish m = (t.outbox, .error .full) := by
        rw [Outbox.publish, if_neg hopen, ho]
      refine .inr ⟨.inr ?_, .full, by rw [post, hpublish]⟩
      unfold Fifo.offer? at ho
      split at ho
      · next hf => exact of_decide_eq_true hf
      · cases ho
    | some q =>
      obtain ⟨hf, rfl⟩ := Fifo.offer?_eq_some_iff.1 ho
      refine .inl ⟨rfl, Nat.lt_of_not_le (of_decide_eq_false hf), ?_⟩
      rw [post, Outbox.publish, if_neg hopen, ho, hc]

theorem take_cases (t : Traffic) :
    (t.outbox.queue.toList = [] ∧ t.take = t) ∨
    ∃ m rest, t.outbox.queue.toList = m :: rest ∧ t.take =
      { t with
        outbox := { t.outbox with queue := ⟨t.outbox.queue.capacity, rest⟩ }
        received := t.received ++ [m] } := by
  obtain ⟨clock, ⟨⟨n, _ | ⟨m, rest⟩⟩, closed⟩, postings, received⟩ := t
  · exact .inl ⟨rfl, by simp [take, Outbox.receive, Fifo.take?]⟩
  · exact .inr ⟨m, rest, rfl, rfl⟩

/-- What is so of a queue with `n` slots after some acts. -/
structure Posted (n : Nat) (clock : Clock) (as : List Act) (t : Traffic) : Prop where
  capacity_eq : t.outbox.queue.capacity = n
  clock_eq : t.clock = as.foldl Act.pass clock
  messages : t.postings.map Posting.message = published clock as
  closed : t.outbox.closed = true ↔ .close ∈ as
  /-- What was queued was received or is still there. -/
  kept : t.outbox.closed = false →
    t.received ++ t.outbox.queue.toList = t.postings.filterMap Posting.queued?
  /-- A receiver that goes away has a beginning of what was queued. -/
  left : t.outbox.closed = true →
    t.outbox.queue.toList = [] ∧ t.received <+: t.postings.filterMap Posting.queued?

namespace Posted

theorem clock_concat (h : Posted n clock as t) (a : Act) :
    a.pass t.clock = (as ++ [a]).foldl Act.pass clock := by
  rw [List.foldl_append, ← h.clock_eq]; rfl

theorem closed_concat (h : Posted n clock as t) {a : Act} (ha : a ≠ .close) :
    t.outbox.closed = true ↔ .close ∈ as ++ [a] := by
  rw [h.closed]
  simp [ha.symm]

theorem messages_concat (h : Posted n clock as t) (a : Act) : published clock (as ++ [a]) =
    t.postings.map Posting.message ++ (a.message? t.clock).toList := by
  rw [published_concat, ← h.messages, ← h.clock_eq]

theorem messages_of_none (h : Posted n clock as t) {a : Act} (hm : a.message? t.clock = none) :
    t.postings.map Posting.message = published clock (as ++ [a]) := by
  rw [h.messages_concat, hm]
  exact (List.append_nil _).symm

theorem take (h : Posted n clock as t) : Posted n clock (as ++ [.receive]) t.take := by
  have hclosed := h.closed_concat (a := .receive) nofun
  rcases t.take_cases with ⟨-, ht⟩ | ⟨m, rest, hq, ht⟩
  · rw [ht]
    exact ⟨h.capacity_eq, h.clock_concat .receive, h.messages_of_none rfl, hclosed, h.kept, h.left⟩
  · rw [ht]
    refine ⟨h.capacity_eq, h.clock_concat .receive, h.messages_of_none rfl, hclosed, fun hc => ?_,
      fun hc => ?_⟩
    · rw [← h.kept hc, hq, List.append_assoc]; rfl
    · rw [(h.left hc).1] at hq; cases hq

theorem close (h : Posted n clock as t) :
    Posted n clock (as ++ [.close]) { t with outbox := t.outbox.close } := by
  refine ⟨h.capacity_eq, h.clock_concat .close, h.messages_of_none rfl, ?_, nofun,
    fun _ => ⟨rfl, ?_⟩⟩
  · simp [Outbox.close]
  · cases hc : t.outbox.closed with
    | true => exact (h.left hc).2
    | false => exact ⟨_, h.kept hc⟩

theorem silent (h : Posted n clock as t) {a : Act} (ha : a ≠ .close)
    (hm : a.message? t.clock = none) :
    Posted n clock (as ++ [a]) { t with clock := a.pass t.clock } :=
  ⟨h.capacity_eq, h.clock_concat a, h.messages_of_none hm, h.closed_concat ha, h.kept, h.left⟩

theorem post (h : Posted n clock as t) {a : Act} (ha : a ≠ .close) {m : Outbound}
    (hm : a.message? t.clock = some m) :
    Posted n clock (as ++ [a]) { t.post m with clock := a.pass t.clock } := by
  have hclosed := h.closed_concat ha
  have hmessages : ∀ dropped, (t.postings ++ [Posting.mk m dropped]).map Posting.message =
      published clock (as ++ [a]) := fun dropped => by
    rw [h.messages_concat, hm, List.map_append]; rfl
  rcases t.post_cases m with ⟨hopen, -, ht⟩ | ⟨-, why, ht⟩
  · rw [ht]
    refine ⟨h.capacity_eq, h.clock_concat a, hmessages none, hopen ▸ hclosed, fun _ => ?_, nofun⟩
    rw [List.filterMap_append, ← h.kept hopen, List.append_assoc]; rfl
  · have hqueued : (t.postings ++ [Posting.mk m (some why)]).filterMap Posting.queued? =
        t.postings.filterMap Posting.queued? := by
      rw [List.filterMap_append]; exact List.append_nil _
    rw [ht]
    refine ⟨h.capacity_eq, h.clock_concat a, hmessages _, hclosed, fun hc => ?_, fun hc => ?_⟩
    · rw [hqueued]; exact h.kept hc
    · rw [hqueued]; exact h.left hc

theorem step (h : Posted n clock as t) (a : Act) : Posted n clock (as ++ [a]) (t.step a) := by
  rcases t.step_cases a with ⟨rfl, ht⟩ | ⟨rfl, ht⟩ | ⟨ha, hm, ht⟩ | ⟨ha, m, hm, ht⟩
  · rw [ht]; exact h.take
  · rw [ht]; exact h.close
  · rw [ht]; exact h.silent ha hm
  · rw [ht]; exact h.post ha hm

/-- What is received or waits was queued, in that order. -/
theorem prefix_queued (h : Posted n clock as t) :
    t.received ++ t.outbox.queue.toList <+: t.postings.filterMap Posting.queued? := by
  cases hc : t.outbox.closed with
  | false => exact ⟨[], (List.append_nil _).trans (h.kept hc)⟩
  | true =>
    obtain ⟨hq, hr⟩ := h.left hc
    rw [hq, List.append_nil]
    exact hr

end Posted

end Steps

theorem posted_steps {n : Nat} {outbox : Outbox} (h : Outbox.new? n = some outbox) (clock : Clock)
    (as : List Act) : Posted n clock as ((new clock outbox).steps as) := by
  induction as using List.reverseRecOn with
  | nil =>
    obtain ⟨-, h⟩ := Option.ite_none_left_eq_some.1 h
    cases h
    exact ⟨rfl, rfl, rfl, by simp [steps, new], fun _ => rfl, nofun⟩
  | append_singleton as a ih =>
    rw [steps, List.foldl_append]
    exact ih.step a

/-! ## Gaps -/

/-- The numbers of two packets tell how many packets there are between them. -/
theorem gap_of_seq {clock : Clock} {outs : List (List UInt8)} {xs between ys : List (List UInt8)}
    {x y : List UInt8}
    (h : (clock.packets outs).map Packet.datagram = xs ++ x :: (between ++ y :: ys)) :
    ∃ p q, Packet.ofDatagram? x = some p ∧ Packet.ofDatagram? y = some q ∧
      q.seq = p.seq + UInt32.ofNat (between.length + 1) := by
  have packet : ∀ {k z}, (xs ++ x :: (between ++ y :: ys))[k]? = some z → ∃ p,
      Packet.ofDatagram? z = some p ∧ p.seq = clock.seq + UInt32.ofNat k := by
    intro k z hz
    rw [← h, List.getElem?_map, Option.map_eq_some_iff] at hz
    obtain ⟨p, hp, rfl⟩ := hz
    obtain ⟨b, -, -, -, hstamp⟩ := Clock.getElem?_packets outs clock hp
    exact ⟨p, p.ofDatagram?_datagram, congrArg Packet.seq hstamp⟩
  have hx : (xs ++ x :: (between ++ y :: ys))[xs.length]? = some x := by simp
  have hy : (xs ++ x :: (between ++ y :: ys))[xs.length + (between.length + 1)]? = some y := by
    rw [List.getElem?_append_right (Nat.le_add_right _ _), Nat.add_sub_cancel_left,
      List.getElem?_cons_succ]
    simp
  obtain ⟨p, hp, hpseq⟩ := packet hx
  obtain ⟨q, hq, hqseq⟩ := packet hy
  refine ⟨p, q, hp, hq, ?_⟩
  rw [hqseq, hpseq, UInt32.ofNat_add, UInt32.add_assoc]

theorem toNat_gap (a : UInt32) (n : Nat) :
    (a + UInt32.ofNat (n + 1) - a).toNat = (n + 1) % 2 ^ 32 ∧
      (n < 2 ^ 32 → (a + UInt32.ofNat (n + 1) - a - 1).toNat = n) := by
  rw [UInt32.add_comm, UInt32.add_sub_cancel]
  refine ⟨UInt32.toNat_ofNat', fun hn => ?_⟩
  have hpred : UInt32.ofNat (n + 1) - 1 = UInt32.ofNat n := by
    rw [UInt32.ofNat_add]; exact UInt32.add_sub_cancel _ 1
  rw [hpred, UInt32.toNat_ofNat']
  exact Nat.mod_eq_of_lt hn

/-- The packets of a session are published together with what is told of starts, stops and
sightings, while a receiver takes messages or goes away, all in any order. Each message is queued
or dropped as soon as it is published, dropped exactly if there is no room or no receiver, and what
is queued stays as it is. What is published is the same whatever becomes of it, with the packets
of the clock as its datagrams; what is received is a beginning of what was queued, in that order.
Between two datagrams received one after the other, as many were dropped as their numbers leave
out. -/
theorem gaps_show_drops {n : Nat} {outbox : Outbox} (h : Outbox.new? n = some outbox)
    (clock : Clock) (as : List Act) :
    let t := (new clock outbox).steps as
    (∀ m, ∃ dropped, (t.post m).postings = t.postings ++ [⟨m, dropped⟩] ∧
      (t.post m).outbox.queue.toList =
        t.outbox.queue.toList ++ (if dropped = none then [m] else []) ∧
      (t.post m).received = t.received ∧
      (dropped = none ↔ t.outbox.closed = false ∧ t.outbox.queue.toList.length < n)) ∧
    (t.postings.map Posting.message = published clock as ∧
      (published clock as).filterMap Outbound.data? =
        (clock.packets (as.filterMap Act.output?)).map Packet.datagram) ∧
    (t.received.Sublist (published clock as) ∧
      t.received ++ t.outbox.queue.toList <+: t.postings.filterMap Posting.queued? ∧
      (.close ∉ as →
        t.received ++ t.outbox.queue.toList = t.postings.filterMap Posting.queued?)) ∧
    ∀ xs x y ys, t.received.filterMap Outbound.data? = xs ++ x :: y :: ys →
      ∃ before between after p q,
        t.postings = before ++ ⟨.data x, none⟩ :: (between ++ ⟨.data y, none⟩ :: after) ∧
        before.filterMap Posting.sent? = xs ∧
        Packet.ofDatagram? x = some p ∧ Packet.ofDatagram? y = some q ∧
        let packets := (between.filterMap Posting.data?).length
        packets = between.countP Posting.lost ∧
        (q.seq - p.seq).toNat = (packets + 1) % 2 ^ 32 ∧
        (packets < 2 ^ 32 → (q.seq - p.seq - 1).toNat = between.countP Posting.lost) := by
  intro t
  have hposted : Posted n clock as t := posted_steps h clock as
  have hprefix := hposted.prefix_queued
  have hqueued : (t.postings.filterMap Posting.queued?).Sublist (published clock as) := by
    rw [← hposted.messages]
    exact Posting.queued_sublist t.postings
  refine ⟨fun m => ?_, ⟨hposted.messages, data_published as clock⟩,
    ⟨((List.sublist_append_left _ _).trans hprefix.sublist).trans hqueued, hprefix, fun hc => ?_⟩,
    fun xs x y ys hreceived => ?_⟩
  · have hcapacity := hposted.capacity_eq
    rcases t.post_cases m with ⟨hopen, hroom, ht⟩ | ⟨hdrop, why, ht⟩
    · rw [ht]
      refine ⟨none, rfl, rfl, rfl, fun _ => ⟨hopen, ?_⟩, fun _ => rfl⟩
      rw [← hcapacity]; exact hroom
    · rw [ht]
      refine ⟨some why, rfl, (List.append_nil _).symm, rfl, nofun, fun ⟨hopen, hroom⟩ => ?_⟩
      rcases hdrop with hclosed | hfull
      · rw [hopen] at hclosed; cases hclosed
      · rw [hcapacity] at hfull
        exact absurd hroom (Nat.not_lt_of_le hfull)
  · refine hposted.kept ?_
    cases hclosed : t.outbox.closed with
    | false => rfl
    | true => exact absurd (hposted.closed.1 hclosed) hc
  · -- what was queued behind the last that was received does not matter
    obtain ⟨rest, hrest⟩ := (List.prefix_append t.received _).trans hprefix
    have hsent : t.postings.filterMap Posting.sent? =
        xs ++ x :: y :: (ys ++ rest.filterMap Outbound.data?) := by
      calc t.postings.filterMap Posting.sent?
          = (t.postings.filterMap Posting.queued?).filterMap Outbound.data? := by
            rw [List.filterMap_filterMap]; rfl
        _ = (t.received ++ rest).filterMap Outbound.data? := by rw [hrest]
        _ = xs ++ x :: y :: (ys ++ rest.filterMap Outbound.data?) := by
            rw [List.filterMap_append, hreceived, List.append_assoc]; rfl
    obtain ⟨before, between, after, hpostings, hbefore, hbetween⟩ := Posting.between_of_sent hsent
    have hlost := Posting.length_data hbetween
    have hpackets : (clock.packets (as.filterMap Act.output?)).map Packet.datagram =
        before.filterMap Posting.data? ++
          x :: (between.filterMap Posting.data? ++ y :: after.filterMap Posting.data?) := by
      rw [← data_published, ← hposted.messages, List.filterMap_map, ← Posting.data_around,
        ← hpostings]
      rfl
    obtain ⟨p, q, hp, hq, hseq⟩ := gap_of_seq hpackets
    obtain ⟨hdistance, hgap⟩ := toNat_gap p.seq (between.filterMap Posting.data?).length
    rw [← hseq] at hdistance hgap
    exact ⟨before, between, after, p, q, hpostings, hbefore, hp, hq, hlost, hdistance,
      fun hlt => (hgap hlt).trans hlost⟩

/-- A single slot: the second packet finds it taken, and so does the announcement. -/
def sampleActs : List Act :=
  [.block 0 [1], .block 0 [2], .control 0 ⟨false, ⟨3, 1, 64, 2⟩⟩, .receive, .block 0 [],
    .block 0 [3], .receive]

/-- The two numbers that arrive show that one packet was dropped. -/
theorem gaps_show_drops_sample : ∃ outbox, Outbox.new? 1 = some outbox ∧
    ∃ x y, ((new (.new 7 2 3) outbox).steps sampleActs).received = [.data x, .data y] ∧
      Packet.ofDatagram? x = some ⟨0, 7, 1, [1]⟩ ∧ Packet.ofDatagram? y = some ⟨2, 2007, 1, [3]⟩ ∧
      ∃ before between after, ((new (.new 7 2 3) outbox).steps sampleActs).postings =
          before ++ ⟨.data x, none⟩ :: (between ++ ⟨.data y, none⟩ :: after) ∧
        between.countP Posting.lost = 1 := by
  have hnew : Outbox.new? 1 = some ⟨⟨1, []⟩, false⟩ := rfl
  obtain ⟨-, -, -, hgap⟩ := gaps_show_drops hnew (.new 7 2 3) sampleActs
  have hreceived : ((new (.new 7 2 3) ⟨⟨1, []⟩, false⟩).steps sampleActs).received =
      [.data (Packet.datagram ⟨0, 7, 1, [1]⟩), .data (Packet.datagram ⟨2, 2007, 1, [3]⟩)] := by
    decide +kernel
  obtain ⟨before, between, after, p, q, hpostings, -, hp, hq, -, -, hcount⟩ :=
    hgap [] _ _ [] (by rw [hreceived]; rfl)
  rw [Packet.ofDatagram?_datagram, Option.some.injEq] at hp hq
  subst hp hq
  refine ⟨_, hnew, _, _, hreceived, Packet.ofDatagram?_datagram _, Packet.ofDatagram?_datagram _,
    before, between, after, hpostings, ?_⟩
  have hlt : (between.filterMap Posting.data?).length < 2 ^ 32 := by
    have hall : (((new (.new 7 2 3) ⟨⟨1, []⟩, false⟩).steps sampleActs).postings.filterMap
        Posting.data?).length = 3 := by decide +kernel
    rw [hpostings, Posting.data_around] at hall
    simp only [List.length_append, List.length_cons] at hall
    omega
  exact (hcount hlt).symm.trans (by decide)

end Traffic

end MicStream
