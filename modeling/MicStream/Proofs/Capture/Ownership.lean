import Mathlib.Data.List.Induction
import MicStream.Capture.Device
/-!
# A capture owns one stream

A capture is used by any sequence of calls (`Call`), and the device may refuse
every stream and fail every read. `calls` is where they lead, with all that
the device saw. The stream that is open is the one of the last attempt to open
one, if it succeeded and only reads came after it (`Standing`); `Kept` is what
holds of the capture and of what the device saw, whatever the calls were.

Results:
* `Kept.call`: one call more keeps it.
* `one_stream_owned`: from a new capture it holds after any calls, nothing is
  live once the capture is dropped, a failed attempt leaves it closed, and
  reads touch the buffer alone.
-/
namespace MicStream.Capture

/-! ## Calls -/

/-- An attempt to open a stream. The device refuses it for a cause or grants it. -/
structure Attempt where
  card : UInt32
  device : UInt32
  cfg : AudioConfig
  refusal : Option String

namespace Attempt

def make (a : Attempt) (c : Capture) : Capture × List DeviceEffect × Except CaptureError Unit :=
  c.openStream a.card a.device a.cfg a.refusal

def Succeeds (a : Attempt) (c : Capture) : Prop := (a.make c).2.2 = .ok ()

/-- What the device is asked for, if it is: the layout has no fault then. -/
def asks? (a : Attempt) : Option (UInt32 × UInt32 × PcmParams) :=
  match a.cfg.fault? with
  | some _ => none
  | none => some (a.card, a.device,
      ⟨a.cfg.sampleRate, a.cfg.channels, a.cfg.frameSize, a.cfg.periodCount⟩)

end Attempt

/-- A call on a capture, with what the device answers to it. -/
inductive Call where
  | openPlain (card device rate channels : UInt32) (periodSize : Nat) (periodCount : UInt32)
      (refusal : Option String)
  | openStream (card device : UInt32) (cfg : AudioConfig) (refusal : Option String)
  | readPeriod (reply : PeriodReply) (out : List Int16)
  | readSplit (reply : PeriodReply) (out : List (List Int16))
  | close

namespace Call

/-- The attempt that a call is, if it opens a stream. -/
def attempt? : Call → Option Attempt
  | .openPlain card device rate channels periodSize periodCount refusal =>
    some ⟨card, device, ⟨rate, periodSize, channels, 1, periodCount⟩, refusal⟩
  | .openStream card device cfg refusal => some ⟨card, device, cfg, refusal⟩
  | _ => none

def isRead : Call → Bool
  | .readPeriod _ _ => true
  | .readSplit _ _ => true
  | _ => false

end Call

def call (c : Capture) : Call → Capture × List DeviceEffect
  | .openPlain card device rate channels periodSize periodCount refusal =>
    let r := c.openPlain card device rate channels periodSize periodCount refusal
    (r.1, r.2.1)
  | .openStream card device cfg refusal =>
    let r := c.openStream card device cfg refusal
    (r.1, r.2.1)
  | .readPeriod _ _ => (c, [])
  | .readSplit reply out => ((c.readSplit reply out).1, [])
  | .close => c.close

def calls : Capture → List Call → Capture × List DeviceEffect
  | c, [] => (c, [])
  | c, k :: ks => (((c.call k).1.calls ks).1, (c.call k).2 ++ ((c.call k).1.calls ks).2)

theorem calls_concat (c : Capture) (ks : List Call) (k : Call) :
    c.calls (ks ++ [k]) =
      (((c.calls ks).1.call k).1, (c.calls ks).2 ++ ((c.calls ks).1.call k).2) := by
  induction ks generalizing c with
  | nil => simp [calls]
  | cons l ks ih => simp [calls, ih]

/-! ## What one call does -/

theorem Call.isRead_of_attempt {k : Call} {a : Attempt} (h : k.attempt? = some a) :
    k.isRead = false := by
  cases k <;> first | rfl | cases h

theorem call_of_attempt {c : Capture} {k : Call} {a : Attempt} (h : k.attempt? = some a) :
    c.call k = ((a.make c).1, (a.make c).2.1) := by
  cases k <;> cases h <;> rfl

/-- A read writes to the buffer, if to anything, and the device sees no more of it. -/
theorem call_of_read {c : Capture} {k : Call} (h : k.isRead = true) :
    ∃ buffer, buffer.length = c.buffer.length ∧ c.call k = ({ c with buffer }, []) := by
  cases k with
  | readPeriod reply out => exact ⟨c.buffer, rfl, rfl⟩
  | readSplit reply out =>
    simp only [call, readSplit]
    split
    · refine ⟨overwrite reply.written c.buffer, length_overwrite _ _, ?_⟩
      split <;> rfl
    · exact ⟨c.buffer, rfl, rfl⟩
  | _ => exact absurd h Bool.false_ne_true

/-- What an attempt does: the stream before it is released in any case. -/
theorem Attempt.make_cases (a : Attempt) (c : Capture) :
    (∃ fault, a.cfg.fault? = some fault ∧
      a.make c = (c.close.1, c.close.2, .error (.invalid fault))) ∨
    (∃ cause, a.cfg.fault? = none ∧ a.refusal = some cause ∧
      a.make c = (c.close.1, c.close.2 ++ [.asked a.card a.device (request a.cfg)],
        .error (.openFailed a.card a.device cause))) ∨
    (a.cfg.fault? = none ∧ a.refusal = none ∧
      a.make c = (⟨true, a.cfg.sampleRate, a.cfg.channels, a.cfg.frameSize, a.cfg.periodCount,
          a.cfg.gain, List.replicate (a.cfg.frameSize * a.cfg.channels.toNat) 0⟩,
        c.close.2 ++ [.asked a.card a.device (request a.cfg)] ++ [.opened], .ok ())) := by
  unfold make openStream
  cases a.cfg.fault? with
  | some fault => exact .inl ⟨fault, rfl, rfl⟩
  | none =>
    cases a.refusal with
    | some cause => exact .inr (.inl ⟨cause, rfl, rfl, rfl⟩)
    | none => exact .inr (.inr ⟨rfl, rfl, rfl⟩)

theorem Attempt.closed_of_failed {a : Attempt} {c : Capture} (h : ¬ a.Succeeds c) :
    (a.make c).1.isOpen = false := by
  rcases a.make_cases c with ⟨_, _, hm⟩ | ⟨_, _, _, hm⟩ | ⟨_, _, hm⟩
  · rw [hm]; rfl
  · rw [hm]; rfl
  · exact absurd (by rw [Succeeds, hm]) h

/-! ## The stream that is open -/

/-- The last attempt of some calls, if it succeeded and only reads came after it. -/
def Standing (ks : List Call) (a : Attempt) : Prop :=
  ∃ before k later, ks = before ++ k :: later ∧ k.attempt? = some a ∧
    a.Succeeds (new.calls before).1 ∧ ∀ l ∈ later, l.isRead = true

theorem not_standing_nil (a : Attempt) : ¬ Standing [] a := by
  rintro ⟨before, k, later, h, -⟩
  simp at h

theorem concat_eq_append_cons {α : Type} {xs before later : List α} {x y : α}
    (h : xs ++ [x] = before ++ y :: later) :
    (before = xs ∧ y = x ∧ later = []) ∨
      ∃ later', later = later' ++ [x] ∧ xs = before ++ y :: later' := by
  rcases List.eq_nil_or_concat later with rfl | ⟨later', z, rfl⟩
  · obtain ⟨h, hx⟩ := List.append_inj' h rfl
    exact .inl ⟨h.symm, (List.singleton_inj.1 hx).symm, rfl⟩
  · have h : xs ++ [x] = (before ++ y :: later') ++ [z] := by simpa using h
    obtain ⟨h, hx⟩ := List.append_inj' h rfl
    exact .inr ⟨later', by rw [List.singleton_inj.1 hx, List.concat_eq_append], h⟩

theorem standing_read {ks : List Call} {a : Attempt} {k : Call} (h : k.isRead = true) :
    Standing (ks ++ [k]) a ↔ Standing ks a := by
  constructor
  · rintro ⟨before, l, later, hks, ha, hs, hl⟩
    rcases concat_eq_append_cons hks with ⟨-, rfl, -⟩ | ⟨later, rfl, rfl⟩
    · exact absurd h (by simp [Call.isRead_of_attempt ha])
    · exact ⟨before, l, later, rfl, ha, hs, fun m hm => hl m (List.mem_append_left _ hm)⟩
  · rintro ⟨before, l, later, rfl, ha, hs, hl⟩
    refine ⟨before, l, later ++ [k], by simp, ha, hs, fun m hm => ?_⟩
    rcases List.mem_append.1 hm with hm | hm
    · exact hl m hm
    · rw [List.mem_singleton.1 hm]; exact h

/-- A call that is no read decides alone what stands after it. -/
theorem standing_other {ks : List Call} {a : Attempt} {k : Call} (h : k.isRead = false) :
    Standing (ks ++ [k]) a ↔ k.attempt? = some a ∧ a.Succeeds (new.calls ks).1 := by
  constructor
  · rintro ⟨before, l, later, hks, ha, hs, hl⟩
    rcases concat_eq_append_cons hks with ⟨rfl, rfl, -⟩ | ⟨later, rfl, rfl⟩
    · exact ⟨ha, hs⟩
    · exact absurd (hl k (by simp)) (by simp [h])
  · rintro ⟨ha, hs⟩
    exact ⟨ks, k, [], rfl, ha, hs, nofun⟩

/-! ## What the device sees -/

/-- What a device sees that has at most one stream, and whether it has one then. -/
inductive Log : Bool → List DeviceEffect → Prop where
  | new : Log false []
  | released {es} (h : Log true es) : Log false (es ++ [.released])
  | asked {es} (card device : UInt32) (params : PcmParams) (h : Log false es) :
    Log false (es ++ [.asked card device params])
  | opened {es} (h : Log false es) : Log true (es ++ [.opened])

theorem live_append (n : Int) (es fs : List DeviceEffect) :
    live n (es ++ fs) = live (live n es) fs :=
  List.foldl_append

namespace Log
variable {held : Bool} {es : List DeviceEffect}

theorem live (h : Log held es) : Capture.live 0 es = if held then 1 else 0 := by
  induction h with
  | new => rfl
  | released _ ih => rw [live_append, ih]; rfl
  | asked _ _ _ _ ih => rw [live_append, ih]; rfl
  | opened _ ih => rw [live_append, ih]; rfl

theorem earlier (h : Log held es) {before : List DeviceEffect} (hb : before <+: es) :
    ∃ held, Log held before := by
  induction h with
  | new => exact ⟨false, List.prefix_nil.1 hb ▸ .new⟩
  | released h ih =>
    rcases List.prefix_concat_iff.1 hb with rfl | hb
    · exact ⟨_, h.released⟩
    · exact ih hb
  | asked card device params h ih =>
    rcases List.prefix_concat_iff.1 hb with rfl | hb
    · exact ⟨_, h.asked card device params⟩
    · exact ih hb
  | opened h ih =>
    rcases List.prefix_concat_iff.1 hb with rfl | hb
    · exact ⟨_, h.opened⟩
    · exact ih hb

theorem single (h : Log held es) {before : List DeviceEffect} (hb : before <+: es) :
    0 ≤ Capture.live 0 before ∧ Capture.live 0 before ≤ 1 := by
  obtain ⟨held, h⟩ := h.earlier hb
  rw [h.live]
  cases held <;> decide

theorem alone (h : Log held es) {before later : List DeviceEffect} {card device : UInt32}
    {params : PcmParams} (hes : es = before ++ .asked card device params :: later) :
    Capture.live 0 before = 0 := by
  induction h generalizing later with
  | new => simp at hes
  | released _ ih | opened _ ih =>
    rcases concat_eq_append_cons hes with ⟨-, h, -⟩ | ⟨later, -, hes⟩
    · cases h
    · exact ih hes
  | asked _ _ _ h ih =>
    rcases concat_eq_append_cons hes with ⟨rfl, -, -⟩ | ⟨later, -, hes⟩
    · exact h.live
    · exact ih hes

theorem close {c : Capture} (h : Log c.isOpen es) : Log false (es ++ c.close.2) := by
  unfold Capture.close
  cases hc : c.isOpen with
  | false => rw [hc] at h; simpa using h
  | true => rw [hc] at h; exact h.released

/-- An attempt leaves a log, and asks for what its layout says if it has no fault. -/
theorem make {c : Capture} (h : Log c.isOpen es) (a : Attempt) :
    Log (a.make c).1.isOpen (es ++ (a.make c).2.1) := by
  rcases a.make_cases c with ⟨_, -, hm⟩ | ⟨_, -, -, hm⟩ | ⟨-, -, hm⟩
  · rw [hm]
    exact h.close
  · rw [hm, ← List.append_assoc]
    exact h.close.asked _ _ _
  · rw [hm, ← List.append_assoc, ← List.append_assoc]
    exact (h.close.asked _ _ _).opened

end Log

def asked? : DeviceEffect → Option (UInt32 × UInt32 × PcmParams)
  | .asked card device params => some (card, device, params)
  | _ => none

theorem asked_close (c : Capture) : c.close.2.filterMap asked? = [] := by
  unfold close
  cases c.isOpen <;> rfl

theorem asked_make (a : Attempt) (c : Capture) :
    (a.make c).2.1.filterMap asked? = a.asks?.toList := by
  unfold Attempt.asks?
  rcases a.make_cases c with ⟨_, hf, hm⟩ | ⟨_, hf, -, hm⟩ | ⟨hf, -, hm⟩
  · rw [hm, hf]
    exact asked_close c
  · rw [hm, hf, List.filterMap_append, asked_close]
    rfl
  · rw [hm, hf, List.filterMap_append, List.filterMap_append, asked_close]
    rfl

/-! ## What holds after any calls -/

/-- A capture has a layout and its gain, and room for one period of it. -/
structure Holds (c : Capture) (cfg : AudioConfig) : Prop where
  rate : c.rate = cfg.sampleRate
  channels : c.channels = cfg.channels
  periodSize : c.periodSize = cfg.frameSize
  periodCount : c.periodCount = cfg.periodCount
  gain : c.gain = cfg.gain
  buffer : c.buffer.length = c.periodSize * c.channels.toNat

theorem Attempt.Succeeds.holds {a : Attempt} {c : Capture} (h : a.Succeeds c) :
    (a.make c).1.isOpen = true ∧ (a.make c).1.Holds a.cfg := by
  unfold Attempt.Succeeds at h
  rcases a.make_cases c with ⟨_, -, hm⟩ | ⟨_, -, -, hm⟩ | ⟨-, -, hm⟩
  · rw [hm] at h; cases h
  · rw [hm] at h; cases h
  · rw [hm]
    exact ⟨rfl, rfl, rfl, rfl, rfl, rfl, List.length_replicate⟩

/-- What is known of a capture after some calls, and of what the device saw of them. -/
structure Kept (ks : List Call) (c : Capture) (seen : List DeviceEffect) : Prop where
  log : Log c.isOpen seen
  asked : seen.filterMap asked? = (ks.filterMap Call.attempt?).filterMap Attempt.asks?
  isOpen : c.isOpen = true ↔ ∃ a, Standing ks a
  holds : ∀ a, Standing ks a → c.Holds a.cfg

namespace Kept
variable {ks : List Call} {k : Call}

theorem read (h : Kept ks (new.calls ks).1 (new.calls ks).2) (hk : k.isRead = true) :
    Kept (ks ++ [k]) (new.calls (ks ++ [k])).1 (new.calls (ks ++ [k])).2 := by
  obtain ⟨buffer, hb, hc⟩ := call_of_read hk
  have hn : k.attempt? = none := by
    cases ha : k.attempt? with
    | none => rfl
    | some a => exact absurd hk (by simp [Call.isRead_of_attempt ha])
  rw [calls_concat, hc]
  refine ⟨by simpa using h.log, ?_, ?_, fun a ha => ?_⟩
  · simpa [hn] using h.asked
  · simp only [standing_read hk]
    exact h.isOpen
  · obtain ⟨hr, hch, hs, hp, hg, hl⟩ := h.holds a ((standing_read hk).1 ha)
    exact ⟨hr, hch, hs, hp, hg, hb.trans hl⟩

theorem attempt {a : Attempt} (h : Kept ks (new.calls ks).1 (new.calls ks).2)
    (hk : k.attempt? = some a) :
    Kept (ks ++ [k]) (new.calls (ks ++ [k])).1 (new.calls (ks ++ [k])).2 := by
  have hst (b : Attempt) : Standing (ks ++ [k]) b ↔ a = b ∧ b.Succeeds (new.calls ks).1 := by
    rw [standing_other (Call.isRead_of_attempt hk), hk, Option.some.injEq]
  rw [calls_concat, call_of_attempt hk]
  refine ⟨h.log.make a, ?_, ?_, fun b hb => ?_⟩
  · rw [List.filterMap_append, h.asked, asked_make]
    cases ha : a.asks? <;> simp [hk, ha]
  · constructor
    · intro ho
      refine ⟨a, (hst a).2 ⟨rfl, ?_⟩⟩
      by_contra hs
      rw [Attempt.closed_of_failed hs] at ho
      cases ho
    · rintro ⟨b, hb⟩
      obtain ⟨rfl, hs⟩ := (hst b).1 hb
      exact hs.holds.1
  · obtain ⟨rfl, hs⟩ := (hst b).1 hb
    exact hs.holds.2

theorem closed (h : Kept ks (new.calls ks).1 (new.calls ks).2) :
    Kept (ks ++ [.close]) (new.calls (ks ++ [.close])).1 (new.calls (ks ++ [.close])).2 := by
  have hst (b : Attempt) : ¬ Standing (ks ++ [.close]) b := by
    rw [standing_other rfl]
    exact fun h => nomatch h.1
  rw [calls_concat]
  refine ⟨h.log.close, ?_, ?_, fun b hb => absurd hb (hst b)⟩
  · rw [List.filterMap_append, h.asked, call, asked_close]
    simp [Call.attempt?]
  · exact ⟨fun h => Bool.noConfusion h, fun ⟨b, hb⟩ => absurd hb (hst b)⟩

theorem call (h : Kept ks (new.calls ks).1 (new.calls ks).2) (k : Call) :
    Kept (ks ++ [k]) (new.calls (ks ++ [k])).1 (new.calls (ks ++ [k])).2 := by
  cases k with
  | openPlain | openStream => exact h.attempt rfl
  | readPeriod | readSplit => exact h.read rfl
  | close => exact h.closed

end Kept

theorem kept_calls (ks : List Call) : Kept ks (new.calls ks).1 (new.calls ks).2 := by
  induction ks using List.reverseRecOn with
  | nil =>
    refine ⟨.new, rfl, ⟨fun h => Bool.noConfusion h, fun ⟨a, h⟩ => ?_⟩, fun a h => ?_⟩
    · exact absurd h (not_standing_nil a)
    · exact absurd h (not_standing_nil a)
  | append_singleton ks k ih => exact ih.call k

/-- Whatever is called on a new capture and whatever the device answers: as many streams are live
as the capture is open, at no moment more than one, and none once it is dropped. The device is
asked for a stream when the one before is released, once for each attempt whose layout has no
fault, and for that layout. The capture is open if the last attempt succeeded and was not closed
since, and then has the layout and gain of that attempt and a buffer for one period of it. A failed
attempt leaves it closed, and a read touches no more than the samples in the buffer. -/
theorem one_stream_owned (ks : List Call) :
    let c := (new.calls ks).1
    let seen := (new.calls ks).2
    (live 0 seen = if c.isOpen then 1 else 0) ∧
    (∀ before, before <+: seen → 0 ≤ live 0 before ∧ live 0 before ≤ 1) ∧
    live 0 (seen ++ c.drop) = 0 ∧
    (∀ before card device params later, seen = before ++ .asked card device params :: later →
      live 0 before = 0) ∧
    seen.filterMap asked? = (ks.filterMap Call.attempt?).filterMap Attempt.asks? ∧
    (c.isOpen = true ↔ ∃ a, Standing ks a) ∧
    (∀ a, Standing ks a → c.Holds a.cfg) ∧
    (∀ a : Attempt, ¬ a.Succeeds c → (a.make c).1.isOpen = false) ∧
    ∀ k : Call, k.isRead = true →
      ∃ buffer, buffer.length = c.buffer.length ∧ c.call k = ({ c with buffer }, []) := by
  intro c seen
  have h : Kept ks c seen := kept_calls ks
  exact ⟨h.log.live, fun _ => h.log.single, h.log.close.live, fun _ _ _ _ _ => h.log.alone, h.asked,
    h.isOpen, h.holds, fun _ => Attempt.closed_of_failed, fun _ => call_of_read⟩

end MicStream.Capture
