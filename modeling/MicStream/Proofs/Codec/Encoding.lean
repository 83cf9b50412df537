import MicStream.Codec.Encoder
/-!
# Calls of the encoder

Whatever was done with an encoder before, once it has been opened it stays
open, its raw buffer has its full size (`Ready`), and the length of blocks,
the rate and the channels stay what they are.

Results:
* `ready_of_init`: a successful opening leaves an encoder that is ready.
* `encode_ok_iff`: the encoder fails exactly on the replies that fail.
* `Ready.out`: what one call leaves in the output.
* `Ready.out_of_call`: what any call of a row leaves in the output.
-/
namespace MicStream

/-- Whether the encoder fails on a reply: an error, or more bytes claimed than its buffer holds. -/
def CodecReply.fails (r : CodecReply) : Bool :=
  match r.claimed with
  | .error _ => true
  | .ok n => decide (Encoder.capacity < n)

/-- An open encoder: blocks have a length, and the raw buffer has its full size. -/
structure Encoder.Ready (e : Encoder) : Prop where
  isOpen : e.isOpen = true
  frameLength_pos : 0 < e.frameLength
  length_rawBuffer : e.rawBuffer.length = Encoder.capacity

namespace Encoder

theorem encode_frame (e : Encoder) (r : CodecReply) (out : List UInt8) :
    (e.encode r out).1.isOpen = e.isOpen ∧ (e.encode r out).1.frameLength = e.frameLength ∧
      (e.encode r out).1.sampleRate = e.sampleRate ∧ (e.encode r out).1.channels = e.channels := by
  unfold encode
  split
  · dsimp only
    split
    · exact ⟨rfl, rfl, rfl, rfl⟩
    · exact ⟨rfl, rfl, rfl, rfl⟩
    · split <;> exact ⟨rfl, rfl, rfl, rfl⟩
  · exact ⟨rfl, rfl, rfl, rfl⟩

theorem Ready.encode {e : Encoder} (h : e.Ready) (r : CodecReply) (out : List UInt8) :
    (e.encode r out).1.Ready := by
  obtain ⟨h1, h2, -, -⟩ := encode_frame e r out
  refine ⟨by rw [h1]; exact h.isOpen, by rw [h2]; exact h.frameLength_pos, ?_⟩
  rw [rawBuffer_length_encode]; exact h.length_rawBuffer

/-- The encoder fails on the replies that fail, and on no others. -/
theorem encode_ok_iff {e : Encoder} (h : e.Ready) (r : CodecReply) (out : List UInt8) :
    (e.encode r out).2.2 = .ok () ↔ r.fails = false := by
  have hl : (overwrite r.written e.rawBuffer).length = capacity := by
    rw [length_overwrite, h.length_rawBuffer]
  unfold encode CodecReply.fails
  rw [if_pos h.isOpen]
  cases r.claimed with
  | error cause => simp
  | ok n =>
    cases n with
    | zero => simp
    | succ n =>
      simp only [hl]
      by_cases hn : capacity < n + 1
      · simp [hn]
      · simp [hn]

theorem init_ok {e e' : Encoder} {p : CodecParams} {a : Except String Nat}
    (h : e.init p a = (e', .ok ())) : ∃ n, 0 < n ∧
      e' = ⟨true, n, p.sampleRate, p.channels, e.rawBuffer⟩ := by
  unfold init at h
  cases a with
  | error cause => simp at h
  | ok n =>
    by_cases hn : n = 0
    · simp [hn] at h
    · simp only [hn, if_false, Prod.mk.injEq, and_true] at h
      exact ⟨n, Nat.pos_of_ne_zero hn, h.symm⟩

theorem ready_of_init {e e' : Encoder} {p : CodecParams} {a : Except String Nat}
    (hb : e.rawBuffer.length = capacity) (h : e.init p a = (e', .ok ())) : e'.Ready := by
  obtain ⟨n, hn, rfl⟩ := init_ok h
  exact ⟨rfl, hn, hb⟩

theorem params_of_init {e e' : Encoder} {p : CodecParams} {a : Except String Nat}
    (h : e.init p a = (e', .ok ())) : e'.sampleRate = p.sampleRate ∧ e'.channels = p.channels := by
  obtain ⟨n, -, rfl⟩ := init_ok h
  exact ⟨rfl, rfl⟩

/-- What a call leaves in the output: nothing, or a header and the bytes that the codec claims. -/
theorem Ready.out {e : Encoder} (h : e.Ready) (r : CodecReply) (out : List UInt8) :
    (e.encode r out).2.1 = [] ∨ ∃ n, r.claimed = .ok n ∧ 0 < n ∧ n ≤ capacity ∧
      (e.encode r out).2.1 =
        Adts.header n e.sampleRate e.channels ++ (e.encode r out).1.rawBuffer.take n := by
  have hl : (overwrite r.written e.rawBuffer).length = capacity := by
    rw [length_overwrite, h.length_rawBuffer]
  unfold Encoder.encode
  rw [if_pos h.isOpen]
  cases hc : r.claimed with
  | error cause => exact .inl rfl
  | ok n =>
    cases n with
    | zero => exact .inl rfl
    | succ n =>
      simp only [hl]
      by_cases hn : capacity < n + 1
      · rw [if_pos hn]; exact .inl rfl
      · rw [if_neg hn]; exact .inr ⟨n + 1, rfl, Nat.succ_pos n, by omega, rfl⟩

/-! ## Rows of calls -/

/-- An encoder that some calls have made of a new one. -/
inductive Reached : Encoder → Prop where
  | new : Reached .new
  | init {e : Encoder} (p : CodecParams) (answer : Except String Nat) (h : Reached e) :
      Reached (e.init p answer).1
  | encode {e : Encoder} (r : CodecReply) (out : List UInt8) (h : Reached e) :
      Reached (e.encode r out).1
  | close {e : Encoder} (h : Reached e) : Reached e.close

theorem length_rawBuffer_init (e : Encoder) (p : CodecParams) (answer : Except String Nat) :
    (e.init p answer).1.rawBuffer.length = e.rawBuffer.length := by
  unfold init
  cases answer with
  | error cause => rfl
  | ok n => dsimp only; split <;> rfl

theorem Reached.length_rawBuffer {e : Encoder} (h : e.Reached) :
    e.rawBuffer.length = capacity := by
  induction h with
  | new => simp [Encoder.new]
  | init p answer _ ih => rw [length_rawBuffer_init]; exact ih
  | encode r out _ ih => rw [rawBuffer_length_encode]; exact ih
  | close _ ih => exact ih

/-- A call to code a block, with what is there after it. -/
structure Call where
  reply : CodecReply
  /-- The encoder after the call. -/
  encoder : Encoder
  /-- The output after the call. -/
  out : List UInt8

def calls : Encoder → List (CodecReply × List UInt8) → List Call
  | _, [] => []
  | e, (r, out) :: row =>
    ⟨r, (e.encode r out).1, (e.encode r out).2.1⟩ :: calls (e.encode r out).1 row

theorem Ready.out_of_call {c : Call} : ∀ {row : List (CodecReply × List UInt8)} {e : Encoder},
    e.Ready → c ∈ e.calls row → c.out ≠ [] →
      ∃ n, c.reply.claimed = .ok n ∧ 0 < n ∧ n ≤ capacity ∧
        c.encoder.rawBuffer.length = capacity ∧
        c.out = Adts.header n e.sampleRate e.channels ++ c.encoder.rawBuffer.take n
  | [], _, _, hc, _ => nomatch hc
  | (r, out) :: row, e, h, hc, hne => by
    obtain ⟨-, -, hrate, hch⟩ := encode_frame e r out
    rcases List.mem_cons.1 hc with rfl | hc
    · rcases h.out r out with h0 | ⟨n, h1, h2, h3, h4⟩
      · exact absurd h0 hne
      · exact ⟨n, h1, h2, h3, (h.encode r out).length_rawBuffer, h4⟩
    · have := (h.encode r out).out_of_call hc hne
      rwa [hrate, hch] at this

end Encoder

end MicStream
