import MicStream.Proofs.Codec.Encoding
import MicStream.Stream.Coding
/-!
# Blocks of a stream

The codec sees a stream of samples as `chunks`: whole blocks of one length,
one behind the other. What comes of them does not depend on the frames that
brought the samples: the encoder goes from block to block (`Encoder.after`),
leaves an output for each (`Encoder.outputs`), and the clock makes packets of
the outputs that are not empty (`Clock.packets`).

Results:
* `take_chunks_append`: samples that come later leave the blocks before them alone.
* `block_of_fine`: one block in terms of its output.
* `At.block`, `At.take`: the coding side after some blocks of a stream.
* `At.frames`: a sequence of frames in terms of the blocks of its stream.
-/
namespace MicStream

/-! ## Chunks -/

/-- The whole pieces of `n` entries that a list starts with, one behind the other. -/
def chunks {α : Type} (n : Nat) (xs : List α) : List (List α) :=
  (List.range (xs.length / n)).map fun i => (xs.drop (i * n)).take n

section Chunks
variable {α : Type} {n : Nat}

@[simp] theorem length_chunks (xs : List α) : (chunks n xs).length = xs.length / n := by
  simp [chunks]

theorem getElem?_chunks {xs : List α} {k : Nat} (h : k < xs.length / n) :
    (chunks n xs)[k]? = some ((xs.drop (k * n)).take n) := by
  simp [chunks, h]

theorem chunk_le {len i : Nat} (h : i < len / n) : i * n + n ≤ len := by
  rw [← Nat.succ_mul]
  exact (Nat.le_div_iff_mul_le (Nat.pos_of_ne_zero fun e => by simp [e] at h)).1 h

/-- Samples behind a stream leave its blocks alone. -/
theorem take_chunks_append {xs ys : List α} {k : Nat} (h : k ≤ xs.length / n) :
    (chunks n (xs ++ ys)).take k = (chunks n xs).take k := by
  apply List.ext_getElem?
  intro i
  rw [List.getElem?_take, List.getElem?_take]
  split
  · rename_i hi
    have hx : i < xs.length / n := by omega
    have hxy : i < (xs ++ ys).length / n := by
      have := Nat.div_le_div_right (c := n) (show xs.length ≤ (xs ++ ys).length by simp)
      omega
    have hle := chunk_le hx
    rw [getElem?_chunks hx, getElem?_chunks hxy, List.drop_append_of_le_length (by omega),
      List.take_append_of_le_length (by rw [List.length_drop]; omega)]
  · rfl

theorem length_of_mem_chunks {xs b : List α} (h : b ∈ chunks n xs) : b.length = n := by
  simp only [chunks, List.mem_map, List.mem_range] at h
  obtain ⟨i, hi, rfl⟩ := h
  have hle := chunk_le hi
  rw [List.length_take, List.length_drop]
  omega

/-- The first blocks of a stream and what is behind them make up the stream. -/
theorem flatten_take_chunks (xs : List α) :
    ∀ {k : Nat}, k ≤ xs.length / n → ((chunks n xs).take k).flatten ++ xs.drop (k * n) = xs
  | 0, _ => by simp
  | k + 1, h => by
    rw [List.take_add_one, getElem?_chunks h, Nat.succ_mul, ← List.drop_drop]
    simp only [Option.toList_some, List.flatten_append, List.flatten_cons, List.flatten_nil,
      List.append_nil, List.append_assoc, List.take_append_drop]
    exact flatten_take_chunks xs (Nat.le_of_succ_le h)

/-- What does not fill a block stays behind the last one. -/
theorem length_drop_chunks_lt (hn : 0 < n) (xs : List α) :
    (xs.drop (xs.length / n * n)).length < n := by
  rw [List.length_drop]
  have := Nat.div_add_mod' xs.length n
  have := Nat.mod_lt xs.length hn
  omega

end Chunks

/-! ## The encoder from block to block -/

namespace Encoder

/-- The encoder behind some blocks; `given` are the blocks before them, newest first. -/
def after (codec : Codec) : Encoder → List (List Int16) → List (List Int16) → Encoder
  | e, _, [] => e
  | e, given, b :: bs => after codec (e.encode (codec.reply (b :: given)) []).1 (b :: given) bs

def outputs (codec : Codec) :
    Encoder → List (List Int16) → List (List Int16) → List (List UInt8)
  | _, _, [] => []
  | e, given, b :: bs =>
    (e.encode (codec.reply (b :: given)) []).2.1 ::
      outputs codec (e.encode (codec.reply (b :: given)) []).1 (b :: given) bs

variable {codec : Codec}

theorem after_concat (b : List Int16) : ∀ (bs : List (List Int16)) (e : Encoder)
    (given : List (List Int16)), e.after codec given (bs ++ [b]) =
      ((e.after codec given bs).encode (codec.reply (b :: (bs.reverse ++ given))) []).1
  | [], _, _ => rfl
  | a :: bs, e, given => by
    simp only [List.cons_append, after, List.reverse_cons, List.append_assoc, List.nil_append]
    exact after_concat b bs _ _

theorem outputs_append (bs' : List (List Int16)) : ∀ (bs : List (List Int16)) (e : Encoder)
    (given : List (List Int16)), e.outputs codec given (bs ++ bs') = e.outputs codec given bs ++
      (e.after codec given bs).outputs codec (bs.reverse ++ given) bs'
  | [], _, _ => rfl
  | a :: bs, e, given => by
    simp only [List.cons_append, after, outputs, List.reverse_cons, List.append_assoc,
      List.nil_append]
    rw [outputs_append bs' bs]

theorem outputs_concat (b : List Int16) (bs : List (List Int16)) (e : Encoder)
    (given : List (List Int16)) : e.outputs codec given (bs ++ [b]) = e.outputs codec given bs ++
      [((e.after codec given bs).encode (codec.reply (b :: (bs.reverse ++ given))) []).2.1] := by
  rw [outputs_append]; rfl

theorem after_ready {bs : List (List Int16)} : ∀ {e : Encoder} {given : List (List Int16)},
    e.Ready → (e.after codec given bs).Ready := by
  induction bs with
  | nil => exact id
  | cons b bs ih => exact fun h => ih (h.encode _ _)

theorem after_frameLength {bs : List (List Int16)} : ∀ {e : Encoder} {given : List (List Int16)},
    (e.after codec given bs).frameLength = e.frameLength := by
  induction bs with
  | nil => exact rfl
  | cons b bs ih => exact ih.trans (encode_frame _ _ _).2.1

end Encoder

/-! ## The clock from block to block -/

namespace Clock

/-- The packet that an output comes to; an empty output comes to none. -/
def packet? (c : Clock) (out : List UInt8) : Option Packet :=
  if out = [] then none else some (c.packet out).1

/-- The clock behind a block with the given output. -/
def pass (c : Clock) (out : List UInt8) : Clock :=
  if out = [] then c.tick else (c.packet out).2.tick

/-- The clock behind blocks with the given outputs. -/
def after (c : Clock) (outs : List (List UInt8)) : Clock := outs.foldl pass c

def packets : Clock → List (List UInt8) → List Packet
  | _, [] => []
  | c, out :: outs => (c.packet? out).toList ++ packets (c.pass out) outs

theorem after_concat (c : Clock) (outs : List (List UInt8)) (out : List UInt8) :
    c.after (outs ++ [out]) = (c.after outs).pass out := by
  simp [after]

theorem packets_append : ∀ (outs outs' : List (List UInt8)) (c : Clock),
    c.packets (outs ++ outs') = c.packets outs ++ (c.after outs).packets outs'
  | [], _, _ => rfl
  | out :: outs, outs', c => by
    simp only [List.cons_append, packets, packets_append outs outs', List.append_assoc]
    rfl

theorem packets_concat (c : Clock) (outs : List (List UInt8)) (out : List UInt8) :
    c.packets (outs ++ [out]) = c.packets outs ++ ((c.after outs).packet? out).toList := by
  rw [packets_append]; simp [packets]

/-- Of the outputs, the packets carry those that are not empty. -/
theorem map_payload_packets : ∀ (outs : List (List UInt8)) (c : Clock),
    (c.packets outs).map Packet.payload = outs.filter (· ≠ [])
  | [], _ => rfl
  | out :: outs, c => by
    rw [packets, List.map_append, map_payload_packets outs]
    by_cases h : out = []
    · simp [packet?, h]
    · simp [packet?, packet, h]

end Clock

/-! ## The encoding side from block to block -/

namespace Coding

theorem block_of_fine {c : Coding} {r : CodecReply} (h : c.encoder.Ready) (hr : r.fails = false) :
    c.block r = (⟨(c.encoder.encode r []).1, c.clock.pass (c.encoder.encode r []).2.1,
      c.mono.drop c.blockLength⟩, .ok (c.clock.packet? (c.encoder.encode r []).2.1)) := by
  have hok := (Encoder.encode_ok_iff h r []).2 hr
  unfold block
  rcases he : c.encoder.encode r [] with ⟨e, out, res⟩
  rw [he] at hok
  obtain rfl : res = .ok () := hok
  cases out with
  | nil => rfl
  | cons b bs => rfl

theorem block_of_fails {c : Coding} {r : CodecReply} (h : c.encoder.Ready) (hr : r.fails = true) :
    ∃ err, c.block r = ({ c with encoder := (c.encoder.encode r []).1 }, .error err) := by
  have hok : (c.encoder.encode r []).2.2 ≠ .ok () := fun e => by
    rw [(Encoder.encode_ok_iff h r []).1 e] at hr; cases hr
  unfold block
  rcases he : c.encoder.encode r [] with ⟨e, out, res⟩
  rw [he] at hok
  cases res with
  | ok u => exact absurd rfl hok
  | error err => exact ⟨err, rfl⟩

theorem mono_of_failed {c c' : Coding} {r : CodecReply} {err : EncoderError}
    (h : c.block r = (c', .error err)) : c'.mono = c.mono := by
  unfold block at h
  split at h
  · cases h; rfl
  · cases h
  · cases h

/-- Whatever the codec replies, the encoder stays open and blocks keep their length. -/
theorem frame_block (c : Coding) (r : CodecReply) :
    (c.block r).1.encoder.isOpen = c.encoder.isOpen ∧
      (c.block r).1.blockLength = c.blockLength := by
  obtain ⟨ho, hf, -, -⟩ := Encoder.encode_frame c.encoder r []
  unfold block
  split
  · rename_i he; rw [he] at ho hf; exact ⟨ho, hf⟩
  · rename_i he; rw [he] at ho hf; exact ⟨ho, hf⟩
  · rename_i he; rw [he] at ho hf; exact ⟨ho, hf⟩

theorem blockLength_block {c c' : Coding} {r : CodecReply} {p : Option Packet}
    (h : c.block r = (c', .ok p)) : c'.blockLength = c.blockLength := by
  have hlen := (frame_block c r).2
  rw [h] at hlen
  exact hlen

def firstChannels (fs : List Frame) : List Int16 := fs.flatMap (·.headD [])

theorem firstChannels_append (fs gs : List Frame) :
    firstChannels (fs ++ gs) = firstChannels fs ++ firstChannels gs :=
  List.flatMap_append

def firstBlocks (c : Coding) (stream : List Int16) (k : Nat) : List (List Int16) :=
  (chunks c.blockLength stream).take k

/-- The reply to block `i` of a stream, if `old` are the blocks before the stream, newest first. -/
def replyAt (codec : Codec) (c : Coding) (old : List (List Int16)) (stream : List Int16) (i : Nat) :
    CodecReply :=
  codec.reply ((c.firstBlocks stream (i + 1)).reverse ++ old)

/-- What the first `k` blocks of a stream come to. -/
def outputsAt (codec : Codec) (c : Coding) (old : List (List Int16)) (stream : List Int16)
    (k : Nat) : List (List UInt8) :=
  c.encoder.outputs codec old (c.firstBlocks stream k)

/-- The first `k` blocks of a stream went through the codec without failure: `told` are their
packets, and `mono` is what the stream holds behind them. -/
structure Upto (codec : Codec) (c₀ : Coding) (old : List (List Int16)) (stream : List Int16)
    (k : Nat) (mono : List Int16) (told : List Packet) : Prop where
  le : k ≤ stream.length / c₀.blockLength
  fine : ∀ i < k, (c₀.replyAt codec old stream i).fails = false
  mono_eq : mono = stream.drop (k * c₀.blockLength)
  told_eq : told = c₀.clock.packets (c₀.outputsAt codec old stream k)

/-- `c` is what became of `c₀` through the first `k` blocks of a stream, and `given` are the blocks
that the codec was given. -/
structure At (codec : Codec) (c₀ : Coding) (old : List (List Int16)) (stream : List Int16)
    (k : Nat) (c : Coding) (given : List (List Int16)) (told : List Packet) : Prop
    extends Upto codec c₀ old stream k c.mono told where
  given_eq : given = (c₀.firstBlocks stream k).reverse ++ old
  encoder_eq : c.encoder = c₀.encoder.after codec old (c₀.firstBlocks stream k)
  clock_eq : c.clock = c₀.clock.after (c₀.outputsAt codec old stream k)

/-- Block `k` of a stream failed, behind `k` blocks without failure. -/
structure FailedAt (codec : Codec) (c₀ : Coding) (old : List (List Int16)) (stream : List Int16)
    (k : Nat) (mono : List Int16) (given : List (List Int16)) (told : List Packet) : Prop
    extends Upto codec c₀ old stream k mono told where
  lt : k < stream.length / c₀.blockLength
  fails : (c₀.replyAt codec old stream k).fails = true
  given_eq : given = (c₀.firstBlocks stream (k + 1)).reverse ++ old

section At
variable {codec : Codec} {c₀ c : Coding} {old given : List (List Int16)} {stream : List Int16}
  {k : Nat} {told : List Packet}

theorem firstBlocks_append (ys : List Int16) {i : Nat} (h : i ≤ stream.length / c₀.blockLength) :
    c₀.firstBlocks (stream ++ ys) i = c₀.firstBlocks stream i :=
  take_chunks_append h

theorem firstBlocks_succ (h : k < stream.length / c₀.blockLength) :
    c₀.firstBlocks stream (k + 1) =
      c₀.firstBlocks stream k ++ [(stream.drop (k * c₀.blockLength)).take c₀.blockLength] := by
  simp [firstBlocks, List.take_add_one, getElem?_chunks h]

theorem At.start (codec : Codec) (c₀ : Coding) (old : List (List Int16)) :
    At codec c₀ old c₀.mono 0 c₀ old [] where
  le := Nat.zero_le _
  fine := fun i hi => absurd hi (Nat.not_lt_zero i)
  given_eq := by simp [firstBlocks]
  encoder_eq := by simp [firstBlocks, Encoder.after]
  clock_eq := by simp [outputsAt, firstBlocks, Encoder.outputs, Clock.after]
  mono_eq := by simp
  told_eq := by simp [outputsAt, firstBlocks, Encoder.outputs, Clock.packets]

/-- Before the first sample all blocks are coded. -/
theorem At.beginning (codec : Codec) (old : List (List Int16)) (hm : c₀.mono = []) :
    At codec c₀ old [] (([] : List Int16).length / c₀.blockLength) c₀ old [] := by
  rw [List.length_nil, Nat.zero_div, ← hm]
  exact .start codec c₀ old

theorem At.blockLength_eq (h : At codec c₀ old stream k c given told) :
    c.blockLength = c₀.blockLength := by
  simp only [blockLength, h.encoder_eq, Encoder.after_frameLength]

theorem At.ready (h : At codec c₀ old stream k c given told) (hr : c₀.encoder.Ready) :
    c.encoder.Ready := by
  rw [h.encoder_eq]; exact Encoder.after_ready hr

theorem At.take (h : At codec c₀ old stream k c given told) (f : Frame) (hn : 0 < c₀.blockLength) :
    At codec c₀ old (stream ++ f.headD []) k (c.take f) given told := by
  have hle := h.le
  have hk : k * c₀.blockLength ≤ stream.length := (Nat.le_div_iff_mul_le hn).1 hle
  have hb : ∀ i ≤ k, c₀.firstBlocks (stream ++ f.headD []) i = c₀.firstBlocks stream i :=
    fun i hi => firstBlocks_append _ (Nat.le_trans hi hle)
  refine ⟨⟨?_, ?_, ?_, ?_⟩, ?_, ?_, ?_⟩
  · rw [Nat.le_div_iff_mul_le hn, List.length_append]; omega
  · intro i hi
    rw [replyAt, hb (i + 1) hi]; exact h.fine i hi
  · rw [List.drop_append_of_le_length hk, ← h.mono_eq]; rfl
  · rw [outputsAt, hb k (Nat.le_refl k)]; exact h.told_eq
  · rw [hb k (Nat.le_refl k)]; exact h.given_eq
  · rw [hb k (Nat.le_refl k)]; exact h.encoder_eq
  · rw [outputsAt, hb k (Nat.le_refl k)]; exact h.clock_eq

theorem At.hasBlock_iff (h : At codec c₀ old stream k c given told) (hn : 0 < c₀.blockLength) :
    c.hasBlock = true ↔ k < stream.length / c₀.blockLength := by
  have hk : k * c₀.blockLength ≤ stream.length := (Nat.le_div_iff_mul_le hn).1 h.le
  rw [hasBlock, decide_eq_true_eq, h.blockLength_eq, h.mono_eq, List.length_drop,
    Nat.lt_iff_add_one_le, Nat.le_div_iff_mul_le hn, Nat.succ_mul]
  omega

theorem At.nextBlock_eq (h : At codec c₀ old stream k c given told)
    (hk : k < stream.length / c₀.blockLength) :
    c.nextBlock :: given = (c₀.firstBlocks stream (k + 1)).reverse ++ old := by
  rw [firstBlocks_succ hk, nextBlock, h.blockLength_eq, h.mono_eq, h.given_eq]
  simp

theorem At.outputsAt_succ (h : At codec c₀ old stream k c given told)
    (hk : k < stream.length / c₀.blockLength) :
    c₀.outputsAt codec old stream (k + 1) = c₀.outputsAt codec old stream k ++
      [(c.encoder.encode (codec.reply (c.nextBlock :: given)) []).2.1] := by
  rw [outputsAt, firstBlocks_succ hk, Encoder.outputs_concat, ← h.encoder_eq, nextBlock,
    h.blockLength_eq, h.mono_eq, h.given_eq]
  rfl

theorem At.block {p : Option Packet} {c' : Coding} (h : At codec c₀ old stream k c given told)
    (hr : c₀.encoder.Ready) (hk : k < stream.length / c₀.blockLength)
    (hb : c.block (codec.reply (c.nextBlock :: given)) = (c', .ok p)) :
    At codec c₀ old stream (k + 1) c' (c.nextBlock :: given) (told ++ p.toList) := by
  have hf : (codec.reply (c.nextBlock :: given)).fails = false := by
    cases hf : (codec.reply (c.nextBlock :: given)).fails with
    | false => rfl
    | true =>
      obtain ⟨err, he⟩ := block_of_fails (h.ready hr) hf
      rw [he] at hb; simp at hb
  rw [block_of_fine (h.ready hr) hf] at hb
  simp only [Prod.mk.injEq, Except.ok.injEq] at hb
  obtain ⟨rfl, rfl⟩ := hb
  refine ⟨⟨hk, ?_, ?_, ?_⟩, h.nextBlock_eq hk, ?_, ?_⟩
  · intro i hi
    rcases Nat.lt_succ_iff_lt_or_eq.1 hi with hi | rfl
    · exact h.fine i hi
    · rw [replyAt, ← h.nextBlock_eq hk]; exact hf
  · rw [h.blockLength_eq, h.mono_eq, List.drop_drop, Nat.succ_mul]
  · rw [h.outputsAt_succ hk, Clock.packets_concat, ← h.clock_eq, h.told_eq]
  · rw [firstBlocks_succ hk, Encoder.after_concat, ← h.encoder_eq, nextBlock, h.blockLength_eq,
      h.mono_eq, h.given_eq]
  · rw [h.outputsAt_succ hk, Clock.after_concat, ← h.clock_eq]

theorem At.failed {err : EncoderError} {c' : Coding} (h : At codec c₀ old stream k c given told)
    (hr : c₀.encoder.Ready) (hk : k < stream.length / c₀.blockLength)
    (hb : c.block (codec.reply (c.nextBlock :: given)) = (c', .error err)) :
    FailedAt codec c₀ old stream k c'.mono (c.nextBlock :: given) told := by
  refine ⟨?_, hk, ?_, h.nextBlock_eq hk⟩
  · rw [mono_of_failed hb]; exact h.toUpto
  · rw [replyAt, ← h.nextBlock_eq hk]
    cases hf : (codec.reply (c.nextBlock :: given)).fails with
    | true => rfl
    | false => rw [block_of_fine (h.ready hr) hf] at hb; simp at hb

/-! ## Whole sequences -/

theorem drain_of_short (hb : c.hasBlock = false) : drain codec c given = ⟨c, given, [], none⟩ := by
  rw [drain, dif_neg (by simp [hb])]

theorem drain_of_block {p : Option Packet} {c' : Coding} (hn : 0 < c.blockLength)
    (hb : c.hasBlock = true) (h : c.block (codec.reply (c.nextBlock :: given)) = (c', .ok p)) :
    drain codec c given =
      { drain codec c' (c.nextBlock :: given) with
        packets := p.toList ++ (drain codec c' (c.nextBlock :: given)).packets } := by
  rw [drain, dif_pos ⟨hn, hb⟩]
  dsimp only
  split
  · rename_i he; rw [h] at he; simp at he
  · rename_i he
    rw [h] at he
    simp only [Prod.mk.injEq, Except.ok.injEq] at he
    obtain ⟨rfl, rfl⟩ := he
    rfl

theorem drain_of_failed {err : EncoderError} {c' : Coding} (hn : 0 < c.blockLength)
    (hb : c.hasBlock = true)
    (h : c.block (codec.reply (c.nextBlock :: given)) = (c', .error err)) :
    drain codec c given = ⟨c', c.nextBlock :: given, [], some err⟩ := by
  rw [drain, dif_pos ⟨hn, hb⟩]
  dsimp only
  split
  · rename_i he
    rw [h] at he
    simp only [Prod.mk.injEq, Except.error.injEq] at he
    obtain ⟨rfl, rfl⟩ := he
    rfl
  · rename_i he; rw [h] at he; simp at he

/-- Draining codes all blocks of the stream, or goes on to the first that fails. -/
theorem At.drained (hr : c₀.encoder.Ready) : ∀ {k : Nat} {c : Coding} {given : List (List Int16)}
    {told : List Packet}, At codec c₀ old stream k c given told →
      ((drain codec c given).failure = none ∧
        At codec c₀ old stream (stream.length / c₀.blockLength) (drain codec c given).coding
          (drain codec c given).blocks (told ++ (drain codec c given).packets)) ∨
      ((drain codec c given).failure.isSome = true ∧ ∃ i,
        FailedAt codec c₀ old stream i (drain codec c given).coding.mono
          (drain codec c given).blocks (told ++ (drain codec c given).packets)) := by
  intro k
  induction hm : stream.length / c₀.blockLength - k generalizing k with
  | zero =>
    intro c given told h
    have hk : k = stream.length / c₀.blockLength := by have := h.le; omega
    have hb : c.hasBlock = false := by
      cases hb : c.hasBlock with
      | false => rfl
      | true => have := (h.hasBlock_iff hr.frameLength_pos).1 hb; omega
    rw [drain_of_short hb, List.append_nil, ← hk]
    exact .inl ⟨rfl, h⟩
  | succ m ih =>
    intro c given told h
    have hk : k < stream.length / c₀.blockLength := by omega
    have hb := (h.hasBlock_iff hr.frameLength_pos).2 hk
    have hn : 0 < c.blockLength := by rw [h.blockLength_eq]; exact hr.frameLength_pos
    rcases he : c.block (codec.reply (c.nextBlock :: given)) with ⟨c', err | p⟩
    · rw [drain_of_failed hn hb he, List.append_nil]
      exact .inr ⟨rfl, k, h.failed hr hk he⟩
    · rw [drain_of_block hn hb he]
      have := ih (by omega) (h.block hr hk he)
      rwa [List.append_assoc] at this

/-- So does a sequence of frames; behind a block that fails no frame is taken. -/
theorem At.frames (hr : c₀.encoder.Ready) : ∀ (fs : List Frame) {stream : List Int16} {c : Coding}
    {given : List (List Int16)} {told : List Packet},
    At codec c₀ old stream (stream.length / c₀.blockLength) c given told →
      ((Coding.frames codec c given fs).failure = none ∧
        At codec c₀ old (stream ++ firstChannels fs)
          ((stream ++ firstChannels fs).length / c₀.blockLength)
          (Coding.frames codec c given fs).coding (Coding.frames codec c given fs).blocks
          (told ++ (Coding.frames codec c given fs).packets)) ∨
      ((Coding.frames codec c given fs).failure.isSome = true ∧ ∃ gs i, gs <+: fs ∧
        FailedAt codec c₀ old (stream ++ firstChannels gs) i
          (Coding.frames codec c given fs).coding.mono (Coding.frames codec c given fs).blocks
          (told ++ (Coding.frames codec c given fs).packets))
  | [], stream, c, given, told, h => by
    have : stream ++ firstChannels [] = stream := List.append_nil _
    rw [this]
    refine .inl ⟨rfl, ?_⟩
    simp only [Coding.frames, List.append_nil]
    exact h
  | f :: fs, stream, c, given, told, h => by
    have hcons : ∀ gs, stream ++ firstChannels (f :: gs) =
        stream ++ f.headD [] ++ firstChannels gs := by
      intro gs
      simp [firstChannels]
    rcases (h.take f hr.frameLength_pos).drained hr with ⟨hd, hat⟩ | ⟨hd, i, hf⟩
    · simp only [Coding.frames, hd, ← List.append_assoc, hcons]
      rcases hat.frames hr fs with hr | ⟨hr, gs, i, hgs, hf⟩
      · exact .inl hr
      · refine .inr ⟨hr, f :: gs, i, ?_, ?_⟩
        · exact List.cons_prefix_cons.2 ⟨rfl, hgs⟩
        · rw [hcons]; exact hf
    · obtain ⟨err, he⟩ := Option.isSome_iff_exists.1 hd
      simp only [Coding.frames, he]
      refine .inr ⟨rfl, [f], i, List.cons_prefix_cons.2 ⟨rfl, List.nil_prefix⟩, ?_⟩
      rw [hcons, show firstChannels [] = [] from rfl, List.append_nil]
      exact hf

/-- Without failure, a sequence of frames codes all blocks of their first channels. -/
theorem At.told_frames (hr : c₀.encoder.Ready) (hf : ∀ blocks, (codec.reply blocks).fails = false)
    (fs : List Frame) (h : At codec c₀ old stream (stream.length / c₀.blockLength) c given told) :
    told ++ (Coding.frames codec c given fs).packets =
      c₀.clock.packets (c₀.encoder.outputs codec old
        (chunks c₀.blockLength (stream ++ firstChannels fs))) := by
  rcases h.frames hr fs with ⟨-, hat⟩ | ⟨-, gs, i, -, hfail⟩
  · have ht := hat.told_eq
    rw [outputsAt, firstBlocks, List.take_of_length_le (by simp)] at ht
    exact ht
  · have := hfail.fails
    rw [replyAt, hf] at this; cases this

end At

end Coding

end MicStream
