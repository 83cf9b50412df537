import MicStream.Json.Skip
import MicStream.Stream.Event
/-!
# Control messages

A control message is a JSON object with a type and up to four codec
parameters, or a list of these five. Parameters that are missing or null are
taken from defaults. The keys may come in any order but each only once;
other keys are passed over. Reading stops at the first problem.
-/
namespace MicStream

open MicStream.Json

/-- A control message as it was received.
mirrors `ControlMessage` -/
structure ControlMessage where
  type : String
  sampleRate : Option UInt32
  channels : Option UInt8
  bitRate : Option UInt32
  aot : Option UInt8
  deriving DecidableEq, Repr

namespace ControlMessage

/-- The parameters of a message, completed by defaults. -/
def params (m : ControlMessage) (defaults : StreamParams) : StreamParams where
  sampleRate := m.sampleRate.getD defaults.sampleRate
  channels := m.channels.getD defaults.channels
  bitRate := m.bitRate.getD defaults.bitRate
  aot := m.aot.getD defaults.aot

/-- What a message asks for, if its type is known.
mirrors `ControlMessage.to_command` -/
def command? (m : ControlMessage) (defaults : StreamParams) : Option Control :=
  if m.type = "start" then some ⟨true, m.params defaults⟩
  else if m.type = "stop" then some ⟨false, m.params defaults⟩
  else none

/-! ## Values -/

/-- The problem with a value that is not of the type asked for, given what reading it came to. -/
def unwanted {β : Type} : Except Problem β → Problem
  | .error p => p
  | .ok _ => .mismatch

/-- The problem with a value that is not of the type asked for. Lists and objects are not looked
into. -/
def refusal (b : UInt8) (rest : List UInt8) : Problem :=
  if b = 0x6e then unwanted (word (ascii "ull") rest)
  else if b = 0x74 then unwanted (word (ascii "rue") rest)
  else if b = 0x66 then unwanted (word (ascii "alse") rest)
  else if b = 0x2d ∨ isDigit b then unwanted (number (b :: rest))
  else if b = 0x22 then unwanted (string rest)
  else if b = 0x5b ∨ b = 0x7b then .mismatch
  else .malformed

def readText (bs : List UInt8) : Read String :=
  match skipBlank bs with
  | [] => .error .truncated
  | b :: rest => if b = 0x22 then string rest else .error (refusal b rest)

/-- A natural number up to `limit`, or none for null. -/
def readNatural (limit : Nat) (bs : List UInt8) : Read (Option Nat) :=
  match skipBlank bs with
  | [] => .error .truncated
  | b :: rest =>
    if b = 0x6e then
      match word (ascii "ull") rest with
      | .error p => .error p
      | .ok rest => .ok (none, rest)
    else if b = 0x2d ∨ isDigit b then
      match number (b :: rest) with
      | .error p => .error p
      | .ok (.natural n, rest) => if n ≤ limit then .ok (some n, rest) else .error .mismatch
      | .ok (.other, _) => .error .mismatch
    else .error (refusal b rest)

def readWord (bs : List UInt8) : Read (Option UInt32) :=
  match readNatural (UInt32.size - 1) bs with
  | .error p => .error p
  | .ok (n, rest) => .ok (n.map UInt32.ofNat, rest)

def readByte (bs : List UInt8) : Read (Option UInt8) :=
  match readNatural (UInt8.size - 1) bs with
  | .error p => .error p
  | .ok (n, rest) => .ok (n.map UInt8.ofNat, rest)

/-! ## The object form -/

/-- The keys that mean something. -/
inductive Key where
  | type
  | sampleRate
  | channels
  | bitRate
  | aot
  deriving DecidableEq, Repr

def Key.ofName? (name : String) : Option Key :=
  if name = "type" then some .type
  else if name = "sample_rate" then some .sampleRate
  else if name = "channels" then some .channels
  else if name = "bit_rate" then some .bitRate
  else if name = "aot" then some .aot
  else none

/-- A message while it is read: a key that was met holds a value, which may be null. -/
structure Draft where
  type : Option String
  sampleRate : Option (Option UInt32)
  channels : Option (Option UInt8)
  bitRate : Option (Option UInt32)
  aot : Option (Option UInt8)
  deriving DecidableEq, Repr

namespace Draft

def empty : Draft := ⟨none, none, none, none, none⟩

def has (d : Draft) : Key → Bool
  | .type => d.type.isSome
  | .sampleRate => d.sampleRate.isSome
  | .channels => d.channels.isSome
  | .bitRate => d.bitRate.isSome
  | .aot => d.aot.isSome

def readValue (d : Draft) (key : Key) (bs : List UInt8) : Read Draft :=
  match key with
  | .type => (readText bs).map fun (v, rest) => ({ d with type := some v }, rest)
  | .sampleRate => (readWord bs).map fun (v, rest) => ({ d with sampleRate := some v }, rest)
  | .channels => (readByte bs).map fun (v, rest) => ({ d with channels := some v }, rest)
  | .bitRate => (readWord bs).map fun (v, rest) => ({ d with bitRate := some v }, rest)
  | .aot => (readByte bs).map fun (v, rest) => ({ d with aot := some v }, rest)

/-- The message, which must have a type. -/
def finish (d : Draft) : Except Problem ControlMessage :=
  match d.type with
  | none => .error .mismatch
  | some type =>
    .ok ⟨type, d.sampleRate.join, d.channels.join, d.bitRate.join, d.aot.join⟩

end Draft

/-- What follows in an object: its end, or a key behind its opening quote. -/
inductive Follows where
  | ending (rest : List UInt8)
  | key (rest : List UInt8)

/-- Looks for the next key. The first one has no comma before it. -/
def nextKey (first : Bool) (bs : List UInt8) : Except Problem Follows :=
  match skipBlank bs with
  | [] => .error .truncated
  | b :: rest =>
    if b = 0x7d then .ok (.ending rest)
    else if first then if b = 0x22 then .ok (.key rest) else .error .malformed
    else if b = 0x2c then
      match skipBlank rest with
      | [] => .error .truncated
      | c :: tail => if c = 0x22 then .ok (.key tail) else .error .malformed
    else .error .malformed

/-- One member of the object, behind the opening quote of its key. -/
def readMember (d : Draft) (bs : List UInt8) : Read Draft :=
  match string bs with
  | .error p => .error p
  | .ok (name, rest) =>
    match Key.ofName? name with
    | some key =>
      if d.has key then .error .mismatch
      else match colon rest with
        | .error p => .error p
        | .ok rest => d.readValue key rest
    | none =>
      match colon rest with
      | .error p => .error p
      | .ok rest =>
        match skipValue rest with
        | .error p => .error p
        | .ok rest => .ok (d, rest)

theorem length_nextKey {first : Bool} {bs rest : List UInt8} (h : nextKey first bs = .ok (.key rest)) :
    rest.length < bs.length := by
  unfold nextKey at h
  split at h
  · simp at h
  · next hb =>
    have := length_of_skipBlank hb
    split at h
    · simp at h
    · split at h
      · split at h
        · simp only [Except.ok.injEq, Follows.key.injEq] at h
          rw [← h]; exact this
        · simp at h
      · split at h
        · split at h
          · simp at h
          · next hc =>
            have := length_of_skipBlank hc
            split at h
            · simp only [Except.ok.injEq, Follows.key.injEq] at h
              rw [← h]; omega
            · simp at h
        · simp at h

theorem length_readText_le {bs rest : List UInt8} {s : String} (h : readText bs = .ok (s, rest)) :
    rest.length ≤ bs.length := by
  unfold readText at h
  split at h
  · simp at h
  · next hb =>
    have := length_of_skipBlank hb
    split at h
    · have := length_string_le h
      omega
    · simp at h

theorem length_readNatural_le {limit : Nat} {bs rest : List UInt8} {n : Option Nat}
    (h : readNatural limit bs = .ok (n, rest)) : rest.length ≤ bs.length := by
  unfold readNatural at h
  split at h
  · simp at h
  · next hb =>
    have := length_of_skipBlank hb
    split at h
    · split at h
      · simp at h
      · next hw =>
        have := length_word_le hw
        simp only [Except.ok.injEq, Prod.mk.injEq] at h
        rw [← h.2]; omega
    · split at h
      · split at h
        · simp at h
        · next hn =>
          have := length_number_le hn
          simp only [List.length_cons] at this
          split at h
          · simp only [Except.ok.injEq, Prod.mk.injEq] at h
            rw [← h.2]; omega
          · simp at h
        · simp at h
      · simp at h

theorem length_readWord_le {bs rest : List UInt8} {n : Option UInt32}
    (h : readWord bs = .ok (n, rest)) : rest.length ≤ bs.length := by
  unfold readWord at h
  split at h
  · simp at h
  · next hn =>
    simp only [Except.ok.injEq, Prod.mk.injEq] at h
    rw [← h.2]; exact length_readNatural_le hn

theorem length_readByte_le {bs rest : List UInt8} {n : Option UInt8}
    (h : readByte bs = .ok (n, rest)) : rest.length ≤ bs.length := by
  unfold readByte at h
  split at h
  · simp at h
  · next hn =>
    simp only [Except.ok.injEq, Prod.mk.injEq] at h
    rw [← h.2]; exact length_readNatural_le hn

theorem Draft.length_readValue_le {d d' : Draft} {key : Key} {bs rest : List UInt8}
    (h : d.readValue key bs = .ok (d', rest)) : rest.length ≤ bs.length := by
  cases key <;> simp only [readValue, Except.map] at h <;> split at h <;>
    simp only [reduceCtorEq, Except.ok.injEq, Prod.mk.injEq] at h <;> rw [← h.2]
  · exact length_readText_le ‹_›
  · exact length_readWord_le ‹_›
  · exact length_readByte_le ‹_›
  · exact length_readWord_le ‹_›
  · exact length_readByte_le ‹_›

theorem length_readMember_le {d d' : Draft} {bs rest : List UInt8}
    (h : readMember d bs = .ok (d', rest)) : rest.length ≤ bs.length := by
  unfold readMember at h
  split at h
  · simp at h
  · next hs =>
    have := length_string_le hs
    split at h
    · split at h
      · simp at h
      · split at h
        · simp at h
        · next hc =>
          have := length_colon hc
          have := Draft.length_readValue_le h
          omega
    · split at h
      · simp at h
      · next hc =>
        have := length_colon hc
        split at h
        · simp at h
        · next hv =>
          have := length_skipValue_le hv
          simp only [Except.ok.injEq, Prod.mk.injEq] at h
          rw [← h.2]; omega

def readMembers (first : Bool) (d : Draft) (bs : List UInt8) : Read Draft :=
  match hk : nextKey first bs with
  | .error p => .error p
  | .ok (.ending rest) => .ok (d, rest)
  | .ok (.key rest) =>
    have := length_nextKey hk
    match hm : readMember d rest with
    | .error p => .error p
    | .ok (d', tail) =>
      have := length_readMember_le hm
      readMembers false d' tail
termination_by bs.length

def readObject (bs : List UInt8) : Read ControlMessage :=
  match readMembers true Draft.empty bs with
  | .error p => .error p
  | .ok (d, rest) => d.finish.map fun m => (m, rest)

/-! ## The list form -/

/-- Looks for the next element of a list that has to have one. The first one has no comma before
it. -/
def nextElement (first : Bool) (bs : List UInt8) : Except Problem (List UInt8) :=
  match skipBlank bs with
  | [] => .error .truncated
  | b :: rest =>
    if b = 0x5d then .error .mismatch
    else if first then .ok (b :: rest)
    else if b = 0x2c then
      match skipBlank rest with
      | [] => .error .truncated
      | c :: tail => if c = 0x5d then .error .malformed else .ok (c :: tail)
    else .error .malformed

def endOfList (bs : List UInt8) : Except Problem (List UInt8) :=
  match skipBlank bs with
  | [] => .error .truncated
  | b :: rest => if b = 0x5d then .ok rest else .error .malformed

/-- A list of the five fields behind its opening bracket. -/
def readList (bs : List UInt8) : Except Problem (ControlMessage × List UInt8) := do
  let (type, rest) ← readText (← nextElement true bs)
  let (sampleRate, rest) ← readWord (← nextElement false rest)
  let (channels, rest) ← readByte (← nextElement false rest)
  let (bitRate, rest) ← readWord (← nextElement false rest)
  let (aot, rest) ← readByte (← nextElement false rest)
  .ok (⟨type, sampleRate, channels, bitRate, aot⟩, ← endOfList rest)

/-! ## Messages -/

def readForm (b : UInt8) (rest : List UInt8) : Read ControlMessage :=
  if b = 0x7b then readObject rest
  else if b = 0x5b then readList rest
  else .error (refusal b rest)

/-- Reads a whole text as a message; nothing but blanks may follow it. -/
def ofBytes (bs : List UInt8) : Except Problem ControlMessage :=
  match skipBlank bs with
  | [] => .error .truncated
  | b :: rest =>
    match readForm b rest with
    | .error p => .error p
    | .ok (m, rest) => if (skipBlank rest).isEmpty then .ok m else .error .malformed

end ControlMessage

end MicStream
