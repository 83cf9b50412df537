import MicStream.Proofs.Control.Reading
import MicStream.Wire.Event
/-!
# Announcements that come back

The message that announces a start or a stop is JSON, as control messages
are, and has the keys of a control message among its own. Read as one, it has
the parameters that were announced and asks for nothing, because its type is
neither start nor stop. So announcements that are sent back cannot start or
stop a stream, not even when they are cut to the size of a buffer.

Results:
* `message_eq`, `says_echo`: an announcement as an object, and what it says.
* `type_of_cut`: what is left of a cut announcement has no other type.
* `echo_commands_nothing`: announcements taken as control messages.
-/
namespace MicStream

open MicStream.Json

namespace Control

/-- The members of an announcement. -/
def spelled (c : Control) (timestamp : UInt64) : List (Spelling × Value) :=
  [(.ofWord "type", .text (.ofWord "stream_control")),
   (.ofWord "frame_id", .text (.ofWord frameId)),
   (.ofWord "timestamp", .number (.ofNat timestamp.toNat)),
   (.ofWord "state", .text (.ofWord (if c.start then "start" else "stop"))),
   (.ofWord "sample_rate", .number (.ofNat c.params.sampleRate.toNat)),
   (.ofWord "channels", .number (.ofNat c.params.channels.toNat)),
   (.ofWord "bit_rate", .number (.ofNat c.params.bitRate.toNat)),
   (.ofWord "aot", .number (.ofNat c.params.aot.toNat))]

theorem message_eq (c : Control) (timestamp : UInt64) :
    c.message timestamp =
      ControlMessage.objectText .none .none (Members.ofList (c.spelled timestamp)) [] := by
  have hstate : IsPlainWord (if c.start then "start" else "stop") := by split <;> decide
  have hbytes : (Value.object .none (Members.ofList (c.spelled timestamp))).bytes =
      c.message timestamp := by
    apply bytes_ofList
    simp (disch := decide) only [spelled, List.map_cons, List.map_nil, Value.bytes, bytes_ofNat,
      bytes_ofWord, bytes_ofWord hstate]
  rw [ControlMessage.objectText, hbytes]
  simp [Blanks.none]

/-- What an announcement says when it is taken as a control message. -/
def echo (c : Control) : ControlMessage where
  type := "stream_control"
  sampleRate := some c.params.sampleRate
  channels := some c.params.channels
  bitRate := some c.params.bitRate
  aot := some c.params.aot

theorem entries_spelled (c : Control) (timestamp : UInt64) :
    (Members.ofList (c.spelled timestamp)).entries =
      [("type", .text (.ofWord "stream_control")), ("frame_id", .text (.ofWord frameId)),
       ("timestamp", .number (.ofNat timestamp.toNat)),
       ("state", .text (.ofWord (if c.start then "start" else "stop"))),
       ("sample_rate", .number (.ofNat c.params.sampleRate.toNat)),
       ("channels", .number (.ofNat c.params.channels.toNat)),
       ("bit_rate", .number (.ofNat c.params.bitRate.toNat)),
       ("aot", .number (.ofNat c.params.aot.toNat))] := by
  rw [entries_ofList]
  simp (disch := decide) only [spelled, List.map_cons, List.map_nil, value_ofWord]

theorem says_echo (c : Control) (timestamp : UInt64) :
    ControlMessage.Says (Members.ofList (c.spelled timestamp)).entries c.echo := by
  rw [entries_spelled]
  have hword : ∀ x : UInt32, x.toNat ≤ UInt32.size - 1 := fun x => Nat.le_pred_of_lt x.toNat_lt
  have hbyte : ∀ x : UInt8, x.toNat ≤ UInt8.size - 1 := fun x => Nat.le_pred_of_lt x.toNat_lt
  constructor
  · exact ⟨.ofWord "stream_control", by simp [ControlMessage.given, ControlMessage.Key.name],
      value_ofWord (by decide)⟩
  · exact ControlMessage.amount_ofNat (hword _)
  · exact ControlMessage.amount_ofNat (hbyte _)
  · exact ControlMessage.amount_ofNat (hword _)
  · exact ControlMessage.amount_ofNat (hbyte _)

end Control

namespace ControlMessage

/-! ## A type once read stays -/

theorem Draft.type_readValue {d d' : Draft} {key : Key} {bs tail : List UInt8}
    (hkey : key ≠ .type) (h : d.readValue key bs = .ok (d', tail)) : d'.type = d.type := by
  cases key with
  | type => exact absurd rfl hkey
  | sampleRate | channels | bitRate | aot =>
    simp only [readValue, Except.map] at h
    split at h
    · cases h
    · cases h
      rfl

theorem type_readMember {d d' : Draft} {bs tail : List UInt8} (ht : d.type.isSome = true)
    (h : readMember d bs = .ok (d', tail)) : d'.type = d.type := by
  unfold readMember at h
  split at h
  · cases h
  · split at h
    · next key _ =>
      split at h
      · cases h
      · next hnew =>
        have hkey : key ≠ .type := by
          rintro rfl
          exact hnew ht
        split at h
        · cases h
        · exact Draft.type_readValue hkey h
    · split at h
      · cases h
      · split at h
        · cases h
        · cases h
          rfl

/-- Whatever comes behind the type, the message has that type. -/
theorem type_readMembers {bs : List UInt8} {first : Bool} {d d' : Draft} {tail : List UInt8}
    (ht : d.type.isSome = true) (h : readMembers first d bs = .ok (d', tail)) :
    d'.type = d.type := by
  induction hn : bs.length using Nat.strongRecOn generalizing bs first d with
  | ind n ih =>
    rw [readMembers_eq] at h
    split at h
    · cases h
    · cases h
      rfl
    · next rest hk =>
      split at h
      · cases h
      · next d₁ tail₁ hm =>
        have htype := type_readMember ht hm
        have hlt : tail₁.length < n := by
          have := length_nextKey hk
          have := length_readMember_le hm
          omega
        rw [← htype] at ht ⊢
        exact ih tail₁.length hlt ht h rfl

theorem readMembers_of_ofBytes {bs : List UInt8} {m : ControlMessage}
    (h : ofBytes (0x7b :: bs) = .ok m) :
    ∃ d tail, readMembers true .empty bs = .ok (d, tail) ∧ d.finish = .ok m := by
  rw [ofBytes, skipBlank_cons (by decide)] at h
  simp only [readForm, if_true, readObject] at h
  cases hd : readMembers true .empty bs with
  | error p =>
    rw [hd] at h
    cases h
  | ok p =>
    obtain ⟨d, tail⟩ := p
    cases hm : d.finish with
    | error p =>
      simp only [hd, hm, Except.map] at h
      cases h
    | ok m' =>
      simp only [hd, hm, Except.map] at h
      split at h
      · cases h
        exact ⟨d, tail, rfl, hm⟩
      · cases h

theorem Draft.type_finish {d : Draft} {m : ControlMessage} {t : String} (ht : d.type = some t)
    (h : d.finish = .ok m) : m.type = t := by
  rw [finish, ht] at h
  cases h
  rfl

end ControlMessage

namespace Control

/-! ## Announcements that are cut -/

/-- What every announcement starts with. -/
def opening : List UInt8 := ascii "\x7b\"type\":\"stream_control\""

theorem message_eq_opening (c : Control) (timestamp : UInt64) :
    ∃ rest, c.message timestamp = opening ++ 0x2c :: rest := by
  exact ⟨_, rfl⟩

theorem readMembers_opening {rest tail : List UInt8} {d : ControlMessage.Draft} (hrest : Ends rest)
    (h : ControlMessage.readMembers true .empty (opening.tail ++ rest) = .ok (d, tail)) :
    d.type = some "stream_control" := by
  have hbytes : opening.tail ++ rest = Blanks.none.bytes ++ (Blanks.none.bytes ++
      ((Spelling.ofWord "type").bytes ++ (Blanks.none.bytes ++ 0x3a :: (Blanks.none.bytes ++
        ((Value.text (.ofWord "stream_control")).bytes ++ rest))))) := by
    rw [Value.bytes, bytes_ofWord (by decide), bytes_ofWord (by decide)]
    rfl
  have hnext := ControlMessage.nextKey_first .none .none (.ofWord "type") (Blanks.none.bytes ++
    0x3a :: (Blanks.none.bytes ++ ((Value.text (.ofWord "stream_control")).bytes ++ rest)))
  rw [hbytes, ControlMessage.readMembers_of_key hnext hrest, value_ofWord (by decide)] at h
  obtain ⟨d₁, ⟨-, x, ⟨t, ht, rfl⟩, rfl⟩, hd⟩ := h
  cases ht
  rw [ControlMessage.type_readMembers rfl hd, value_ofWord (by decide)]

/-- However much of an announcement is cut off, what is left has its type if it says anything. -/
theorem type_of_cut {c : Control} {timestamp : UInt64} {n : Nat} {m : ControlMessage}
    (h : ControlMessage.ofBytes ((c.message timestamp).take n) = .ok m) :
    m.type = "stream_control" := by
  obtain ⟨more, hmore⟩ := c.message_eq_opening timestamp
  rw [hmore] at h
  by_cases hn : n < opening.length
  · have hshort : ∀ k < opening.length,
        (ControlMessage.ofBytes (opening.take k)).toOption = none := by decide +kernel
    rw [List.take_append_of_le_length hn.le] at h
    rw [← ControlMessage.toOption_eq_some_iff, hshort n hn] at h
    cases h
  · have hends : ∀ k, Ends ((0x2c :: more).take k)
      | 0 => ends_nil
      | _ + 1 => .cons (by decide) (by decide) (by decide) _
    rw [List.take_append, List.take_of_length_le (not_lt.1 hn)] at h
    obtain ⟨d, tail, hd, hm⟩ := ControlMessage.readMembers_of_ofBytes h
    exact ControlMessage.Draft.type_finish (readMembers_opening (hends _) hd) hm

/-! ## Announcements as control messages -/

/-- An announcement that comes back is read as a message with the parameters that were announced,
and asks for nothing. A bridge that gets one passes it on unchanged if its buffer holds it, and
whatever a bridge makes of what is left in a smaller buffer asks for nothing either. -/
theorem echo_commands_nothing (c : Control) (timestamp : UInt64) :
    ControlMessage.ofBytes (c.message timestamp) = .ok c.echo ∧
    (∀ defaults, c.echo.params defaults = c.params ∧ c.echo.command? defaults = none) ∧
    (∀ bridge : Bridge, (c.message timestamp).length ≤ bridge.bufferSize →
      bridge.handle true (c.message timestamp) = .delivered c.echo) ∧
    ∀ (bridge : Bridge) (listened : Bool) (m : ControlMessage),
      bridge.handle listened (c.message timestamp) = .delivered m →
        ∀ defaults, m.command? defaults = none := by
  have hread : ControlMessage.ofBytes (c.message timestamp) = .ok c.echo := by
    rw [message_eq, ControlMessage.ofBytes_eq_ok_iff]
    exact ⟨c.says_echo timestamp, fun b hb => nomatch hb⟩
  refine ⟨hread, fun defaults => ⟨rfl, rfl⟩, fun bridge hfits => ?_, ?_⟩
  · rw [message_eq] at hfits hread ⊢
    rw [Bridge.handle, ControlMessage.accept?_objectText hfits, hread]
    rfl
  · intro bridge listened m hm defaults
    have hcut : ControlMessage.ofBytes ((c.message timestamp).take bridge.bufferSize) = .ok m := by
      unfold Bridge.handle Bridge.accept? at hm
      split at hm
      · cases hm
      · next m' hm' =>
        split at hm
        · cases hm
          dsimp only at hm'
          split at hm'
          · cases hm'
          · exact ControlMessage.toOption_eq_some_iff.1 hm'
        · cases hm
    rw [ControlMessage.command?_eq, type_of_cut hcut]
    rfl

/-- A start with the largest parameters. -/
def largest : Control := ⟨true, ⟨4294967295, 255, 4294967295, 255⟩⟩

theorem echo_commands_nothing_sample :
    (largest.message 18446744073709551615).length ≤ 4096 ∧
    Bridge.handle ⟨4096⟩ true (largest.message 18446744073709551615) = .delivered
      ⟨"stream_control", some 4294967295, some 255, some 4294967295, some 255⟩ ∧
    ∀ defaults, largest.echo.command? defaults = none := by
  obtain ⟨-, -, hwhole, hnothing⟩ := echo_commands_nothing largest 18446744073709551615
  have hfits : (largest.message 18446744073709551615).length ≤ 4096 := by decide +kernel
  have hdelivered := hwhole ⟨4096⟩ hfits
  exact ⟨hfits, hdelivered, hnothing ⟨4096⟩ true largest.echo hdelivered⟩

end Control

end MicStream
