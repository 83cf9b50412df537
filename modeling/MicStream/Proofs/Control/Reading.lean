import Mathlib.Data.List.TakeWhile
import Mathlib.Tactic.SplitIfs
import Mathlib.Tactic.MkIffOfInductiveProp
import MicStream.Control.Message
import MicStream.Proofs.Json.Values
import MicStream.Proofs.Json.Writing
import MicStream.Wire.Bridge
/-!
# Control messages in any object text

Which message an object text holds is a matter of the values that stand under
its five known keys: a string under the type, a natural number of the right
width or null under the others, none of them twice (`Says`). Whatever else
the object holds, in whatever order and with whatever blanks, makes no
difference. Every other object text is refused, and so is an object with
more than blanks behind it.

Results:
* `readMembers_object`: what reading the members adds to a draft.
* `ofBytes_eq_ok_iff`, `ofBytes_eq_error_iff`: which texts are read, and as what.
* `object_commands`: what any object text asks for, and what a bridge does with it.
-/
namespace MicStream.ControlMessage

open MicStream.Json

/-! ## What a value comes to -/

/-- What the values under a key come to, where a natural number up to a limit is asked for: nothing
if there is no value or null. -/
inductive Amount (limit : Nat) : List Value → Option Nat → Prop where
  | absent : Amount limit [] none
  | null : Amount limit [.null] none
  | number (n : Numeral) (hn : n.IsNatural) (hl : n.whole.value ≤ limit) :
    Amount limit [.number n] (some n.whole.value)

/-- A value that will do where a natural number up to a limit is asked for. -/
def Suits (limit : Nat) (v : Value) : Prop :=
  v = .null ∨ ∃ n, v = .number n ∧ n.IsNatural ∧ n.whole.value ≤ limit

/-- Values come to an amount if there is at most one, and that will do. -/
theorem exists_amount_iff {limit : Nat} {vs : List Value} :
    (∃ x, Amount limit vs x) ↔ vs.length ≤ 1 ∧ ∀ v ∈ vs, Suits limit v := by
  constructor
  · rintro ⟨x, _ | _ | ⟨n, hn, hl⟩⟩
    · exact ⟨Nat.zero_le _, fun v hv => nomatch hv⟩
    · exact ⟨Nat.le_refl _, fun v hv => .inl (List.mem_singleton.1 hv)⟩
    · exact ⟨Nat.le_refl _, fun v hv => .inr ⟨n, List.mem_singleton.1 hv, hn, hl⟩⟩
  · rintro ⟨hlen, hall⟩
    match vs, hlen, hall with
    | [], _, _ => exact ⟨none, .absent⟩
    | [v], _, hall =>
      obtain rfl | ⟨n, rfl, hn, hl⟩ := hall v (by simp)
      · exact ⟨none, .null⟩
      · exact ⟨_, .number n hn hl⟩

theorem Amount.map {β : Type} {limit : Nat} {vs : List Value} {x : Option Nat} {toNat : β → Nat}
    {ofNat : Nat → β} (h : Amount limit vs x) (hof : ∀ n ≤ limit, toNat (ofNat n) = n) :
    Amount limit vs ((x.map ofNat).map toNat) := by
  cases h with
  | absent => exact .absent
  | null => exact .null
  | number n hn hl =>
    rw [Option.map_some, Option.map_some, hof _ hl]
    exact .number n hn hl

theorem amount_ofNat {limit n : Nat} (h : n ≤ limit) :
    Amount limit [.number (.ofNat n)] (some n) := by
  have hvalue : (Numeral.ofNat n).whole.value = n := value_ofNat n
  have hamount : Amount limit [.number (.ofNat n)] (some (Numeral.ofNat n).whole.value) :=
    .number (.ofNat n) ⟨rfl, rfl, rfl⟩ (by rw [hvalue]; exact h)
  rwa [hvalue] at hamount

def IsText (v : Value) (x : String) : Prop := ∃ t, v = .text t ∧ t.value = x

def IsWord (v : Value) (x : Option UInt32) : Prop :=
  Amount (UInt32.size - 1) [v] (x.map UInt32.toNat)

def IsByte (v : Value) (x : Option UInt8) : Prop :=
  Amount (UInt8.size - 1) [v] (x.map UInt8.toNat)

section Values
variable {w : Blanks} {v : Value} {rest tail : List UInt8}

theorem skipBlank_value {b : UInt8} (hv : v.bytes = b :: tail) (hb : FirstByte v b) :
    skipBlank (w.bytes ++ (v.bytes ++ rest)) = b :: (tail ++ rest) := by
  rw [skipBlank_blanks, hv, List.cons_append, skipBlank_cons hb.blank]

theorem readText_eq_ok_iff {s : String} :
    readText (w.bytes ++ (v.bytes ++ rest)) = .ok (s, tail) ↔ IsText v s ∧ tail = rest := by
  obtain ⟨b, vtail, hv, hb⟩ := v.bytes_eq_cons
  rw [readText, skipBlank_value hv hb, IsText]
  by_cases hquote : b = 0x22
  · obtain ⟨t, rfl⟩ := hb.text.1 hquote
    obtain ⟨-, rfl⟩ := List.cons.inj hv
    simp only [if_pos hquote, string_inner, Except.ok.injEq, Prod.mk.injEq, Value.text.injEq,
      exists_eq_left', eq_comm]
  · simp only [if_neg hquote, reduceCtorEq, false_iff]
    rintro ⟨⟨t, rfl, -⟩, -⟩
    exact hquote (hb.text.2 ⟨t, rfl⟩)

/-- Where a natural number is asked for, only null and a natural number up to the limit will do. -/
theorem readNatural_eq_ok_iff {limit : Nat} (hlimit : limit ≤ maxNatural) (h : Ends rest)
    {x : Option Nat} :
    readNatural limit (w.bytes ++ (v.bytes ++ rest)) = .ok (x, tail) ↔
      Amount limit [v] x ∧ tail = rest := by
  obtain ⟨b, vtail, hv, hb⟩ := v.bytes_eq_cons
  rw [readNatural, skipBlank_value hv hb]
  by_cases hnull : b = 0x6e
  · obtain rfl := hb.null.1 hnull
    have hword : vtail = ascii "ull" := (List.cons.inj hv).2.symm
    simp only [if_pos hnull, hword, word_append, Except.ok.injEq, Prod.mk.injEq]
    constructor
    · rintro ⟨rfl, rfl⟩
      exact ⟨.null, rfl⟩
    · rintro ⟨hx, rfl⟩
      cases hx
      exact ⟨rfl, rfl⟩
  · simp only [if_neg hnull]
    by_cases hnumber : b = 0x2d ∨ isDigit b = true
    · obtain ⟨n, rfl⟩ := hb.number.1 hnumber
      have hread : ∀ k r, number (n.bytes ++ rest) = .ok (.natural k, r) ↔
          n.IsNatural ∧ n.whole.value ≤ maxNatural ∧ k = n.whole.value ∧ r = rest :=
        fun _ _ => number_eq_natural_iff n h
      have hbytes : b :: (vtail ++ rest) = n.bytes ++ rest := by
        rw [← List.cons_append, ← hv]
        rfl
      simp only [if_pos hnumber, hbytes]
      constructor
      · intro hok
        split at hok
        · cases hok
        · next k r hr =>
          obtain ⟨hn, -, rfl, rfl⟩ := (hread k r).1 hr
          split at hok
          · next hle =>
            cases hok
            exact ⟨.number n hn hle, rfl⟩
          · cases hok
        · cases hok
      · rintro ⟨hx, rfl⟩
        cases hx with
        | number n hn hl =>
          rw [(hread _ tail).2 ⟨hn, Nat.le_trans hl hlimit, rfl, rfl⟩]
          simp only [if_pos hl]
    · simp only [if_neg hnumber, reduceCtorEq, false_iff]
      rintro ⟨hx, -⟩
      cases hx with
      | null => exact hnull (hb.null.2 rfl)
      | number n hn hl => exact hnumber (hb.number.2 ⟨n, rfl⟩)

theorem mapNatural_eq_ok_iff {β : Type} {limit : Nat} {toNat : β → Nat} {ofNat : Nat → β}
    (hto : ∀ x, ofNat (toNat x) = x) (hof : ∀ n ≤ limit, toNat (ofNat n) = n)
    (hlimit : limit ≤ maxNatural) (h : Ends rest) {x : Option β} :
    (match readNatural limit (w.bytes ++ (v.bytes ++ rest)) with
      | .error p => Except.error p
      | .ok (n, r) => Except.ok (n.map ofNat, r)) = .ok (x, tail) ↔
      Amount limit [v] (x.map toNat) ∧ tail = rest := by
  have hread : ∀ n r, readNatural limit (w.bytes ++ (v.bytes ++ rest)) = .ok (n, r) ↔
      Amount limit [v] n ∧ r = rest :=
    fun _ _ => readNatural_eq_ok_iff hlimit h
  constructor
  · intro hok
    split at hok
    · cases hok
    · next n r hr =>
      obtain ⟨hn, rfl⟩ := (hread n r).1 hr
      cases hok
      exact ⟨hn.map hof, rfl⟩
  · rintro ⟨hx, rfl⟩
    rw [(hread _ tail).2 ⟨hx, rfl⟩]
    cases x with
    | none => rfl
    | some x => simp only [Option.map_some, hto]

theorem readWord_eq_ok_iff (h : Ends rest) {x : Option UInt32} :
    readWord (w.bytes ++ (v.bytes ++ rest)) = .ok (x, tail) ↔ IsWord v x ∧ tail = rest :=
  mapNatural_eq_ok_iff (fun _ => UInt32.ofNat_toNat)
    (fun _ hn => UInt32.toNat_ofNat_of_lt (Nat.lt_succ_of_le hn)) (by decide) h

theorem readByte_eq_ok_iff (h : Ends rest) {x : Option UInt8} :
    readByte (w.bytes ++ (v.bytes ++ rest)) = .ok (x, tail) ↔ IsByte v x ∧ tail = rest :=
  mapNatural_eq_ok_iff (fun _ => UInt8.ofNat_toNat)
    (fun _ hn => UInt8.toNat_ofNat_of_lt (Nat.lt_succ_of_le hn)) (by decide) h

end Values

/-! ## The members of an object -/

namespace Key

def name : Key → String
  | .type => "type"
  | .sampleRate => "sample_rate"
  | .channels => "channels"
  | .bitRate => "bit_rate"
  | .aot => "aot"

theorem ofName?_eq_some_iff {name : String} {key : Key} :
    ofName? name = some key ↔ name = key.name := by
  unfold ofName?
  constructor
  · intro h
    split_ifs at h with h1 h2 h3 h4 h5 <;> cases h <;> assumption
  · rintro rfl
    cases key <;> decide

end Key

def given (entries : List (String × Value)) (key : Key) : List Value :=
  entries.filterMap fun e => if e.1 = key.name then some e.2 else none

theorem given_cons (name : String) (v : Value) (entries : List (String × Value)) (key : Key) :
    given ((name, v) :: entries) key =
      if name = key.name then v :: given entries key else given entries key := by
  unfold given
  split <;> simp [*]

/-- A slot that is filled at most once: by what the one value comes to. -/
inductive Fills {β : Type} (R : Value → β → Prop) : Option β → List Value → Option β → Prop where
  | kept {s : Option β} : Fills R s [] s
  | filled {v : Value} {x : β} (h : R v x) : Fills R none [v] (some x)

theorem fills_nil_iff {β : Type} {R : Value → β → Prop} {s t : Option β} :
    Fills R s [] t ↔ t = s := by
  constructor
  · rintro (_ | _)
    rfl
  · rintro rfl
    exact .kept

theorem fills_cons_iff {β : Type} {R : Value → β → Prop} {s t : Option β} {v : Value}
    {vs : List Value} :
    Fills R s (v :: vs) t ↔ s = none ∧ ∃ x, R v x ∧ Fills R (some x) vs t := by
  constructor
  · rintro (_ | h)
    exact ⟨rfl, _, h, .kept⟩
  · rintro ⟨rfl, x, h, hx⟩
    cases hx
    exact .filled h

namespace Draft

def Adds (d : Draft) (v : Value) (d' : Draft) : Key → Prop
  | .type => ∃ x, IsText v x ∧ d' = { d with type := some x }
  | .sampleRate => ∃ x, IsWord v x ∧ d' = { d with sampleRate := some x }
  | .channels => ∃ x, IsByte v x ∧ d' = { d with channels := some x }
  | .bitRate => ∃ x, IsWord v x ∧ d' = { d with bitRate := some x }
  | .aot => ∃ x, IsByte v x ∧ d' = { d with aot := some x }

/-- What a member of an object adds to a draft: nothing unless its key is known, and then only if
the key was not met before. -/
def Takes (d : Draft) (e : String × Value) (d' : Draft) : Prop :=
  match Key.ofName? e.1 with
  | some key => d.has key = false ∧ d.Adds e.2 d' key
  | none => d' = d

theorem map_eq_ok_iff {β : Type} {r : Read β} {R : β → Prop} (f : β → Draft) {d' : Draft}
    {rest tail : List UInt8} (hr : ∀ x r', r = .ok (x, r') ↔ R x ∧ r' = rest) :
    (r.map fun p => (f p.1, p.2)) = .ok (d', tail) ↔
      (∃ x, R x ∧ d' = f x) ∧ tail = rest := by
  constructor
  · intro h
    cases r with
    | error p => cases h
    | ok p =>
      cases h
      obtain ⟨hp, hrest⟩ := (hr p.1 p.2).1 rfl
      exact ⟨⟨p.1, hp, rfl⟩, hrest⟩
  · rintro ⟨⟨x, hx, rfl⟩, rfl⟩
    rw [(hr x tail).2 ⟨hx, rfl⟩]
    rfl

theorem readValue_eq_ok_iff {d d' : Draft} {w : Blanks} {v : Value} {rest tail : List UInt8}
    (key : Key) (h : Ends rest) :
    d.readValue key (w.bytes ++ (v.bytes ++ rest)) = .ok (d', tail) ↔
      d.Adds v d' key ∧ tail = rest := by
  cases key with
  | type => exact map_eq_ok_iff (fun x => { d with type := some x }) fun _ _ => readText_eq_ok_iff
  | sampleRate =>
    exact map_eq_ok_iff (fun x => { d with sampleRate := some x }) fun _ _ => readWord_eq_ok_iff h
  | channels =>
    exact map_eq_ok_iff (fun x => { d with channels := some x }) fun _ _ => readByte_eq_ok_iff h
  | bitRate =>
    exact map_eq_ok_iff (fun x => { d with bitRate := some x }) fun _ _ => readWord_eq_ok_iff h
  | aot => exact map_eq_ok_iff (fun x => { d with aot := some x }) fun _ _ => readByte_eq_ok_iff h

/-- What the members of an object add to a draft: each known key at most once. -/
@[mk_iff]
structure Extends (d : Draft) (entries : List (String × Value)) (d' : Draft) : Prop where
  type : Fills IsText d.type (given entries .type) d'.type
  sampleRate : Fills IsWord d.sampleRate (given entries .sampleRate) d'.sampleRate
  channels : Fills IsByte d.channels (given entries .channels) d'.channels
  bitRate : Fills IsWord d.bitRate (given entries .bitRate) d'.bitRate
  aot : Fills IsByte d.aot (given entries .aot) d'.aot

theorem extends_cons_iff {d d' : Draft} {e : String × Value} {entries : List (String × Value)} :
    d.Extends (e :: entries) d' ↔ ∃ d₁, d.Takes e d₁ ∧ d₁.Extends entries d' := by
  obtain ⟨name, v⟩ := e
  unfold Takes
  cases hkey : Key.ofName? name with
  | none =>
    have hne : ∀ key : Key, name ≠ key.name := by
      intro key hname
      rw [Key.ofName?_eq_some_iff.2 hname] at hkey
      cases hkey
    simp only [extends_iff, given_cons, if_neg (hne _), exists_eq_left]
  | some key =>
    obtain rfl := Key.ofName?_eq_some_iff.1 hkey
    cases key <;> simp [extends_iff, given_cons, Key.name, fills_cons_iff, Adds, has] <;> grind

theorem extends_nil_iff {d d' : Draft} : d.Extends [] d' ↔ d' = d := by
  have hnone : ∀ key, given [] key = [] := fun _ => rfl
  cases d
  cases d'
  simp only [extends_iff, hnone, fills_nil_iff, Draft.mk.injEq]

end Draft

section Members
variable {d d' : Draft} {w : Blanks} {rest tail : List UInt8}

theorem readMember_eq_ok_iff (key : Spelling) (behindKey beforeValue : Blanks) (v : Value)
    (h : Ends rest) :
    readMember d (key.inner ++ (behindKey.bytes ++ 0x3a ::
        (beforeValue.bytes ++ (v.bytes ++ rest)))) = .ok (d', tail) ↔
      d.Takes (key.value, v) d' ∧ tail = rest := by
  rw [readMember, string_inner, Draft.Takes]
  cases hk : Key.ofName? key.value with
  | none =>
    simp only [hk, colon_blanks, skipValue_bytes _ _ h, Except.ok.injEq, Prod.mk.injEq, eq_comm]
  | some k =>
    simp only [hk, colon_blanks]
    cases hd : d.has k with
    | true => simp
    | false => simp [Draft.readValue_eq_ok_iff k h]

theorem readMembers_eq (first : Bool) (bs : List UInt8) :
    readMembers first d bs =
      match nextKey first bs with
      | .error p => .error p
      | .ok (.ending rest) => .ok (d, rest)
      | .ok (.key rest) =>
        match readMember d rest with
        | .error p => .error p
        | .ok (d', tail) => readMembers false d' tail := by
  rw [readMembers]
  split
  · next hk => simp only [hk]
  · next hk => simp only [hk]
  · next hk =>
    simp only [hk]
    split <;> simp_all

theorem readMembers_of_key {first : Bool} {bs : List UInt8} {key : Spelling}
    {behindKey beforeValue : Blanks} {v : Value}
    (hnext : nextKey first bs = .ok (.key (key.inner ++ (behindKey.bytes ++ 0x3a ::
      (beforeValue.bytes ++ (v.bytes ++ rest)))))) (h : Ends rest) :
    readMembers first d bs = .ok (d', tail) ↔
      ∃ d₁, d.Takes (key.value, v) d₁ ∧ readMembers false d₁ rest = .ok (d', tail) := by
  have hmember : ∀ d₁ r, readMember d (key.inner ++ (behindKey.bytes ++ 0x3a ::
      (beforeValue.bytes ++ (v.bytes ++ rest)))) = .ok (d₁, r) ↔
        d.Takes (key.value, v) d₁ ∧ r = rest :=
    fun _ _ => readMember_eq_ok_iff key behindKey beforeValue v h
  rw [readMembers_eq, hnext]
  constructor
  · intro hok
    dsimp only at hok
    split at hok
    · cases hok
    · next d₁ r hd₁ =>
      obtain ⟨htakes, rfl⟩ := (hmember d₁ r).1 hd₁
      exact ⟨d₁, htakes, hok⟩
  · rintro ⟨d₁, htakes, hok⟩
    simp only [(hmember d₁ rest).2 ⟨htakes, rfl⟩, hok]

theorem readMembers_of_end {first : Bool} {bs : List UInt8}
    (hnext : nextKey first bs = .ok (.ending rest)) :
    readMembers first d bs = .ok (d', tail) ↔ d' = d ∧ tail = rest := by
  rw [readMembers_eq, hnext]
  simp only [Except.ok.injEq, Prod.mk.injEq, eq_comm]

theorem nextKey_end (first : Bool) (w : Blanks) (rest : List UInt8) :
    nextKey first (w.bytes ++ 0x7d :: rest) = .ok (.ending rest) := by
  rw [nextKey, skipBlank_blanks, skipBlank_cons (by decide)]
  rfl

theorem nextKey_first (gap before : Blanks) (key : Spelling) (bs : List UInt8) :
    nextKey true (gap.bytes ++ (before.bytes ++ (key.bytes ++ bs))) =
      .ok (.key (key.inner ++ bs)) := by
  rw [nextKey, skipBlank_blanks, skipBlank_blanks, Spelling.bytes, List.cons_append,
    skipBlank_cons (by decide)]
  rfl

theorem nextKey_comma (w before : Blanks) (key : Spelling) (bs : List UInt8) :
    nextKey false (w.bytes ++ 0x2c :: (before.bytes ++ (key.bytes ++ bs))) =
      .ok (.key (key.inner ++ bs)) := by
  rw [nextKey, skipBlank_blanks, skipBlank_cons (by decide)]
  simp only [skipBlank_blanks, Spelling.bytes, List.cons_append]
  rw [skipBlank_cons (by decide)]
  rfl

/-- Behind a member the object ends, or goes on with a comma and the next member. -/
theorem readMembers_behind : ∀ (members : Members) (d : Draft) (w : Blanks) {d' : Draft}
    {rest tail : List UInt8},
    readMembers false d (w.bytes ++ ((members.texts.flatMap fun y => 0x2c :: y) ++
        Nest.object.closing :: rest)) = .ok (d', tail) ↔
      d.Extends members.entries d' ∧ tail = rest
  | .nil, d, w, d', rest, tail => by
    rw [Members.entries, Draft.extends_nil_iff]
    exact readMembers_of_end (nextKey_end false w rest)
  | .cons before key behindKey beforeValue v after others, d, w, d', rest, tail => by
    have hends := (ends_items .object others.texts rest).blanks after
    simp only [Members.texts, List.flatMap_cons, List.cons_append, List.append_assoc,
      Members.entries, Draft.extends_cons_iff]
    rw [readMembers_of_key (nextKey_comma w before key _) hends]
    simp only [readMembers_behind others, ← and_assoc, exists_and_right]

/-- The members of an object are read up to its end. -/
theorem readMembers_object (gap : Blanks) (members : Members) :
    readMembers true d (gap.bytes ++ (commaSeparated members.texts ++
        Nest.object.closing :: rest)) = .ok (d', tail) ↔
      d.Extends members.entries d' ∧ tail = rest := by
  cases members with
  | nil =>
    rw [Members.entries, Draft.extends_nil_iff]
    exact readMembers_of_end (nextKey_end true gap rest)
  | cons before key behindKey beforeValue v after others =>
    have hends := (ends_items .object others.texts rest).blanks after
    simp only [Members.texts, commaSeparated_cons, List.cons_append, List.append_assoc,
      Members.entries, Draft.extends_cons_iff]
    rw [readMembers_of_key (nextKey_first gap before key _) hends]
    simp only [readMembers_behind others, ← and_assoc, exists_and_right]

end Members

/-! ## Messages -/

/-- What the members of an object say, taken as a message: the type is a string, and each parameter
is what the values under its key come to. -/
structure Says (entries : List (String × Value)) (m : ControlMessage) : Prop where
  type : ∃ t, given entries .type = [.text t] ∧ t.value = m.type
  sampleRate :
    Amount (UInt32.size - 1) (given entries .sampleRate) (m.sampleRate.map UInt32.toNat)
  channels : Amount (UInt8.size - 1) (given entries .channels) (m.channels.map UInt8.toNat)
  bitRate : Amount (UInt32.size - 1) (given entries .bitRate) (m.bitRate.map UInt32.toNat)
  aot : Amount (UInt8.size - 1) (given entries .aot) (m.aot.map UInt8.toNat)

theorem fills_text_iff {vs : List Value} {s : String} :
    Fills IsText none vs (some s) ↔ ∃ t, vs = [.text t] ∧ t.value = s := by
  constructor
  · rintro (_ | ⟨t, rfl, ht⟩)
    exact ⟨t, rfl, ht⟩
  · rintro ⟨t, rfl, ht⟩
    exact .filled ⟨t, rfl, ht⟩

/-- A key that was not met and one that holds null come to the same. -/
theorem fills_amount_iff {β : Type} {limit : Nat} {toNat : β → Nat} {vs : List Value}
    {x : Option β} :
    (∃ s : Option (Option β), Fills (fun v y => Amount limit [v] (y.map toNat)) none vs s ∧
      s.join = x) ↔ Amount limit vs (x.map toNat) := by
  constructor
  · rintro ⟨s, hs, rfl⟩
    cases hs with
    | kept => exact .absent
    | filled h => exact h
  · intro h
    match vs, h with
    | [], h =>
      cases x with
      | none => exact ⟨none, .kept, rfl⟩
      | some x => cases h
    | [v], h => exact ⟨some x, .filled h, rfl⟩

/-- The draft that an object leads to is finished as the message that it says. -/
theorem finish_eq_ok_iff {entries : List (String × Value)} {m : ControlMessage} :
    (∃ d, Draft.empty.Extends entries d ∧ d.finish = .ok m) ↔ Says entries m := by
  constructor
  · rintro ⟨⟨type, rate, channels, bitRate, aot⟩, ⟨htype, hrate, hchannels, hbit, haot⟩, hm⟩
    cases type with
    | none => cases hm
    | some type =>
      cases hm
      exact ⟨fills_text_iff.1 htype, fills_amount_iff.1 ⟨rate, hrate, rfl⟩,
        fills_amount_iff.1 ⟨channels, hchannels, rfl⟩, fills_amount_iff.1 ⟨bitRate, hbit, rfl⟩,
        fills_amount_iff.1 ⟨aot, haot, rfl⟩⟩
  · rintro ⟨htype, hrate, hchannels, hbit, haot⟩
    obtain ⟨rate, hrate, hr⟩ := fills_amount_iff.2 hrate
    obtain ⟨channels, hchannels, hc⟩ := fills_amount_iff.2 hchannels
    obtain ⟨bitRate, hbit, hb⟩ := fills_amount_iff.2 hbit
    obtain ⟨aot, haot, ha⟩ := fills_amount_iff.2 haot
    refine ⟨⟨some m.type, rate, channels, bitRate, aot⟩,
      ⟨fills_text_iff.2 htype, hrate, hchannels, hbit, haot⟩, ?_⟩
    simp only [Draft.finish, hr, hc, hb, ha]

theorem isEmpty_skipBlank_iff {bs : List UInt8} :
    (skipBlank bs).isEmpty = true ↔ ∀ b ∈ bs, isBlank b = true := by
  rw [List.isEmpty_iff, skipBlank, List.dropWhile_eq_nil_iff]

/-- An object text, with blanks in front of it and any bytes behind it. -/
def objectText (before gap : Blanks) (members : Members) (after : List UInt8) : List UInt8 :=
  before.bytes ++ ((Value.object gap members).bytes ++ after)

/-- An object is read as the message that it says, if it says one and only blanks follow. -/
theorem ofBytes_eq_ok_iff (before gap : Blanks) (members : Members) (after : List UInt8)
    {m : ControlMessage} :
    ofBytes (objectText before gap members after) = .ok m ↔
      Says members.entries m ∧ ∀ b ∈ after, isBlank b = true := by
  have hobject : ∀ r, readObject (gap.bytes ++ (commaSeparated members.texts ++
      Nest.object.closing :: after)) = .ok (m, r) ↔ Says members.entries m ∧ r = after := by
    intro r
    have hmembers : ∀ d r, readMembers true Draft.empty
        (gap.bytes ++ (commaSeparated members.texts ++ Nest.object.closing :: after)) = .ok (d, r) ↔
          Draft.empty.Extends members.entries d ∧ r = after :=
      fun _ _ => readMembers_object gap members
    rw [readObject, ← finish_eq_ok_iff]
    constructor
    · intro hok
      split at hok
      · cases hok
      · next d r' hd =>
        obtain ⟨hext, rfl⟩ := (hmembers d r').1 hd
        cases hm : d.finish with
        | error p => rw [hm] at hok; cases hok
        | ok m' =>
          rw [hm] at hok
          cases hok
          exact ⟨⟨d, hext, hm⟩, rfl⟩
    · rintro ⟨⟨d, hext, hm⟩, rfl⟩
      rw [(hmembers d r).2 ⟨hext, rfl⟩]
      simp only [hm]
      rfl
  have hbytes : skipBlank (before.bytes ++ ((Value.object gap members).bytes ++ after)) =
      0x7b :: (gap.bytes ++ (commaSeparated members.texts ++ Nest.object.closing :: after)) := by
    rw [skipBlank_blanks, Value.bytes, List.cons_append, skipBlank_cons (by decide)]
    simp only [List.append_assoc, List.cons_append, List.nil_append, Nest.closing]
  rw [ofBytes, objectText, hbytes, ← isEmpty_skipBlank_iff]
  simp only [readForm, if_true]
  constructor
  · intro hok
    split at hok
    · cases hok
    · next m' r hr =>
      split at hok
      · next hempty =>
        cases hok
        obtain ⟨hsaid, rfl⟩ := (hobject r).1 hr
        exact ⟨hsaid, hempty⟩
      · cases hok
  · rintro ⟨hsaid, hempty⟩
    rw [(hobject after).2 ⟨hsaid, rfl⟩]
    simp only [hempty, if_true]

/-! ## What is refused -/

/-- The largest number under a key, unless it is the type. -/
def Key.limit? : Key → Option Nat
  | .type => none
  | .sampleRate | .bitRate => some (UInt32.size - 1)
  | .channels | .aot => some (UInt8.size - 1)

/-- What is wrong with an object that says no message: there is no string under the type, a known
key stands there twice, a number has a sign, a point or an exponent or is too large for its field,
or another value stands where a number should. -/
inductive Flawed (entries : List (String × Value)) : Prop where
  | untyped (h : ∀ t, Value.text t ∉ given entries .type)
  | repeated (key : Key) (h : 2 ≤ (given entries key).length)
  | number (key : Key) (limit : Nat) (hlimit : key.limit? = some limit) (n : Numeral)
    (hn : .number n ∈ given entries key)
    (h : n.negative = true ∨ n.fraction ≠ none ∨ n.exponent ≠ none ∨ limit < n.whole.value)
  | other (key : Key) (hkey : key ≠ .type) (v : Value) (hv : v ∈ given entries key)
    (hnull : v ≠ .null) (hnumber : ∀ n, v ≠ .number n)

theorem Says.amount {entries : List (String × Value)} {m : ControlMessage} (h : Says entries m)
    {key : Key} {limit : Nat} (hlimit : key.limit? = some limit) :
    ∃ x, Amount limit (given entries key) x := by
  cases key <;> cases hlimit
  · exact ⟨_, h.sampleRate⟩
  · exact ⟨_, h.channels⟩
  · exact ⟨_, h.bitRate⟩
  · exact ⟨_, h.aot⟩

theorem suits_number_iff {limit : Nat} {n : Numeral} :
    Suits limit (.number n) ↔ ¬ (n.negative = true ∨ n.fraction ≠ none ∨ n.exponent ≠ none ∨
      limit < n.whole.value) := by
  simp only [Suits, reduceCtorEq, Value.number.injEq, exists_eq_left', false_or, Numeral.IsNatural]
  grind

theorem Says.not_flawed {entries : List (String × Value)} {m : ControlMessage}
    (h : Says entries m) : ¬ Flawed entries := by
  obtain ⟨t, ht, -⟩ := h.type
  rintro (hnone | ⟨key, hlen⟩ | ⟨key, limit, hlimit, n, hn, hflaw⟩ |
    ⟨key, hkey, v, hv, hnull, hnumber⟩)
  · exact hnone t (by simp [ht])
  · cases hlimit : key.limit? with
    | none =>
      cases key <;> cases hlimit
      simp [ht] at hlen
    | some limit =>
      have := (exists_amount_iff.1 (h.amount hlimit)).1
      omega
  · have hsuits := (exists_amount_iff.1 (h.amount hlimit)).2 _ hn
    exact suits_number_iff.1 hsuits hflaw
  · cases hlimit : key.limit? with
    | none => cases key <;> cases hlimit; exact hkey rfl
    | some limit =>
      obtain rfl | ⟨n, rfl, -⟩ := (exists_amount_iff.1 (h.amount hlimit)).2 _ hv
      · exact hnull rfl
      · exact hnumber n rfl

theorem exists_amount_of_not_flawed {entries : List (String × Value)} (h : ¬ Flawed entries)
    (key : Key) {limit : Nat} (hlimit : key.limit? = some limit) :
    ∃ x, Amount limit (given entries key) x := by
  have hkey : key ≠ .type := by rintro rfl; cases hlimit
  refine exists_amount_iff.2 ⟨?_, fun v hv => ?_⟩
  · by_contra hlen
    exact h (.repeated key (by omega))
  · by_contra hsuits
    by_cases hnumber : ∃ n, v = .number n
    · obtain ⟨n, rfl⟩ := hnumber
      exact h (.number key limit hlimit n hv (not_not.1 (suits_number_iff.not.1 hsuits)))
    · exact h (.other key hkey v hv (fun hnull => hsuits (.inl hnull))
        fun n hn => hnumber ⟨n, hn⟩)

/-- An object without flaws says a message. -/
theorem exists_says_iff {entries : List (String × Value)} :
    (∃ m, Says entries m) ↔ ¬ Flawed entries := by
  refine ⟨fun ⟨m, h⟩ => h.not_flawed, fun h => ?_⟩
  have htype : ∃ t, given entries .type = [.text t] := by
    by_contra hnone
    refine h (.untyped fun t ht => ?_)
    have hlen : (given entries .type).length ≤ 1 := by
      by_contra hlen
      exact h (.repeated .type (by omega))
    match hg : given entries .type, ht, hlen with
    | [v], ht, _ => exact hnone ⟨t, by rw [hg, List.mem_singleton.1 ht]⟩
  obtain ⟨t, ht⟩ := htype
  obtain ⟨r, hr⟩ := exists_amount_of_not_flawed h .sampleRate rfl
  obtain ⟨c, hc⟩ := exists_amount_of_not_flawed h .channels rfl
  obtain ⟨b, hb⟩ := exists_amount_of_not_flawed h .bitRate rfl
  obtain ⟨a, ha⟩ := exists_amount_of_not_flawed h .aot rfl
  have hword : ∀ n ≤ UInt32.size - 1, (UInt32.ofNat n).toNat = n :=
    fun n hn => UInt32.toNat_ofNat_of_lt (Nat.lt_succ_of_le hn)
  have hbyte : ∀ n ≤ UInt8.size - 1, (UInt8.ofNat n).toNat = n :=
    fun n hn => UInt8.toNat_ofNat_of_lt (Nat.lt_succ_of_le hn)
  exact ⟨⟨t.value, r.map UInt32.ofNat, c.map UInt8.ofNat, b.map UInt32.ofNat, a.map UInt8.ofNat⟩,
    ⟨t, ht, rfl⟩, hr.map hword, hc.map hbyte, hb.map hword, ha.map hbyte⟩

/-- Two objects with the same values under each known key say the same. -/
theorem Says.of_given {entries others : List (String × Value)} {m : ControlMessage}
    (h : Says entries m) (hg : ∀ key, (given entries key).Perm (given others key)) :
    Says others m := by
  have hsame : ∀ key, given others key = given entries key := by
    intro key
    have hlen : (given entries key).length ≤ 1 := by
      by_contra hlen
      exact h.not_flawed (.repeated key (by omega))
    match hv : given entries key, hlen with
    | [], _ => exact (hv ▸ hg key).symm.eq_nil
    | [v], _ => exact List.perm_singleton.1 (hv ▸ hg key).symm
  exact ⟨by rw [hsame]; exact h.type, by rw [hsame]; exact h.sampleRate,
    by rw [hsame]; exact h.channels, by rw [hsame]; exact h.bitRate, by rw [hsame]; exact h.aot⟩

/-- A text that fits the buffer of a bridge is read whole. -/
theorem accept?_objectText {bridge : Bridge} {before gap : Blanks} {members : Members}
    {after : List UInt8} (h : (objectText before gap members after).length ≤ bridge.bufferSize) :
    bridge.accept? (objectText before gap members after) =
      (ofBytes (objectText before gap members after)).toOption := by
  have hne : (objectText before gap members after).isEmpty = false := by
    simp [objectText, Value.bytes]
  rw [Bridge.accept?, List.take_of_length_le h, hne]
  rfl

/-- An object text is refused if the object has a flaw or something else follows. -/
theorem ofBytes_eq_error_iff (before gap : Blanks) (members : Members) (after : List UInt8) :
    (∃ p, ofBytes (objectText before gap members after) = .error p) ↔
      Flawed members.entries ∨ ∃ b ∈ after, isBlank b = false := by
  have hok : (∃ m, ofBytes (objectText before gap members after) = .ok m) ↔
      ¬ Flawed members.entries ∧ ∀ b ∈ after, isBlank b = true := by
    simp only [ofBytes_eq_ok_iff, exists_and_right, exists_says_iff]
  cases hr : ofBytes (objectText before gap members after) with
  | ok m =>
    obtain ⟨hsound, hafter⟩ := hok.1 ⟨m, hr⟩
    simp only [reduceCtorEq, exists_false, false_iff]
    rintro (hflawed | ⟨b, hb, hblank⟩)
    · exact hsound hflawed
    · rw [hafter b hb] at hblank
      cases hblank
  | error p =>
    simp only [Except.error.injEq, exists_eq', true_iff]
    by_contra hnone
    have hafter : ∀ b ∈ after, isBlank b = true := by
      intro b hb
      by_contra hblank
      exact hnone (.inr ⟨b, hb, Bool.eq_false_iff.2 hblank⟩)
    obtain ⟨m, hm⟩ := hok.2 ⟨fun hflawed => hnone (.inl hflawed), hafter⟩
    rw [hr] at hm
    cases hm

theorem toOption_eq_some_iff {r : Except Problem ControlMessage} {m : ControlMessage} :
    r.toOption = some m ↔ r = .ok m := by
  cases r <;> simp [Except.toOption]

theorem command?_eq (m : ControlMessage) (defaults : StreamParams) :
    m.command? defaults =
      if m.type = "start" ∨ m.type = "stop" then some ⟨m.type = "start", m.params defaults⟩
      else none := by
  unfold command?
  by_cases hstart : m.type = "start"
  · simp [hstart]
  · by_cases hstop : m.type = "stop" <;> simp [hstart, hstop]

/-- Every object text, with blanks in front and anything behind it. It is read as the message that
its members say, if they say one and only blanks follow; it is refused exactly if the object is
flawed or something else follows. The message asks for a start or a stop by its type alone, with
each parameter that is not given taken from the defaults. Two objects that have the same values
under each known key, in any order and among any other members, are read alike. A bridge whose
buffer holds the text delivers the message, or ignores the text that is refused. -/
theorem object_commands (before gap : Blanks) (members : Members) (after : List UInt8) :
    (∀ m, ofBytes (objectText before gap members after) = .ok m ↔
      Says members.entries m ∧ ∀ b ∈ after, isBlank b = true) ∧
    ((∃ p, ofBytes (objectText before gap members after) = .error p) ↔
      Flawed members.entries ∨ ∃ b ∈ after, isBlank b = false) ∧
    (∀ m, ofBytes (objectText before gap members after) = .ok m → ∀ defaults, m.command? defaults =
      if m.type = "start" ∨ m.type = "stop" then
        some ⟨m.type = "start",
          { sampleRate := m.sampleRate.getD defaults.sampleRate
            channels := m.channels.getD defaults.channels
            bitRate := m.bitRate.getD defaults.bitRate
            aot := m.aot.getD defaults.aot }⟩
      else none) ∧
    (∀ before' gap' members' after',
      (∀ key, (given members.entries key).Perm (given members'.entries key)) →
      (∀ b ∈ after, isBlank b = true) → (∀ b ∈ after', isBlank b = true) →
      (ofBytes (objectText before' gap' members' after')).toOption =
        (ofBytes (objectText before gap members after)).toOption) ∧
    (∀ bridge : Bridge, (objectText before gap members after).length ≤ bridge.bufferSize →
      (∀ m, ofBytes (objectText before gap members after) = .ok m →
        bridge.handle true (objectText before gap members after) = .delivered m) ∧
      (∀ p, ofBytes (objectText before gap members after) = .error p → ∀ listened,
        bridge.handle listened (objectText before gap members after) = .ignored)) := by
  refine ⟨fun _ => ofBytes_eq_ok_iff before gap members after,
    ofBytes_eq_error_iff before gap members after, fun m _ => command?_eq m, ?_,
    fun bridge hfits => ⟨fun m hm => ?_, fun p hp listened => ?_⟩⟩
  · intro before' gap' members' after' hg hafter hafter'
    apply Option.ext
    intro m
    rw [toOption_eq_some_iff, toOption_eq_some_iff, ofBytes_eq_ok_iff, ofBytes_eq_ok_iff]
    constructor
    · rintro ⟨hsaid, -⟩
      exact ⟨hsaid.of_given fun key => (hg key).symm, hafter⟩
    · rintro ⟨hsaid, -⟩
      exact ⟨hsaid.of_given hg, hafter'⟩
  · simp only [Bridge.handle, accept?_objectText hfits, hm, Except.toOption, if_true]
  · simp only [Bridge.handle, accept?_objectText hfits, hp, Except.toOption]

/-- The escape of a small t. -/
def unitT : CodeUnit where
  d3 := ⟨⟨0, by decide⟩, false⟩
  d2 := ⟨⟨0, by decide⟩, false⟩
  d1 := ⟨⟨7, by decide⟩, false⟩
  d0 := ⟨⟨4, by decide⟩, false⟩

theorem unitT_whole : ¬ unitT.IsHigh ∧ ¬ unitT.IsLow := by decide

/-- A start in no usual order, with blanks, a nested member, an escape and a null. -/
def crowded : Members :=
  .cons (.one 0x20 rfl) (.ofWord "x") .none .none
      (.list .none (.cons .none (.number (.ofNat 1)) .none (.cons .none
        (.object .none (.ofList [(.ofWord "type", .text (.ofWord "stop"))])) .none .nil)))
      (.one 0x0a rfl) <|
    .ofList [(.ofWord "aot", .null), (.ofWord "bit_rate", .number (.ofNat 64000)),
      (⟨.unit unitT unitT_whole :: (Spelling.ofWord "ype").pieces⟩, .text (.ofWord "start"))]

/-- The same start with nothing else. -/
def bare : Members :=
  .ofList [(.ofWord "type", .text (.ofWord "start")), (.ofWord "bit_rate", .number (.ofNat 64000)),
    (.ofWord "aot", .null)]

theorem object_commands_sample :
    objectText .none .none crowded [0x0a] =
      ascii "\x7b \"x\":[1,\x7b\"type\":\"stop\"\x7d]\n," ++
        ascii "\"aot\":null,\"bit_rate\":64000,\"\\u0074ype\":\"start\"\x7d\n" ∧
    (∀ key, (given crowded.entries key).Perm (given bare.entries key)) ∧
    ofBytes (objectText .none .none crowded [0x0a]) = .ok ⟨"start", none, none, some 64000, none⟩ ∧
    (ofBytes (objectText .none .none bare [])).toOption =
      some ⟨"start", none, none, some 64000, none⟩ ∧
    (∀ defaults, (⟨"start", none, none, some 64000, none⟩ : ControlMessage).command? defaults =
      some ⟨true, { defaults with bitRate := 64000 }⟩) ∧
    Bridge.handle ⟨4096⟩ true (objectText .none .none crowded [0x0a]) =
      .delivered ⟨"start", none, none, some 64000, none⟩ ∧
    (∃ p, ofBytes (objectText .none .none
      (.ofList [(.ofWord "type", .text (.ofWord "start")),
        (.ofWord "channels", .number (.ofNat 256))]) []) = .error p) := by
  obtain ⟨hok, -, hcommand, hsame, hbridge⟩ := object_commands .none .none crowded [0x0a]
  have hblank : ∀ b ∈ [(0x0a : UInt8)], isBlank b = true := by simp; decide
  have hperm : ∀ key, (given crowded.entries key).Perm (given bare.entries key) := by
    intro key
    cases key <;> exact .of_eq rfl
  have hread := (hok ⟨"start", none, none, some 64000, none⟩).2
    ⟨⟨⟨_, rfl, by decide⟩, .absent, .absent,
      amount_ofNat (n := 64000) (by decide), .null⟩, hblank⟩
  refine ⟨by decide +kernel, hperm, hread, ?_, hcommand _ hread,
    (hbridge ⟨4096⟩ (by decide +kernel)).1 _ hread, ?_⟩
  · rw [hsame .none .none bare [] hperm hblank (fun b hb => nomatch hb), hread]
    rfl
  · refine (object_commands .none .none _ []).2.1.2
      (.inl (.number .channels _ rfl (.ofNat 256) ?_ ?_))
    · exact List.mem_singleton.2 rfl
    · exact .inr (.inr (.inr (by rw [value_ofNat]; decide)))

end MicStream.ControlMessage
