import MicStream.Json.Skip
import MicStream.Proofs.Json.Numerals
/-!
# Skipping any value

A value that nobody asked for is passed over to its very end, whatever it is
and however deeply its lists and objects are nested. The skipper keeps the
nests that are open in a list of its own, so the law is stated for a value
that stands in any nests; it is proved by induction on the syntax tree.

Results:
* `Value.skipFrom_bytes`: behind a value the skipper stands behind it, in the same nests.
* `skipValue_bytes`: a value is skipped with the blanks in front of it.
-/
namespace MicStream.Json

/-! ## What texts start and go on with -/

theorem commaSeparated_cons (x : List UInt8) (xs : List (List UInt8)) :
    commaSeparated (x :: xs) = x ++ xs.flatMap fun y => 0x2c :: y := by
  induction xs generalizing x with
  | nil => simp [commaSeparated]
  | cons y xs ih => rw [commaSeparated, ih, List.flatMap_cons, List.cons_append]

theorem bytes_of_word : ascii "null" = [0x6e, 0x75, 0x6c, 0x6c] ∧
    ascii "true" = [0x74, 0x72, 0x75, 0x65] ∧ ascii "false" = [0x66, 0x61, 0x6c, 0x73, 0x65] := by
  refine ⟨?_, ?_, ?_⟩ <;> rfl

theorem word_append (w rest : List UInt8) : word w (w ++ rest) = .ok rest := by
  induction w with
  | nil => rfl
  | cons b w ih => rw [List.cons_append, word, if_pos rfl, ih]

/-- A digit is not taken for the start of anything but a number. -/
theorem digitByte_distinct (d : Fin 10) : isBlank (digitByte d) = false ∧ digitByte d ≠ 0x5b ∧
    digitByte d ≠ 0x7b ∧ digitByte d ≠ 0x6e ∧ digitByte d ≠ 0x74 ∧ digitByte d ≠ 0x66 ∧
    digitByte d ≠ 0x2d ∧ digitByte d ≠ 0x5d ∧ digitByte d ≠ 0x22 := by
  revert d
  decide

/-- What the first byte of a value tells about it. -/
structure FirstByte (v : Value) (b : UInt8) : Prop where
  blank : isBlank b = false
  close : b ≠ 0x5d
  null : b = 0x6e ↔ v = .null
  number : b = 0x2d ∨ isDigit b = true ↔ ∃ n, v = .number n
  text : b = 0x22 ↔ ∃ s, v = .text s

/-- A value has a first byte, which is no blank, closes no list and tells what value it is. -/
theorem Value.bytes_eq_cons (v : Value) : ∃ b tail, v.bytes = b :: tail ∧ FirstByte v b := by
  cases v with
  | null => exact ⟨_, _, bytes_of_word.1, by constructor <;> simp [isBlank, isDigit]⟩
  | truth b =>
    cases b
    · exact ⟨_, _, bytes_of_word.2.2, by constructor <;> simp [isBlank, isDigit]⟩
    · exact ⟨_, _, bytes_of_word.2.1, by constructor <;> simp [isBlank, isDigit]⟩
  | number n =>
    simp only [Value.bytes, Numeral.bytes]
    split
    · exact ⟨_, _, rfl, by constructor <;> simp [isBlank]⟩
    · obtain ⟨hblank, -, -, hnull, -, -, -, hclose, htext⟩ := digitByte_distinct n.whole.first
      have hdigit := isDigit_digitByte n.whole.first
      exact ⟨_, _, rfl, by constructor <;> simp [hblank, hclose, hnull, htext, hdigit]⟩
  | text s => exact ⟨_, _, rfl, by constructor <;> simp [isBlank, isDigit]⟩
  | list gap items => exact ⟨_, _, rfl, by constructor <;> simp [isBlank, isDigit]⟩
  | object gap members => exact ⟨_, _, rfl, by constructor <;> simp [isBlank, isDigit]⟩

/-- Behind an item stands a comma or the end of its nest, and both end a number. -/
theorem ends_items (nest : Nest) (texts : List (List UInt8)) (rest : List UInt8) :
    Ends ((texts.flatMap fun y => 0x2c :: y) ++ nest.closing :: rest) := by
  cases texts with
  | nil => cases nest <;> exact .cons (by decide) (by decide) (by decide) rest
  | cons y texts => exact .cons (by decide) (by decide) (by decide) _

/-! ## One step of the skipper -/

section Step
variable {nest : Nest} {nests : List Nest} {bs rest : List UInt8} {b : UInt8}

theorem skipFrom_value (h : skipBlank bs = b :: rest) :
    skipFrom .value nests bs =
      if b = 0x5b then skipFrom .opened (.list :: nests) rest
      else if b = 0x7b then skipFrom .opened (.object :: nests) rest
      else match skipAtom b rest with
        | .error p => .error p
        | .ok tail => skipFrom .behind nests tail := by
  rw [skipFrom]
  split
  · next hb => rw [h] at hb; cases hb
  · next hb =>
    rw [h] at hb
    cases hb
    split
    · rfl
    · split
      · rfl
      · split <;> simp_all

theorem skipFrom_opened (h : skipBlank bs = b :: rest) :
    skipFrom .opened (nest :: nests) bs =
      if b = nest.closing then skipFrom .behind nests rest
      else match nest.lead (b :: rest) with
        | .error p => .error p
        | .ok tail => skipFrom .value (nest :: nests) tail := by
  rw [skipFrom]
  split
  · next hb => rw [h] at hb; cases hb
  · next hb =>
    rw [h] at hb
    cases hb
    split
    · rfl
    · split <;> simp_all

theorem skipFrom_behind (h : skipBlank bs = b :: rest) :
    skipFrom .behind (nest :: nests) bs =
      if b = nest.closing then skipFrom .behind nests rest
      else if b = 0x2c then
        match nest.lead rest with
        | .error p => .error p
        | .ok tail => skipFrom .value (nest :: nests) tail
      else .error .malformed := by
  rw [skipFrom]
  split
  · next hb => rw [h] at hb; cases hb
  · next hb =>
    rw [h] at hb
    cases hb
    split
    · rfl
    · split
      · split <;> simp_all
      · rfl

theorem skipFrom_value_blanks (w : Blanks) (v : Value) :
    skipFrom .value nests (w.bytes ++ (v.bytes ++ rest)) =
      skipFrom .value nests (v.bytes ++ rest) := by
  obtain ⟨b, tail, hv, hb⟩ := v.bytes_eq_cons
  have hplain : skipBlank (v.bytes ++ rest) = b :: (tail ++ rest) := by
    rw [hv, List.cons_append, skipBlank_cons hb.blank]
  rw [skipFrom_value hplain, skipFrom_value (by rw [skipBlank_blanks, hplain])]

theorem skipFrom_opened_close (nest : Nest) (w : Blanks) :
    skipFrom .opened (nest :: nests) (w.bytes ++ nest.closing :: rest) =
      skipFrom .behind nests rest := by
  have hclose : isBlank nest.closing = false := by cases nest <;> decide
  rw [skipFrom_opened (by rw [skipBlank_blanks, skipBlank_cons hclose]), if_pos rfl]

/-- Behind the gap of a nest comes what leads to its first value. -/
theorem skipFrom_opened_item (nest : Nest) (w before : Blanks) (hb : isBlank b = false)
    (hclose : b ≠ nest.closing) {tail : List UInt8} (h : nest.lead (b :: rest) = .ok tail) :
    skipFrom .opened (nest :: nests) (w.bytes ++ (before.bytes ++ b :: rest)) =
      skipFrom .value (nest :: nests) tail := by
  rw [skipFrom_opened (by rw [skipBlank_blanks, skipBlank_blanks, skipBlank_cons hb]),
    if_neg hclose, h]

theorem skipFrom_behind_close (nest : Nest) (w : Blanks) :
    skipFrom .behind (nest :: nests) (w.bytes ++ nest.closing :: rest) =
      skipFrom .behind nests rest := by
  have hclose : isBlank nest.closing = false := by cases nest <;> decide
  rw [skipFrom_behind (by rw [skipBlank_blanks, skipBlank_cons hclose]), if_pos rfl]

theorem skipFrom_behind_comma (nest : Nest) (w : Blanks) {tail : List UInt8}
    (h : nest.lead rest = .ok tail) :
    skipFrom .behind (nest :: nests) (w.bytes ++ 0x2c :: rest) =
      skipFrom .value (nest :: nests) tail := by
  have hclose : (0x2c : UInt8) ≠ nest.closing := by cases nest <;> decide
  rw [skipFrom_behind (by rw [skipBlank_blanks, skipBlank_cons (by decide)]), if_neg hclose,
    if_pos rfl, h]

end Step

theorem colon_blanks (w : Blanks) (rest : List UInt8) :
    colon (w.bytes ++ 0x3a :: rest) = .ok rest := by
  rw [colon, skipBlank_blanks, skipBlank_cons (by decide)]
  rfl

theorem skipKey_bytes (key : Spelling) (behindKey : Blanks) (rest : List UInt8) :
    skipKey (key.bytes ++ (behindKey.bytes ++ 0x3a :: rest)) = .ok rest := by
  rw [skipKey, Spelling.bytes, List.cons_append, skipBlank_cons (by decide)]
  simp only [if_true, skipString_inner, colon_blanks]

theorem skipKey_blanks (w : Blanks) (bs : List UInt8) : skipKey (w.bytes ++ bs) = skipKey bs := by
  rw [skipKey, skipKey, skipBlank_blanks]

/-! ## Values -/

theorem skipFrom_atom {nests : List Nest} {b : UInt8} {text rest : List UInt8}
    (hb : isBlank b = false) (hlist : b ≠ 0x5b) (hobject : b ≠ 0x7b)
    (h : skipAtom b (text ++ rest) = .ok rest) :
    skipFrom .value nests (b :: text ++ rest) = skipFrom .behind nests rest := by
  rw [List.cons_append, skipFrom_value (skipBlank_cons hb _), if_neg hlist, if_neg hobject, h]

theorem skipAtom_digit (d : Fin 10) (rest : List UInt8) :
    skipAtom (digitByte d) rest = skipNumber (digitByte d :: rest) := by
  obtain ⟨-, -, -, hn, ht, hf, hminus, -⟩ := digitByte_distinct d
  rw [skipAtom, if_neg hn, if_neg ht, if_neg hf, if_neg hminus, if_pos (isDigit_digitByte d)]

theorem skipFrom_numeral {nests : List Nest} (n : Numeral) {rest : List UInt8} (h : Ends rest) :
    skipFrom .value nests (n.bytes ++ rest) = skipFrom .behind nests rest := by
  have hskip := skipNumber_magnitude n h
  unfold Numeral.bytes
  cases n.negative with
  | true => exact skipFrom_atom (by decide) (by decide) (by decide) hskip
  | false =>
    obtain ⟨tail, htail⟩ := magnitude_eq_cons n
    obtain ⟨hblank, hlist, hobject, -⟩ := digitByte_distinct n.whole.first
    simp only [Bool.false_eq_true, if_false]
    rw [htail, List.cons_append] at hskip
    rw [htail]
    exact skipFrom_atom hblank hlist hobject (by rw [skipAtom_digit, hskip])

mutual

/-- A value is passed over to its end, whatever nests it stands in. -/
theorem Value.skipFrom_bytes : ∀ (v : Value) (nests : List Nest) {rest : List UInt8}, Ends rest →
    skipFrom .value nests (v.bytes ++ rest) = skipFrom .behind nests rest
  | .null, nests, rest, _ => by
    rw [Value.bytes, bytes_of_word.1]
    exact skipFrom_atom (by decide) (by decide) (by decide) (word_append (ascii "ull") rest)
  | .truth b, nests, rest, _ => by
    cases b
    · exact skipFrom_atom (by decide) (by decide) (by decide) (word_append (ascii "alse") rest)
    · exact skipFrom_atom (by decide) (by decide) (by decide) (word_append (ascii "rue") rest)
  | .number n, nests, _, h => skipFrom_numeral n h
  | .text s, nests, rest, _ =>
    skipFrom_atom (by decide) (by decide) (by decide) (skipString_inner s rest)
  | .list gap items, nests, rest, _ => by
    have hopen : skipFrom .value nests ((Value.list gap items).bytes ++ rest) =
        skipFrom .opened (.list :: nests)
          (gap.bytes ++ (commaSeparated items.texts ++ Nest.list.closing :: rest)) := by
      rw [Value.bytes, List.cons_append, skipFrom_value (skipBlank_cons (by decide) _), if_pos rfl]
      simp only [List.append_assoc, List.cons_append, List.nil_append, Nest.closing]
    rw [hopen]
    cases items with
    | nil => exact skipFrom_opened_close .list gap
    | cons before item after others =>
      obtain ⟨b, tail, hitem, hb⟩ := item.bytes_eq_cons
      have hfirst := item.skipFrom_bytes (.list :: nests)
        ((ends_items .list others.texts rest).blanks after)
      simp only [Items.texts, commaSeparated_cons, List.append_assoc]
      rw [hitem, List.cons_append] at hfirst ⊢
      rw [skipFrom_opened_item .list gap before hb.blank hb.close rfl, hfirst]
      exact others.skipFrom_texts nests after rest
  | .object gap members, nests, rest, _ => by
    have hopen : skipFrom .value nests ((Value.object gap members).bytes ++ rest) =
        skipFrom .opened (.object :: nests)
          (gap.bytes ++ (commaSeparated members.texts ++ Nest.object.closing :: rest)) := by
      rw [Value.bytes, List.cons_append, skipFrom_value (skipBlank_cons (by decide) _),
        if_neg (by decide), if_pos rfl]
      simp only [List.append_assoc, List.cons_append, List.nil_append, Nest.closing]
    rw [hopen]
    cases members with
    | nil => exact skipFrom_opened_close .object gap
    | cons before key behindKey beforeValue value after others =>
      have hfirst := value.skipFrom_bytes (.object :: nests)
        ((ends_items .object others.texts rest).blanks after)
      have hkey : ∀ tail, Nest.object.lead
          (0x22 :: (key.inner ++ (behindKey.bytes ++ 0x3a :: tail))) = .ok tail :=
        skipKey_bytes key behindKey
      simp only [Members.texts, commaSeparated_cons, List.append_assoc, List.cons_append,
        Spelling.bytes]
      rw [skipFrom_opened_item .object gap before (by decide) (by decide) (hkey _),
        skipFrom_value_blanks, hfirst]
      exact others.skipFrom_texts nests after rest

/-- What follows an item of a list is passed over to the end of the list. -/
theorem Items.skipFrom_texts : ∀ (items : Items) (nests : List Nest) (w : Blanks)
    (rest : List UInt8),
    skipFrom .behind (.list :: nests)
        (w.bytes ++ ((items.texts.flatMap fun y => 0x2c :: y) ++ Nest.list.closing :: rest)) =
      skipFrom .behind nests rest
  | .nil, nests, w, rest => skipFrom_behind_close .list w
  | .cons before item after others, nests, w, rest => by
    have hitem := item.skipFrom_bytes (.list :: nests)
      ((ends_items .list others.texts rest).blanks after)
    simp only [Items.texts, List.flatMap_cons, List.cons_append, List.append_assoc]
    rw [skipFrom_behind_comma .list w rfl, skipFrom_value_blanks, hitem]
    exact others.skipFrom_texts nests after rest

/-- What follows a member of an object is passed over to the end of the object. -/
theorem Members.skipFrom_texts : ∀ (members : Members) (nests : List Nest) (w : Blanks)
    (rest : List UInt8),
    skipFrom .behind (.object :: nests)
        (w.bytes ++ ((members.texts.flatMap fun y => 0x2c :: y) ++ Nest.object.closing :: rest)) =
      skipFrom .behind nests rest
  | .nil, nests, w, rest => skipFrom_behind_close .object w
  | .cons before key behindKey beforeValue value after others, nests, w, rest => by
    have hvalue := value.skipFrom_bytes (.object :: nests)
      ((ends_items .object others.texts rest).blanks after)
    simp only [Members.texts, List.flatMap_cons, List.cons_append, List.append_assoc]
    rw [skipFrom_behind_comma .object w
        ((skipKey_blanks before _).trans (skipKey_bytes key behindKey _)),
      skipFrom_value_blanks, hvalue]
    exact others.skipFrom_texts nests after rest

end

/-- A value that nobody asked for is passed over with the blanks in front of it. -/
theorem skipValue_bytes (w : Blanks) (v : Value) {rest : List UInt8} (h : Ends rest) :
    skipValue (w.bytes ++ (v.bytes ++ rest)) = .ok rest := by
  rw [skipValue, skipFrom_value_blanks, v.skipFrom_bytes [] h, skipFrom]

end MicStream.Json
