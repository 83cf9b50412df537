import MicStream.Proofs.Json.Strings
/-!
# Reading numbers however they are written

A number ends where no digit, point or exponent follows (`Ends`). The skipper
finds that end. The reader of natural numbers finds the number if it is
written with digits alone and has at most 64 bits, and finds no natural
number otherwise.

Results:
* `skipNumber_magnitude`: the skipper stops behind a number.
* `number_eq_natural_iff`: which natural number is read, if any.
-/
namespace MicStream.Json

/-- A text that does not go on with a number that stands in front of it. -/
def Ends (rest : List UInt8) : Prop :=
  ∀ b ∈ rest.head?, isDigit b = false ∧ b ≠ 0x2e ∧ isExponentMark b = false

theorem ends_nil : Ends [] := by simp [Ends]

theorem Ends.cons {b : UInt8} (hd : isDigit b = false) (hp : b ≠ 0x2e)
    (he : isExponentMark b = false) (bs : List UInt8) : Ends (b :: bs) := by
  intro c hc
  cases hc
  exact ⟨hd, hp, he⟩

theorem ends_of_blank {b : UInt8} (h : isBlank b = true) (bs : List UInt8) : Ends (b :: bs) := by
  simp only [isBlank, Bool.or_eq_true, decide_eq_true_eq] at h
  rcases h with ((rfl | rfl) | rfl) | rfl <;>
    exact .cons (by decide) (by decide) (by decide) bs

/-- Blanks end a number, and without any it ends where it ended before. -/
theorem Ends.blanks {bs : List UInt8} (h : Ends bs) (w : Blanks) : Ends (w.bytes ++ bs) := by
  cases hw : w.bytes with
  | nil => exact h
  | cons b ws => exact ends_of_blank (w.blank b (by simp [hw])) _

/-! ## Digits -/

theorem toNat_digitByte (d : Fin 10) : (digitByte d).toNat = 48 + d := by
  rw [digitByte, UInt8.toNat_ofNat']
  omega

theorem isDigit_digitByte (d : Fin 10) : isDigit (digitByte d) = true := by
  have := toNat_digitByte d
  simp only [isDigit, this, Bool.and_eq_true, decide_eq_true_eq]
  omega

theorem digitByte_ne (d : Fin 10) {b : UInt8} (h : b.toNat < 48) : digitByte d ≠ b := by
  rintro rfl
  rw [toNat_digitByte] at h
  omega

theorem leading_zero (n : Numeral) :
    ¬ (digitByte n.whole.first = 0x30 ∧ n.whole.others.map digitByte ≠ []) := by
  rintro ⟨hfirst, hothers⟩
  have hd := toNat_digitByte n.whole.first
  rw [hfirst] at hd
  change 48 = 48 + n.whole.first.val at hd
  apply hothers
  rw [n.leading (by omega), List.map_nil]

theorem takeWhile_digits (ds : Digits) {rest : List UInt8}
    (h : ∀ b ∈ rest.head?, isDigit b = false) :
    (ds.bytes ++ rest).takeWhile isDigit = ds.bytes ∧
      (ds.bytes ++ rest).dropWhile isDigit = rest := by
  have hall : ∀ b ∈ ds.bytes, isDigit b = true := by
    intro b hb
    obtain ⟨d, -, rfl⟩ := List.mem_map.1 hb
    exact isDigit_digitByte d
  rw [List.takeWhile_append_of_pos hall, List.dropWhile_append_of_pos hall]
  cases rest with
  | nil => simp
  | cons b rest =>
    have hb := h b rfl
    rw [List.takeWhile_cons_of_neg (by simp [hb]), List.dropWhile_cons_of_neg (by simp [hb])]
    simp

theorem bytes_digits (ds : Digits) : ds.bytes = digitByte ds.first :: ds.others.map digitByte := rfl

/-! ## What follows the whole digits -/

theorem isExponentMark_mark (e : Exponent) :
    isExponentMark e.mark = true ∧ isDigit e.mark = false ∧ e.mark ≠ 0x2e := by
  unfold Exponent.mark
  split <;> decide

theorem noDigit_exponent (e : Option Exponent) {rest : List UInt8} (h : Ends rest) :
    ∀ b ∈ (Numeral.exponentBytes e ++ rest).head?, isDigit b = false ∧ b ≠ 0x2e := by
  cases e with
  | none => exact fun b hb => ⟨(h b hb).1, (h b hb).2.1⟩
  | some e =>
    rintro b ⟨⟩
    exact (isExponentMark_mark e).2

theorem noDigit_fraction (f : Option Digits) (e : Option Exponent) {rest : List UInt8}
    (h : Ends rest) :
    ∀ b ∈ (Numeral.fractionBytes f ++ (Numeral.exponentBytes e ++ rest)).head?,
      isDigit b = false := by
  cases f with
  | none => exact fun b hb => (noDigit_exponent e h b hb).1
  | some ds =>
    rintro b ⟨⟩
    decide

theorem splitSign_sign (sign : Option Bool) (ds : Digits) (rest : List UInt8) :
    (splitSign (Exponent.signBytes sign ++ (ds.bytes ++ rest))).2 = ds.bytes ++ rest := by
  cases sign with
  | none =>
    have hminus : digitByte ds.first ≠ 0x2d := digitByte_ne _ (by decide)
    have hplus : digitByte ds.first ≠ 0x2b := digitByte_ne _ (by decide)
    simp only [Exponent.signBytes, List.nil_append, bytes_digits, List.cons_append, splitSign,
      if_neg hminus, if_neg hplus]
  | some minus => cases minus <;> rfl

/-! ## Skipping -/

theorem skipExponent_bytes (e : Option Exponent) {rest : List UInt8} (h : Ends rest) :
    skipExponent (Numeral.exponentBytes e ++ rest) = .ok rest := by
  cases e with
  | none =>
    cases rest with
    | nil => rfl
    | cons b rest =>
      have := (h b rfl).2.2
      simp [Numeral.exponentBytes, skipExponent, this]
  | some e =>
    obtain ⟨htake, hdrop⟩ := takeWhile_digits e.digits fun b hb => (h b hb).1
    simp only [Numeral.exponentBytes, Exponent.bytes, List.cons_append, List.append_assoc,
      skipExponent, (isExponentMark_mark e).1, if_true, splitSign_sign, htake, hdrop]
    rfl

theorem skipFraction_bytes (f : Option Digits) (e : Option Exponent) {rest : List UInt8}
    (h : Ends rest) :
    skipFraction (Numeral.fractionBytes f ++ (Numeral.exponentBytes e ++ rest)) = .ok rest := by
  cases f with
  | none =>
    have hskip := skipExponent_bytes e h
    have hpoint := noDigit_exponent e h
    simp only [Numeral.fractionBytes, List.nil_append]
    cases hbs : Numeral.exponentBytes e ++ rest with
    | nil => rw [hbs] at hskip; exact hskip
    | cons b bs =>
      rw [hbs] at hskip hpoint
      rw [skipFraction, if_neg (hpoint b rfl).2, hskip]
  | some ds =>
    obtain ⟨htake, hdrop⟩ := takeWhile_digits ds fun b hb => (noDigit_exponent e h b hb).1
    simp only [Numeral.fractionBytes, List.cons_append, skipFraction, if_true, htake, hdrop]
    exact skipExponent_bytes e h

theorem skipNumber_magnitude (n : Numeral) {rest : List UInt8} (h : Ends rest) :
    skipNumber (n.magnitudeBytes ++ rest) = .ok rest := by
  obtain ⟨htake, hdrop⟩ := takeWhile_digits n.whole (noDigit_fraction n.fraction n.exponent h)
  simp only [Numeral.magnitudeBytes, List.append_assoc, skipNumber, htake, hdrop]
  rw [bytes_digits]
  simp only [if_neg (leading_zero n)]
  exact skipFraction_bytes n.fraction n.exponent h

/-! ## Reading -/

theorem foldl_digits_le (ds : List (Fin 10)) (s : Nat) :
    s ≤ ds.foldl (fun n d => n * 10 + d.val) s := by
  induction ds generalizing s with
  | nil => exact Nat.le_refl s
  | cons d ds ih => exact Nat.le_trans (by omega) (ih (s * 10 + d.val))

/-- Digits are read one by one until their number has more than 64 bits. -/
theorem significand_digits (ds : List (Fin 10)) (s : Nat) :
    (ds.foldl (fun n d => n * 10 + d.val) s ≤ maxNatural →
      significand s (ds.map digitByte) = ⟨ds.foldl (fun n d => n * 10 + d.val) s, 0⟩) ∧
    (maxNatural < ds.foldl (fun n d => n * 10 + d.val) s → s ≤ maxNatural →
      (significand s (ds.map digitByte)).left ≠ 0) := by
  induction ds generalizing s with
  | nil => exact ⟨fun _ => rfl, fun hlarge hs => absurd hs (Nat.not_le.2 hlarge)⟩
  | cons d ds ih =>
    have hd : s * 10 + ((digitByte d).toNat - 48) = s * 10 + d.val := by
      rw [toNat_digitByte]; omega
    simp only [List.map_cons, List.foldl_cons, significand, hd]
    obtain ⟨hsmall, hlarge⟩ := ih (s * 10 + d.val)
    by_cases hover : maxNatural < s * 10 + d.val
    · rw [if_pos hover]
      refine ⟨fun hle => ?_, fun _ _ => Nat.succ_ne_zero _⟩
      exact absurd (Nat.le_trans (foldl_digits_le ds _) hle) (Nat.not_le.2 hover)
    · rw [if_neg hover]
      exact ⟨hsmall, fun hl _ => hlarge hl (Nat.not_lt.1 hover)⟩

def NotNatural (r : Read Number) : Prop := ∀ k rest, r ≠ .ok (.natural k, rest)

theorem notNatural_scaled (s : Nat) (e : Int) (bs : List UInt8) :
    NotNatural (scaledNumber s e bs) := by
  intro k rest
  unfold scaledNumber
  split <;> simp

theorem notNatural_exponent (s : Nat) (e : Int) (bs : List UInt8) :
    NotNatural (exponentPart s e bs) := by
  intro k rest
  unfold exponentPart
  split
  · exact notNatural_scaled _ _ _ k rest
  · split
    · dsimp only
      split
      · simp
      · exact notNatural_scaled _ _ _ k rest
    · exact notNatural_scaled _ _ _ k rest

theorem notNatural_fraction (s : Nat) (e : Int) (bs : List UInt8) :
    NotNatural (fractionPart s e bs) := by
  intro k rest
  unfold fractionPart
  split
  · simp
  · exact notNatural_exponent _ _ _ k rest

/-- How a number is read on behind its whole digits. -/
def readOn (s : Significand) (bs : List UInt8) : Read Number :=
  match bs with
  | [] => if s.left = 0 then .ok (.natural s.value, []) else scaledNumber s.value s.left []
  | b :: rest =>
    if b = 0x2e then fractionPart s.value s.left rest
    else if isExponentMark b ∨ s.left ≠ 0 then exponentPart s.value s.left (b :: rest)
    else .ok (.natural s.value, b :: rest)

theorem unsignedNumber_magnitude (n : Numeral) {rest : List UInt8} (h : Ends rest) :
    unsignedNumber (n.magnitudeBytes ++ rest) = readOn (significand 0 n.whole.bytes)
      (Numeral.fractionBytes n.fraction ++ (Numeral.exponentBytes n.exponent ++ rest)) := by
  obtain ⟨htake, hdrop⟩ := takeWhile_digits n.whole (noDigit_fraction n.fraction n.exponent h)
  simp only [Numeral.magnitudeBytes, List.append_assoc, unsignedNumber, htake, hdrop]
  rw [bytes_digits]
  simp only [if_neg (leading_zero n)]
  rfl

/-- Only digits alone are read as a natural number, and only up to 64 bits. -/
theorem unsignedNumber_eq_natural_iff (n : Numeral) {rest tail : List UInt8} {k : Nat}
    (h : Ends rest) :
    unsignedNumber (n.magnitudeBytes ++ rest) = .ok (.natural k, tail) ↔
      (n.fraction = none ∧ n.exponent = none) ∧ n.whole.value ≤ maxNatural ∧
        k = n.whole.value ∧ tail = rest := by
  rw [unsignedNumber_magnitude n h]
  cases hf : n.fraction with
  | some ds =>
    refine ⟨fun hk => ?_, fun ⟨⟨hnone, _⟩, _⟩ => nomatch hnone⟩
    exact absurd hk (notNatural_fraction _ _ _ k tail)
  | none =>
    cases he : n.exponent with
    | some e =>
      refine ⟨fun hk => ?_, fun ⟨⟨_, hnone⟩, _⟩ => nomatch hnone⟩
      simp only [Numeral.fractionBytes, Numeral.exponentBytes, Exponent.bytes, List.nil_append,
        List.cons_append, readOn, (isExponentMark_mark e).1, if_neg (isExponentMark_mark e).2.2,
        true_or, if_true] at hk
      exact absurd hk (notNatural_exponent _ _ _ k tail)
    | none =>
      obtain ⟨hsmall, hlarge⟩ := significand_digits n.whole.toList 0
      simp only [Numeral.fractionBytes, Numeral.exponentBytes, List.nil_append, and_self, true_and]
      by_cases hle : n.whole.value ≤ maxNatural
      · have hsig : significand 0 n.whole.bytes = ⟨n.whole.value, 0⟩ := hsmall hle
        cases rest with
        | nil => simp [readOn, hsig, hle, eq_comm]
        | cons b rest =>
          obtain ⟨-, hpoint, hmark⟩ := h b rfl
          simp [readOn, hsig, hle, hpoint, hmark, eq_comm]
      · have hleft : (significand 0 n.whole.bytes).left ≠ 0 :=
          hlarge (Nat.not_le.1 hle) (Nat.zero_le _)
        refine ⟨fun hk => ?_, fun hk => absurd hk.1 hle⟩
        cases rest with
        | nil =>
          simp only [readOn, if_neg hleft] at hk
          exact absurd hk (notNatural_scaled _ _ _ k tail)
        | cons b rest =>
          obtain ⟨-, hpoint, -⟩ := h b rfl
          simp only [readOn, if_neg hpoint, if_pos (Or.inr hleft)] at hk
          exact absurd hk (notNatural_exponent _ _ _ k tail)

theorem magnitude_eq_cons (n : Numeral) :
    ∃ tail, n.magnitudeBytes = digitByte n.whole.first :: tail := ⟨_, rfl⟩

/-- A number is read as natural if it is written with digits alone and has at most 64 bits. -/
theorem number_eq_natural_iff (n : Numeral) {rest tail : List UInt8} {k : Nat} (h : Ends rest) :
    number (n.bytes ++ rest) = .ok (.natural k, tail) ↔
      n.IsNatural ∧ n.whole.value ≤ maxNatural ∧ k = n.whole.value ∧ tail = rest := by
  unfold Numeral.bytes Numeral.IsNatural
  cases hneg : n.negative with
  | true =>
    refine ⟨fun hk => ?_, fun hk => nomatch hk.1.1⟩
    simp only [if_true, List.cons_append, number] at hk
    split at hk <;> simp at hk
  | false =>
    obtain ⟨tail', htail⟩ := magnitude_eq_cons n
    have hminus : digitByte n.whole.first ≠ 0x2d := digitByte_ne _ (by decide)
    have hread : number (n.magnitudeBytes ++ rest) = unsignedNumber (n.magnitudeBytes ++ rest) := by
      rw [htail, List.cons_append, number, if_neg hminus]
    simp only [Bool.false_eq_true, if_false, true_and]
    rw [hread, unsignedNumber_eq_natural_iff n h]

end MicStream.Json
