import MicStream.Proofs.Json.Numerals
/-!
# What is written is in the grammar

The writer spells words plainly, numbers with their decimal digits, and puts
no blanks anywhere. Each text that it writes is the text of a syntax tree, so
whatever holds for all trees holds for what is written.

Results:
* `bytes_ofWord`, `bytes_ofNat`: words and natural numbers as trees.
* `bytes_ofList`, `entries_ofList`: objects as trees, and what they hold.
-/
namespace MicStream.Json

/-! ## Words -/

instance (c : Char) : Decidable (IsPlain c) := inferInstanceAs (Decidable (_ ∧ _ ∧ _))

def IsPlainWord (s : String) : Prop := ∀ c ∈ s.toList, IsPlain c ∧ c.toNat ≤ 127

instance (s : String) : Decidable (IsPlainWord s) := List.decidableBAll _ s.toList

/-- A character written as it is, if it can be. -/
def Piece.ofChar? (c : Char) : Option Piece := if h : IsPlain c then some (.plain c h) else none

def Spelling.ofWord (s : String) : Spelling := ⟨s.toList.filterMap Piece.ofChar?⟩

theorem pieces_of_plain {cs : List Char} (h : ∀ c ∈ cs, IsPlain c ∧ c.toNat ≤ 127) :
    (cs.filterMap Piece.ofChar?).map Piece.char = cs ∧
      (cs.filterMap Piece.ofChar?).flatMap Piece.bytes = asciiBytes cs := by
  induction cs with
  | nil => exact ⟨rfl, rfl⟩
  | cons c cs ih =>
    obtain ⟨hchars, hbytes⟩ := ih fun d hd => h d (List.mem_cons_of_mem c hd)
    obtain ⟨hplain, hascii⟩ := h c (by simp)
    have hpiece : Piece.ofChar? c = some (.plain c hplain) := dif_pos hplain
    have hbyte : String.utf8EncodeChar c = [UInt8.ofNat c.toNat] := if_pos hascii
    rw [List.filterMap_cons_some hpiece, List.map_cons, List.flatMap_cons, hchars, hbytes]
    exact ⟨rfl, by rw [Piece.bytes, hbyte]; rfl⟩

theorem value_ofWord {s : String} (h : IsPlainWord s) : (Spelling.ofWord s).value = s := by
  rw [Spelling.value, Spelling.ofWord, (pieces_of_plain h).1, String.ofList_toList]

theorem bytes_ofWord {s : String} (h : IsPlainWord s) : (Spelling.ofWord s).bytes = quoted s := by
  rw [Spelling.bytes, Spelling.inner, Spelling.ofWord, (pieces_of_plain h).2]
  rfl

/-! ## Natural numbers -/

namespace Digits

def push (ds : Digits) (d : Fin 10) : Digits := ⟨ds.first, ds.others ++ [d]⟩

def ofNat (n : Nat) : Digits :=
  if h : n < 10 then ⟨⟨n, h⟩, []⟩ else (ofNat (n / 10)).push ⟨n % 10, Nat.mod_lt n (by decide)⟩

theorem ofNat_eq (n : Nat) :
    ofNat n = if h : n < 10 then ⟨⟨n, h⟩, []⟩
      else (ofNat (n / 10)).push ⟨n % 10, Nat.mod_lt n (by decide)⟩ := by
  rw [ofNat]

theorem digitChar_byte {d : Nat} (h : d < 10) :
    UInt8.ofNat (Nat.digitChar d).toNat = digitByte ⟨d, h⟩ := by
  revert d
  decide

theorem bytes_push (ds : Digits) (d : Fin 10) : (ds.push d).bytes = ds.bytes ++ [digitByte d] := by
  simp [push, bytes, toList]

theorem value_push (ds : Digits) (d : Fin 10) : (ds.push d).value = ds.value * 10 + d := by
  simp [push, value, toList]

theorem bytes_ofNat (n : Nat) : (ofNat n).bytes = natural n := by
  induction n using Nat.strongRecOn with
  | ind n ih =>
    rw [ofNat_eq, natural, Nat.toDigits_eq_if (by decide)]
    split
    · next h => simp [bytes, toList, asciiBytes, digitChar_byte h]
    · next h =>
      have hrest := ih (n / 10) (by omega)
      rw [natural] at hrest
      simp only [bytes_push, hrest, asciiBytes, List.map_append, List.map_cons, List.map_nil,
        digitChar_byte (Nat.mod_lt n (by decide : 0 < 10))]

theorem value_ofNat (n : Nat) : (ofNat n).value = n := by
  induction n using Nat.strongRecOn with
  | ind n ih =>
    rw [ofNat_eq]
    split
    · next h => simp [value, toList]
    · next h =>
      rw [value_push, ih (n / 10) (by omega)]
      show n / 10 * 10 + n % 10 = n
      omega

theorem leading_ofNat {n : Nat} (h : 0 < n) : (ofNat n).first ≠ 0 := by
  induction n using Nat.strongRecOn with
  | ind n ih =>
    rw [ofNat_eq]
    split
    · next hsmall =>
      intro hzero
      have := congrArg Fin.val hzero
      change n = 0 at this
      omega
    · next hlarge => exact ih (n / 10) (by omega) (by omega)

end Digits

/-- A natural number as the writer writes it. -/
def Numeral.ofNat (n : Nat) : Numeral where
  negative := false
  whole := Digits.ofNat n
  leading h := by
    rcases Nat.eq_zero_or_pos n with rfl | hpos
    · rw [Digits.ofNat_eq]
      rfl
    · exact absurd h (Digits.leading_ofNat hpos)
  fraction := none
  exponent := none

theorem bytes_ofNat (n : Nat) : (Numeral.ofNat n).bytes = natural n := by
  simp [Numeral.bytes, Numeral.magnitudeBytes, Numeral.ofNat, Numeral.fractionBytes,
    Numeral.exponentBytes, Digits.bytes_ofNat]

theorem value_ofNat (n : Nat) : (Numeral.ofNat n).whole.value = n := Digits.value_ofNat n

/-! ## Objects -/

/-- Members with no blanks. -/
def Members.ofList : List (Spelling × Value) → Members
  | [] => .nil
  | (key, value) :: ms => .cons .none key .none .none value .none (ofList ms)

theorem entries_ofList (ms : List (Spelling × Value)) :
    (Members.ofList ms).entries = ms.map fun m => (m.1.value, m.2) := by
  induction ms with
  | nil => rfl
  | cons m ms ih => simp [Members.ofList, Members.entries, ih]

theorem texts_ofList (ms : List (Spelling × Value)) :
    (Members.ofList ms).texts = ms.map fun m => m.1.bytes ++ 0x3a :: m.2.bytes := by
  induction ms with
  | nil => rfl
  | cons m ms ih => simp [Members.ofList, Members.texts, Blanks.none, ih]

/-- An object that is written is the text of a tree. -/
theorem bytes_ofList (ms : List (Spelling × Value)) {written : List (String × List UInt8)}
    (h : ms.map (fun m => m.1.bytes ++ 0x3a :: m.2.bytes) =
      written.map fun m => quoted m.1 ++ 0x3a :: m.2) :
    (Value.object .none (Members.ofList ms)).bytes = object written := by
  simp [Value.bytes, object, texts_ofList, Blanks.none, h]

end MicStream.Json
