import MicStream.Json.Number
/-!
# Skipping JSON values

A value that nobody asked for is passed over. It has to be well formed, but
it is not valued, and it may be nested to any depth: the lists and objects
that are open are kept in a list of their own.

Results:
* `length_skipValue_le`: skipping only moves forward.
-/
namespace MicStream.Json

/-- What a value may stand in. -/
inductive Nest where
  | list
  | object
  deriving DecidableEq, Repr

/-- The byte that ends a list or an object. -/
def Nest.closing : Nest → UInt8
  | .list => 0x5d
  | .object => 0x7d

/-- Where a skip stands: before a value, behind the opening of the innermost nest, or behind a
value. -/
inductive SkipStage where
  | value
  | opened
  | behind
  deriving DecidableEq, Repr

/-- Passes over a value that is no list or object, from its first byte. -/
def skipAtom (b : UInt8) (rest : List UInt8) : Except Problem (List UInt8) :=
  if b = 0x6e then word (ascii "ull") rest
  else if b = 0x74 then word (ascii "rue") rest
  else if b = 0x66 then word (ascii "alse") rest
  else if b = 0x2d then skipNumber rest
  else if isDigit b then skipNumber (b :: rest)
  else if b = 0x22 then skipString rest
  else .error .malformed

def colon (bs : List UInt8) : Except Problem (List UInt8) :=
  match skipBlank bs with
  | [] => .error .truncated
  | b :: rest => if b = 0x3a then .ok rest else .error .malformed

def skipKey (bs : List UInt8) : Except Problem (List UInt8) :=
  match skipBlank bs with
  | [] => .error .truncated
  | b :: rest =>
    if b = 0x22 then
      match skipString rest with
      | .error p => .error p
      | .ok rest => colon rest
    else .error .malformed

/-- What comes before each value in a nest. -/
def Nest.lead : Nest → List UInt8 → Except Problem (List UInt8)
  | .list, bs => .ok bs
  | .object, bs => skipKey bs

/-! ## Moving forward -/

theorem length_word_le {w bs rest : List UInt8} (h : word w bs = .ok rest) :
    rest.length ≤ bs.length := by
  induction w generalizing bs with
  | nil =>
    simp only [word, Except.ok.injEq] at h
    exact Nat.le_of_eq (congrArg List.length h.symm)
  | cons c w ih =>
    cases bs with
    | nil => simp [word] at h
    | cons b bs =>
      simp only [word] at h
      split at h
      · have := ih h
        simp only [List.length_cons]
        omega
      · simp at h

theorem length_skipString_le {bs rest : List UInt8} (h : skipString bs = .ok rest) :
    rest.length ≤ bs.length := by
  fun_induction skipString bs with
  | case1 => simp at h
  | case2 =>
    simp only [Except.ok.injEq] at h
    rw [← h]; simp
  | case3 => simp at h
  | case4 bs tail _ he hl ih =>
    have := ih h
    simp only [List.length_cons]
    omega
  | case5 => simp at h
  | case6 b bs _ _ _ ih =>
    have := ih h
    simp only [List.length_cons]
    omega

theorem length_skipAtom_le {b : UInt8} {bs rest : List UInt8} (h : skipAtom b bs = .ok rest) :
    rest.length ≤ bs.length := by
  unfold skipAtom at h
  split at h
  · exact length_word_le h
  · split at h
    · exact length_word_le h
    · split at h
      · exact length_word_le h
      · split at h
        · exact Nat.le_of_lt (length_skipNumber h)
        · split at h
          · exact Nat.le_of_lt_succ (length_skipNumber h)
          · split at h
            · exact length_skipString_le h
            · simp at h

theorem length_colon {bs rest : List UInt8} (h : colon bs = .ok rest) : rest.length < bs.length := by
  unfold colon at h
  have hs := length_skipBlank_le bs
  split at h
  · simp at h
  · next hb =>
    rw [hb] at hs
    split at h
    · simp only [Except.ok.injEq] at h
      rw [← h]; exact hs
    · simp at h

theorem length_skipKey {bs rest : List UInt8} (h : skipKey bs = .ok rest) :
    rest.length < bs.length := by
  unfold skipKey at h
  have hs := length_skipBlank_le bs
  split at h
  · simp at h
  · next hb =>
    rw [hb] at hs
    simp only [List.length_cons] at hs
    split at h
    · split at h
      · simp at h
      · next hk =>
        have h1 := length_skipString_le hk
        have h2 := length_colon h
        omega
    · simp at h

theorem Nest.length_lead_le {nest : Nest} {bs rest : List UInt8} (h : nest.lead bs = .ok rest) :
    rest.length ≤ bs.length := by
  cases nest with
  | list =>
    simp only [Nest.lead, Except.ok.injEq] at h
    exact Nat.le_of_eq (congrArg List.length h.symm)
  | object => exact Nat.le_of_lt (length_skipKey h)

/-! ## Values -/

/-- Bytes to go, counted twice, and one more where a nest may end at once. -/
def SkipStage.measure : SkipStage → List UInt8 → Nat
  | .opened, bs => 2 * bs.length + 1
  | _, bs => 2 * bs.length

/-- Passes over what is left of a value and of the nests around it, the innermost first. -/
def skipFrom (stage : SkipStage) (nests : List Nest) (bs : List UInt8) :
    Except Problem (List UInt8) :=
  match stage, nests with
  | .value, nests =>
    match hb : skipBlank bs with
    | [] => .error .truncated
    | b :: rest =>
      have := length_of_skipBlank hb
      if b = 0x5b then skipFrom .opened (.list :: nests) rest
      else if b = 0x7b then skipFrom .opened (.object :: nests) rest
      else match ha : skipAtom b rest with
        | .error p => .error p
        | .ok tail =>
          have := length_skipAtom_le ha
          skipFrom .behind nests tail
  | .opened, [] => .ok bs
  | .behind, [] => .ok bs
  | .opened, nest :: nests =>
    match hb : skipBlank bs with
    | [] => .error .truncated
    | b :: rest =>
      have := length_of_skipBlank hb
      if b = nest.closing then skipFrom .behind nests rest
      else match hl : nest.lead (b :: rest) with
        | .error p => .error p
        | .ok tail =>
          have := Nest.length_lead_le hl
          skipFrom .value (nest :: nests) tail
  | .behind, nest :: nests =>
    match hb : skipBlank bs with
    | [] => .error .truncated
    | b :: rest =>
      have := length_of_skipBlank hb
      if b = nest.closing then skipFrom .behind nests rest
      else if b = 0x2c then
        match hl : nest.lead rest with
        | .error p => .error p
        | .ok tail =>
          have := Nest.length_lead_le hl
          skipFrom .value (nest :: nests) tail
      else .error .malformed
termination_by stage.measure bs
decreasing_by all_goals simp only [SkipStage.measure, List.length_cons] at *; omega

def skipValue (bs : List UInt8) : Except Problem (List UInt8) := skipFrom .value [] bs

theorem length_skipFrom_le {stage : SkipStage} {nests : List Nest} {bs rest : List UInt8}
    (h : skipFrom stage nests bs = .ok rest) : rest.length ≤ bs.length := by
  fun_induction skipFrom stage nests bs <;> simp_all <;> omega

theorem length_skipValue_le {bs rest : List UInt8} (h : skipValue bs = .ok rest) :
    rest.length ≤ bs.length := length_skipFrom_le h

end MicStream.Json
