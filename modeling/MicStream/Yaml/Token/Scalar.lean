import MicStream.Yaml.Token.Word
/-!
# Scalars

Bare and quoted scalars fold their line ends: one line end between two words
is a space, and of several the first is dropped. Block scalars keep the lines
that stand at their indentation; a literal one as they are, a folded one
folded as above except around lines that start with a blank.
-/
namespace MicStream.Yaml

/-- What stands between two words: blanks (last first), or line ends with the first one apart
(absent when it was escaped) and the further ones last first. -/
inductive Gap where
  | blanks (cs : List Char)
  | lines (first : Option Char) (further : List Char)
  deriving DecidableEq, Repr

namespace Gap

def empty : Gap := .blanks []

def isEmpty : Gap → Bool
  | .blanks [] => true
  | _ => false

def hasLines : Gap → Bool
  | .blanks _ => false
  | .lines _ _ => true

/-- Blanks at the start of a line do not count. -/
def addBlank (c : Char) : Gap → Gap
  | .blanks cs => .blanks (c :: cs)
  | g => g

/-- Blanks in front of a line end do not count. -/
def addBreak (c : Char) : Gap → Gap
  | .blanks _ => .lines (some c) []
  | .lines first further => .lines first (c :: further)

/-- What the gap contributes to the scalar, last character first. -/
def text : Gap → List Char
  | .blanks cs => cs
  | .lines (some '\n') [] => [' ']
  | .lines (some '\n') further => further
  | .lines (some c) further => further ++ [c]
  | .lines none further => further

end Gap

/-- A scalar that was read: its text, the spots behind it, and whether line ends came last. -/
structure Reading where
  text : List Char
  rest : List Spot
  pastLine : Bool
  deriving DecidableEq, Repr

/-! ## Bare scalars -/

/-- Whether a bare scalar ends in front of these spots, which are neither blank nor line end: a
further line too far left, an edge of the document, a comment, or an indicator. -/
def bareEnds (inFlow : Bool) (indent : Int) (gap : Gap) (s : Spot) (rest : List Spot) : Bool :=
  (!gap.isEmpty && !inFlow && decide ((s.column : Int) < indent))
    || isDocumentEdge (s :: rest)
    || (!gap.isEmpty && s.char == '#')
    || (s.char == ':' && blankNext rest)
    || (inFlow && [',', '[', ']', '{', '}'].contains s.char)

/-- Reads a bare scalar whose lines must not start left of column `indent`. Its text so far is
held last character first. A colon that touches an indicator is refused in flow style. -/
def bare? (inFlow : Bool) (indent : Int) (acc : List Char) (gap : Gap) : List Spot → Option Reading
  | [] => some ⟨acc.reverse, [], gap.hasLines⟩
  | s :: rest =>
    if isBlank s.char then
      if gap.hasLines ∧ (s.column : Int) < indent ∧ s.char = '\t' then none
      else bare? inFlow indent acc (gap.addBlank s.char) rest
    else if isBreak s.char then bare? inFlow indent acc (gap.addBreak s.char) rest
    else if bareEnds inFlow indent gap s rest then some ⟨acc.reverse, s :: rest, gap.hasLines⟩
    else if inFlow ∧ s.char = ':' ∧ nextIn [',', '?', '[', ']', '{', '}'] rest then none
    else bare? inFlow indent (s.char :: (gap.text ++ acc)) .empty rest

/-! ## Quoted scalars -/

/-- Escapes of one letter in double quotes. -/
def shortEscape? (c : Char) : Option Char :=
  match c with
  | '0' => some '\x00'
  | 'a' => some '\x07'
  | 'b' => some '\x08'
  | 't' | '\t' => some '\t'
  | 'n' => some '\n'
  | 'v' => some '\x0b'
  | 'f' => some '\x0c'
  | 'r' => some '\r'
  | 'e' => some '\x1b'
  | ' ' => some ' '
  | '\x22' => some '\x22'
  | '/' => some '/'
  | '\\' => some '\\'
  | 'N' => some '\u0085'
  | '_' => some '\u00a0'
  | 'L' => some '\u2028'
  | 'P' => some '\u2029'
  | _ => none

/-- How many hexadecimal digits follow an escape letter. -/
def escapeWidth (c : Char) : Nat :=
  if c = 'x' then 2 else if c = 'u' then 4 else if c = 'U' then 8 else 0

/-- The character that an escape names, behind its backslash. -/
def escape? : List Spot → Option (Char × List Spot)
  | [] => none
  | s :: rest =>
    match shortEscape? s.char with
    | some c => some (c, rest)
    | none =>
      if escapeWidth s.char = 0 then none
      else (hexDigits? (escapeWidth s.char) 0 rest).bind fun (n, rest) =>
        if (0xd800 ≤ n ∧ n ≤ 0xdfff) ∨ 0x10ffff < n then none else some (Char.ofNat n, rest)

/-- Reads a quoted scalar behind its opening quote. The fuel bounds the length. -/
def quoted? (single : Bool) : Nat → List Char → Gap → List Spot → Option Reading
  | 0, _, _, _ => none
  | _ + 1, _, _, [] => none
  | fuel + 1, acc, gap, s :: rest =>
    let quote := if single then '\x27' else '\x22'
    if isBlank s.char then quoted? single fuel acc (gap.addBlank s.char) rest
    else if isBreak s.char then quoted? single fuel acc (gap.addBreak s.char) rest
    else if isDocumentEdge (s :: rest) then none
    else
      let acc := gap.text ++ acc
      if s.char = quote then
        if single ∧ nextIn [quote] rest then quoted? single fuel (quote :: acc) .empty (rest.drop 1)
        else some ⟨acc.reverse, rest, false⟩
      else if ¬ single ∧ s.char = '\\' then
        if nextIn ['\n', '\u2028', '\u2029'] rest then
          quoted? single fuel acc (.lines none []) (rest.drop 1)
        else (escape? rest).bind fun (c, rest) => quoted? single fuel (c :: acc) .empty rest
      else quoted? single fuel (s.char :: acc) .empty rest

/-! ## Block scalars -/

inductive Chomp where
  | strip
  | clip
  | keep
  deriving DecidableEq, Repr

def chompMark (ss : List Spot) : Option Chomp × List Spot :=
  match ss with
  | s :: rest =>
    if s.char = '+' then (some .keep, rest)
    else if s.char = '-' then (some .strip, rest)
    else (none, ss)
  | [] => (none, ss)

/-- An indentation mark, 0 if there is none; the digit 0 is refused. -/
def indentMark? (ss : List Spot) : Option (Nat × List Spot) :=
  match ss with
  | s :: rest =>
    if s.char = '0' then none
    else if s.char.isDigit then some (s.char.toNat - 48, rest)
    else some (0, ss)
  | [] => some (0, ss)

/-- The marks behind the bar or angle, in either order, up to and with the end of the line. -/
def blockHeader? (ss : List Spot) : Option (Chomp × Nat × List Spot) := do
  let (chomp, rest) := chompMark ss
  let (increment, rest) ← indentMark? rest
  let (chomp, rest) := match chomp with
    | some _ => (chomp, rest)
    | none => if increment = 0 then (none, rest) else chompMark rest
  let rest ← restOfLine? rest
  some (chomp.getD .clip, increment, rest)

/-- Indentation and empty lines in front of a line of a block scalar. -/
structure Margin where
  /-- The line ends that were passed, in order. -/
  breaks : List Char
  /-- The largest column reached. -/
  depth : Nat
  rest : List Spot
  deriving DecidableEq, Repr

/-- Skips spaces left of column `limit` (all, if it is not known yet) and empty lines. A tab
there is refused. The line ends so far are held last first. -/
def margin? (limit : Option Nat) (breaks : List Char) (depth : Nat) : List Spot → Option Margin
  | [] => some ⟨breaks.reverse, depth, []⟩
  | s :: rest =>
    let outside := limit.all (s.column < ·)
    if s.char = ' ' ∧ outside then margin? limit breaks depth rest
    else if s.char = '\t' ∧ outside then none
    else if isBreak s.char then margin? limit (s.char :: breaks) (max depth s.column) rest
    else some ⟨breaks.reverse, max depth s.column, s :: rest⟩

/-- What stands between two lines of a block scalar: the line end behind the first and the
empty lines after it. -/
def joint (folded : Bool) (leading trailing : List Char) : List Char :=
  if folded ∧ leading = ['\n'] then
    if trailing = [] then [' '] else trailing
  else leading ++ trailing

/-- Reads the lines that start in column `indent`: the text, its last line end, the empty lines
behind it and the rest. `fromBlank` tells that the line before started with a blank. The text so
far is held last character first. The fuel bounds the number of lines. -/
def blockLines? (folding : Bool) (indent : Nat) :
    Nat → (acc leading trailing : List Char) → (fromBlank : Bool) → List Spot →
    Option (List Char × List Char × List Char × List Spot)
  | 0, _, _, _, _, _ => none
  | _ + 1, acc, leading, trailing, _, [] => some (acc.reverse, leading, trailing, [])
  | fuel + 1, acc, leading, trailing, fromBlank, s :: rest =>
    if s.column = indent then
      let blank := isBlank s.char
      let gap := joint (folding ∧ ¬ fromBlank ∧ ¬ blank) leading trailing
      let (line, rest) := takeChars (!isBreak ·) (s :: rest)
      (margin? (some indent) [] 0 (rest.drop 1)).bind fun m =>
        blockLines? folding indent fuel (line.reverse ++ (gap.reverse ++ acc))
          ((rest.take 1).map (·.char)) m.breaks blank m.rest
    else some (acc.reverse, leading, trailing, s :: rest)

/-- Reads a block scalar behind its bar or angle, inside a block of the given indentation. -/
def block? (folding : Bool) (parent : Int) (ss : List Spot) : Option Reading := do
  let (chomp, increment, rest) ← blockHeader? ss
  let base := (max parent 0).toNat
  let m ← margin? (if increment = 0 then none else some (base + increment)) [] 0 rest
  let indent := if increment = 0 then max (max m.depth (parent + 1).toNat) 1 else base + increment
  let (text, leading, trailing, rest) ←
    blockLines? folding indent (ss.length + 1) [] [] m.breaks false m.rest
  let tail := match chomp with
    | .strip => []
    | .clip => leading
    | .keep => leading ++ trailing
  some ⟨text ++ tail, rest, true⟩

end MicStream.Yaml
