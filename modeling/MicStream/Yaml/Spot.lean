/-!
# Characters of a YAML text

A text is read as a list of spots: characters with the line, the column and
the byte of the line where they stand. The common line ends (carriage return and line feed together or
alone, next line) all become a line feed; the line and the paragraph
separator also end a line and stay themselves.
-/
namespace MicStream.Yaml

/-- A character and where it stands. -/
structure Spot where
  char : Char
  line : Nat
  /-- Characters in front of it on its line. -/
  column : Nat
  /-- Bytes in front of it on its line. -/
  offset : Nat
  deriving DecidableEq, Repr

def isBreak (c : Char) : Bool := c = '\n' || c = '\u2028' || c = '\u2029'

def isBlank (c : Char) : Bool := c = ' ' || c = '\t'

/-- Characters of anchors, directive names and tag handles. -/
def isWord (c : Char) : Bool := c.isAlphanum || c = '-' || c = '_'

def isAllowed (c : Char) : Bool :=
  let n := c.toNat
  n == 0x09 || n == 0x0a || n == 0x0d || (0x20 ≤ n && n ≤ 0x7e) || n == 0x85
    || (0xa0 ≤ n && n ≤ 0xd7ff) || (0xe000 ≤ n && n ≤ 0xfffd) || 0x10000 ≤ n

/-- One line feed for each of the common line ends. -/
def unifyBreaks : List Char → List Char
  | '\r' :: '\n' :: rest => '\n' :: unifyBreaks rest
  | c :: rest => (if c = '\r' || c = '\u0085' then '\n' else c) :: unifyBreaks rest
  | [] => []

/-- Numbers lines, columns and bytes, starting from the given position. -/
def place (line column offset : Nat) : List Char → List Spot
  | [] => []
  | c :: rest =>
    ⟨c, line, column, offset⟩ ::
      if isBreak c then place (line + 1) 0 0 rest
      else place line (column + 1) (offset + c.utf8Size) rest

/-- The spots of a text, if all its characters are allowed. -/
def spots? (text : List Char) : Option (List Spot) :=
  if text.all isAllowed then some (place 0 0 0 (unifyBreaks text)) else none

/-- Whether a list of spots is over or goes on with a blank or a line end. -/
def blankNext : List Spot → Bool
  | [] => true
  | s :: _ => isBlank s.char || isBreak s.char

/-- Whether a list of spots goes on with one of the given characters. -/
def nextIn (cs : List Char) : List Spot → Bool
  | [] => false
  | s :: _ => cs.contains s.char

/-- The leading characters that satisfy `p`, and the rest. -/
def takeChars (p : Char → Bool) (ss : List Spot) : List Char × List Spot :=
  ((ss.takeWhile (p ·.char)).map (·.char), ss.dropWhile (p ·.char))

def dropChars (p : Char → Bool) (ss : List Spot) : List Spot := ss.dropWhile (p ·.char)

/-- Skips blanks, a comment and a line end; fails when something else stands on the line. -/
def restOfLine? (ss : List Spot) : Option (List Spot) :=
  let ss := dropChars isBlank ss
  let ss := if nextIn ['#'] ss then dropChars (!isBreak ·) ss else ss
  match ss with
  | [] => some []
  | s :: rest => if isBreak s.char then some rest else none

/-- Whether `---` (for `mark` a hyphen) or `...` (for a full stop) stands here at the start of a line. -/
def isDocumentMark (mark : Char) : List Spot → Bool
  | a :: b :: c :: rest =>
    a.column = 0 && a.char = mark && b.char = mark && c.char = mark && blankNext rest
  | _ => false

/-- Whether the text of a document ends here. -/
def isDocumentEdge (ss : List Spot) : Bool := isDocumentMark '-' ss || isDocumentMark '.' ss

end MicStream.Yaml
